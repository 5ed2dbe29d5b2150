import Hako.Trie.Build
import Hako.Trie.LevelForm

/-!
# Walking a built set

In the level-order form of a tree every node is found again, so the readings of a key never
break, and whether one of them hits depends only on the rests of the keys at the node. The order
of the children matters: bytes below `*` are looked at before the wildcards, and if one of them
leads on, the wildcards of the node are not tried.
-/

namespace Hako.Trie

open GoLib Lib List

/-! ### Nodes of an encoded tree -/

namespace Encodes

variable {ss : DomainSet} {nodes : List QElt} {id : Nat} {n : QElt}

theorem levelForm (e : Encodes ss nodes) : LevelForm QElt.edges ss nodes := by
  obtain ⟨k, hk⟩ := e.bits
  exact ⟨⟨_, hk⟩, e.labels⟩

theorem child_eq (e : Encodes ss nodes) (h : nodes[id]? = some n) {t : Nat} {c : UInt8}
    (ht : n.bytes[t]? = some c) :
    nodes[loudsStart QElt.edges nodes id - id + 1 + t]? = some (n.child c) := by
  obtain ⟨root, horder⟩ := e.order
  have hedge : n.edges[t]? = some (c, n.child c) := by
    rw [QElt.edges_eq (e.sorted n (mem_of_getElem? h)), getElem?_map, ht]
    rfl
  exact horder.child h hedge

end Encodes

/-! ### Readings that settle a question -/

/-- The readings do not leave the set, and one of them hits exactly if `p` holds. -/
structure Settles (rs : List Reading) (p : Prop) : Prop where
  clean : ∀ r ∈ rs, r = .hit ∨ r = .miss
  hit_iff : .hit ∈ rs ↔ p

namespace Settles

variable {rs js : List Reading} {p q : Prop}

variable (h : Settles rs p)
include h

theorem congr (hpq : p ↔ q) : Settles rs q := ⟨h.clean, h.hit_iff.trans hpq⟩

omit h in
theorem single (b : Bool) : Settles [if b then .hit else .miss] (b = true) := by
  cases b <;> constructor <;> simp

theorem append (h' : Settles js q) : Settles (rs ++ js) (p ∨ q) where
  clean r hr := (mem_append.mp hr).elim (h.clean r) (h'.clean r)
  hit_iff := by rw [mem_append, h.hit_iff, h'.hit_iff]

theorem verdict_eq : (verdict rs = .found ↔ p) ∧ (verdict rs = .notFound ↔ ¬ p) := by
  rw [← h.hit_iff]
  have hclean := h.clean
  clear h
  induction rs with
  | nil => simp [verdict, resolve]
  | cons r rs ih =>
    obtain ⟨hr, hrs⟩ := forall_mem_cons.mp hclean
    rcases hr with rfl | rfl
    · simp [verdict, resolve]
    · simpa [verdict, resolve] using ih hrs

end Settles

/-- How the loop over sorted labels comes to a hit: `static` is for the edge `c`, `jump` for the
edge `*`. -/
def ScanHit (c : UInt8) (static jump : Prop) : List UInt8 → Prop
  | [] => False
  | l :: labels =>
    if l = complexWildcardByte then True
    else if l = wildcardByte then ScanHit c static jump labels ∨ jump
    else if c = l then static
    else ScanHit c static jump labels

theorem settles_scanBlock {c : UInt8} {static jump : Nat → List Reading} {s j : Prop}
    {labels : List UInt8} {id : Nat}
    (hstatic : ∀ t, labels[t]? = some c → Settles (static (id + t)) s)
    (hjump : ∀ t, labels[t]? = some wildcardByte → Settles (jump (id + t)) j) :
    Settles (scanBlock c true static jump id labels) (ScanHit c s j labels) := by
  induction labels generalizing id with
  | nil => exact (Settles.single false).congr (by simp [ScanHit])
  | cons l labels ih =>
    have hnext := @ih (id + 1)
      (fun t ht => by rw [Nat.add_right_comm]; exact hstatic (t + 1) ht)
      (fun t ht => by rw [Nat.add_right_comm]; exact hjump (t + 1) ht)
    rw [scanBlock, ScanHit]
    split
    · exact (Settles.single true).congr (by simp)
    split
    · rename_i hl
      exact hnext.append (hjump 0 (by rw [hl]; rfl))
    split
    · rename_i hl
      exact hstatic 0 (by rw [hl]; rfl)
    · exact hnext

theorem settles_stepBlock {static : Nat → List Reading} {s : Prop} {labels : List UInt8}
    {id : Nat} (hstatic : ∀ t, labels[t]? = some domainStepByte → Settles (static (id + t)) s) :
    Settles (stepBlock true static id labels) (domainStepByte ∈ labels ∧ s) := by
  induction labels generalizing id with
  | nil => exact (Settles.single false).congr (by simp)
  | cons l labels ih =>
    rw [stepBlock]
    split
    · rename_i hl
      exact (hstatic 0 (by rw [hl]; rfl)).congr (by simp [hl])
    · rename_i hl
      refine (@ih (id + 1) fun t ht => ?_).congr (by simp [Ne.symm hl])
      rw [Nat.add_right_comm]
      exact hstatic (t + 1) ht

/-- Where a byte stands with respect to the wildcards. -/
theorem byte_cases (b : UInt8) :
    b < wildcardByte ∨ b = wildcardByte ∨ b = complexWildcardByte ∨ complexWildcardByte < b := by
  simp only [UInt8.lt_iff_toNat_lt, ← UInt8.toNat_inj, wildcardByte, complexWildcardByte]
  simp only [UInt8.toNat_ofNat]
  omega

/-- The loop over sorted labels: a byte below `*` comes before the wildcards. -/
theorem scanHit_iff {c : UInt8} {s j : Prop} {labels : List UInt8} (h : labels.Pairwise (· < ·)) :
    ScanHit c s j labels ↔
      if c < wildcardByte ∧ c ∈ labels then s
      else complexWildcardByte ∈ labels ∨ (complexWildcardByte < c ∧ c ∈ labels ∧ s) ∨
        (wildcardByte ∈ labels ∧ j) := by
  induction h with
  | nil => simp [ScanHit]
  | @cons l labels hl _ ih =>
    have horder : wildcardByte < complexWildcardByte := by decide
    rw [ScanHit]
    simp only [mem_cons]
    rcases byte_cases l with hlt | rfl | rfl | hgt
    · -- a byte before the wildcards decides if it is `c`, and is passed over otherwise
      grind
    · -- `*` waits behind the rest, where no byte below it is left
      grind
    · grind
    · -- no wildcard is left
      grind

/-! ### What the walk accepts -/

/-- A key goes on with the byte `c`. -/
def HasEdge (S : GoString → Prop) (c : UInt8) : Prop := ∃ rest, S (c :: rest)

/-- The rests behind the byte `c`. -/
def after (S : GoString → Prop) (c : UInt8) : GoString → Prop := fun rest => S (c :: rest)

mutual

/-- What the walk accepts from a node with the rests `S`. -/
def Accepts : (GoString → Prop) → GoString → Prop
  | S, [] => S []
  | S, c :: w =>
    (c < wildcardByte ∧ HasEdge S c ∧ Accepts (after S c) w) ∨
      (¬ (c < wildcardByte ∧ HasEdge S c) ∧
        (HasEdge S complexWildcardByte ∨
          (complexWildcardByte < c ∧ HasEdge S c ∧ Accepts (after S c) w) ∨
          (HasEdge S wildcardByte ∧
            if c = domainStepByte then
              HasEdge (after S wildcardByte) domainStepByte ∧
                Accepts (after (after S wildcardByte) domainStepByte) w
            else Jumps (after S wildcardByte) w)))

/-- What it accepts from a node behind `*`, which takes the key up to the next `.`. -/
def Jumps : (GoString → Prop) → GoString → Prop
  | S, [] => S []
  | S, c :: w =>
    if c = domainStepByte then HasEdge S domainStepByte ∧ Accepts (after S domainStepByte) w
    else Jumps S w

end

theorem accepts_cons (S : GoString → Prop) (c : UInt8) (w : GoString) :
    Accepts S (c :: w) ↔ (c < wildcardByte ∧ HasEdge S c ∧ Accepts (after S c) w) ∨
        (¬ (c < wildcardByte ∧ HasEdge S c) ∧ (HasEdge S complexWildcardByte ∨
            (complexWildcardByte < c ∧ HasEdge S c ∧ Accepts (after S c) w) ∨
            (HasEdge S wildcardByte ∧ Jumps (after S wildcardByte) (c :: w)))) := by
  rw [Accepts, Jumps]

theorem mem_child_rests (n : QElt) (c : UInt8) :
    (· ∈ (n.child c).rests) = after (· ∈ n.rests) c := by
  funext rest
  exact propext mem_tails

namespace Encodes

variable {ss : DomainSet} {nodes : List QElt} {id : Nat} {n : QElt}

theorem settles_end (e : Encodes ss nodes) (h : nodes[id]? = some n) :
    Settles [ss.endReading id] (Accepts (· ∈ n.rests) []) ∧
      Settles [ss.leafReading id] (Jumps (· ∈ n.rests) []) := by
  have hleaf := QElt.isLeaf_iff (e.sorted n (mem_of_getElem? h))
  rw [DomainSet.endReading, DomainSet.leafReading, e.leaf id n h, e.levelForm.select_eq h, Accepts,
    Jumps, ← hleaf]
  cases n.isLeaf
  · exact ⟨Settles.single false, Settles.single false⟩
  · exact ⟨Settles.single true, Settles.single true⟩

/-- The edge `.` of a node behind `*`. -/
theorem settles_stepTo (e : Encodes ss nodes) (h : nodes[id]? = some n) {w : GoString}
    (harrive : ∀ id n, nodes[id]? = some n → Settles (ss.arrive id w) (Accepts (· ∈ n.rests) w)) :
    Settles (ss.stepTo (fun id => ss.arrive id w) id) (HasEdge (· ∈ n.rests) domainStepByte ∧
        Accepts (after (· ∈ n.rests) domainStepByte) w) := by
  have hsorted := e.sorted n (mem_of_getElem? h)
  rw [DomainSet.stepTo, e.levelForm.block_eq h]
  have hblock := @settles_stepBlock (fun id => ss.arrive id w) _ n.bytes
    (loudsStart QElt.edges nodes id - id + 1) fun t ht => harrive _ _ (e.child_eq h ht)
  rw [mem_child_rests] at hblock
  exact hblock.congr (and_congr_left fun _ => QElt.mem_bytes hsorted)

/-- The readings of a key from a node of a built set. -/
theorem settles_arrive (e : Encodes ss nodes) (w : GoString) :
    (∀ id n, nodes[id]? = some n → Settles (ss.arrive id w) (Accepts (· ∈ n.rests) w)) ∧
      ∀ id n, nodes[id]? = some n → Settles (ss.jump id w) (Jumps (· ∈ n.rests) w) := by
  induction w with
  | nil =>
    constructor
    · intro id n h
      rw [DomainSet.arrive]
      exact (e.settles_end h).1
    · intro id n h
      rw [DomainSet.jump]
      exact (e.settles_end h).2
  | cons c w ih =>
    obtain ⟨harrive, hjump⟩ := ih
    have hjump' : ∀ id n, nodes[id]? = some n →
        Settles (ss.jump id (c :: w)) (Jumps (· ∈ n.rests) (c :: w)) := by
      intro id n h
      rw [DomainSet.jump, Jumps]
      split
      · exact e.settles_stepTo h harrive
      · exact hjump id n h
    refine ⟨?_, hjump'⟩
    intro id n h
    have hsorted := e.sorted n (mem_of_getElem? h)
    have hedge : ∀ b, b ∈ n.bytes ↔ HasEdge (· ∈ n.rests) b := fun b => QElt.mem_bytes hsorted
    rw [DomainSet.arrive_cons, e.levelForm.block_eq h]
    have hblock := @settles_scanBlock c (fun id => ss.arrive id w)
      (fun id => ss.jump id (c :: w)) _ _ n.bytes (loudsStart QElt.edges nodes id - id + 1)
      (fun t ht => harrive _ _ (e.child_eq h ht)) (fun t ht => hjump' _ _ (e.child_eq h ht))
    rw [mem_child_rests, mem_child_rests] at hblock
    refine hblock.congr ?_
    rw [scanHit_iff (QElt.pairwise_bytes hsorted), accepts_cons, ← hedge, ← hedge, ← hedge]
    split
    · rename_i hc
      simp [hc]
    · rename_i hc
      have hnot : ¬ (c < wildcardByte ∧ c ∈ n.bytes ∧ Accepts (after (· ∈ n.rests) c) w) :=
        fun h => hc ⟨h.1, h.2.1⟩
      rw [and_iff_right hc]
      exact (or_iff_right hnot).symm

end Encodes

/-- `Has` on the set of some keys stays in range and finds what the walk accepts. -/
theorem hasReturns_build {keys : List GoString} (hne : keys ≠ []) (key : GoString) :
    ∃ ss terminals, buildDomainSet keys = some (some ss, terminals) ∧
      (HasReturns (some ss) key .found ↔ Accepts (· ∈ keys) (walkKey key)) ∧
      (HasReturns (some ss) key .notFound ↔ ¬ Accepts (· ∈ keys) (walkKey key)) := by
  obtain ⟨ss, nodes, hbuild, e, hroot⟩ := buildDomainSet_encodes hne
  have hkeys : (· ∈ sortedKeys keys) = (· ∈ keys) := by
    funext key
    exact propext mem_sortedKeys
  have hsettles := (e.settles_arrive (walkKey key)).1 0 _ hroot
  rw [hkeys] at hsettles
  refine ⟨ss, _, hbuild, ?_⟩
  rw [hasReturns_iff, hasReturns_iff]
  exact hsettles.verdict_eq

end Hako.Trie
