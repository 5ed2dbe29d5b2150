import Hako.Lib.Louds
import Hako.Trie.DomainSet

/-!
# Sets in level-order form

When the bitmap and the labels of a set are the level-order form of some nodes, every node is
found again from its number. If moreover every node but the first is a child of an earlier one,
`Has` and `Foreach` never leave the set, whatever its labels are.
-/

namespace Hako.Trie

open GoLib Lib List Option DomainSet Nat

/-! ### Nodes -/

theorem blockLabels_append (ls : List UInt8) (bits : List Bool) (more : List UInt8) :
    blockLabels (List.replicate ls.length false ++ true :: bits) (ls ++ more) = (ls, true) := by
  induction ls with
  | nil => simp [blockLabels]
  | cons l ls ih => simp [blockLabels, replicate_succ, ih]

variable {id : Nat} {static : Nat → List Reading} {labels : List UInt8}

theorem exists_node {N : Type*} {nodes : List N} (h : id < nodes.length) :
    ∃ n, nodes[id]? = some n :=
  ⟨_, getElem?_eq_getElem h⟩

/-- The bitmap and the labels are the level-order form of `nodes`. -/
structure LevelForm {N : Type*} (edges : N → List (UInt8 × N)) (ss : DomainSet) (nodes : List N) :
    Prop where
  bits : ∃ rest, ss.bits = loudsBits edges nodes ++ rest
  labels : ss.labels = loudsLabels edges nodes

namespace LevelForm

variable {N : Type*} {edges : N → List (UInt8 × N)} {ss : DomainSet} {nodes : List N} {id : Nat}
  {n : N}

section

variable (e : LevelForm edges ss nodes)
include e

section

variable (h : nodes[id]? = some n)
include h

theorem select_eq :
    selectIthOne ss.labelBitmap id = some (loudsStart edges nodes (id + 1) - 1) := by
  obtain ⟨rest, hrest⟩ := e.bits
  change select ss.bits id = _
  rw [hrest]
  exact select_append _ (select_louds h)

/-- The bits of a node, from its beginning on. -/
theorem drop_bits :
    ∃ rest, ss.bits.drop (loudsStart edges nodes id) =
      List.replicate ((edges n).map Prod.fst).length false ++ true :: rest := by
  obtain ⟨more, hmore⟩ := e.bits
  have hle : loudsStart edges nodes id ≤ (loudsBits edges nodes).length := by
    rw [loudsBits_split h, loudsStart, length_append]
    exact le_add_right _ _
  refine ⟨loudsBits edges (nodes.drop (id + 1)) ++ more, ?_⟩
  rw [hmore, drop_append_of_le_length hle, drop_loudsStart h, length_map]
  simp

/-- The labels of a node. -/
theorem drop_labels :
    ∃ rest, ss.labels.drop (loudsStart edges nodes id - id) = (edges n).map Prod.fst ++ rest :=
  ⟨_, by rw [e.labels, drop_loudsLabels h]⟩

theorem blockAt_eq :
    ss.blockAt id (loudsStart edges nodes id) =
      ⟨loudsStart edges nodes id - id + 1, (edges n).map Prod.fst, true⟩ := by
  obtain ⟨bits, hbits⟩ := e.drop_bits h
  obtain ⟨labels, hlabels⟩ := e.drop_labels h
  rw [blockAt, hbits, hlabels, blockLabels_append]

/-- Behind the one of a node the next begins. -/
theorem select_succ :
    (selectIthOne ss.labelBitmap id).map (· + 1) = some (loudsStart edges nodes (id + 1)) := by
  have hstart : loudsStart edges nodes (id + 1) - 1 + 1 = loudsStart edges nodes (id + 1) := by
    rw [loudsStart_succ h]
    omega
  rw [e.select_eq h, map_some, hstart]

/-- A node as the set has it: the bytes of its children, and their places from the first on. -/
theorem block_eq :
    ss.block id = some ⟨loudsStart edges nodes id - id + 1, (edges n).map Prod.fst, true⟩ := by
  cases id with
  | zero => exact congrArg some (e.blockAt_eq h)
  | succ id =>
    obtain ⟨m, hm⟩ := exists_node (Nat.lt_of_succ_lt (List.getElem?_eq_some_iff.mp h).1)
    have hstart := e.select_succ hm
    obtain ⟨p, hp, hp'⟩ := map_eq_some_iff.mp hstart
    rw [block, if_neg (Nat.succ_ne_zero _), Nat.add_sub_cancel, hp, map_some, hp', e.blockAt_eq h]

/-- Each label of a node has a zero. -/
theorem zero_at {t : Nat} (ht : t < ((edges n).map Prod.fst).length) :
    getBit ss.labelBitmap (loudsStart edges nodes id + t) = some false := by
  obtain ⟨rest, hrest⟩ := e.drop_bits h
  rw [getBit_eq]
  change ss.bits[_]? = _
  rw [← getElem?_drop, hrest, getElem?_append_left (by simpa using ht),
    getElem?_replicate, if_pos ht]

/-- A one follows the labels of a node. -/
theorem one_at :
    getBit ss.labelBitmap (loudsStart edges nodes id + ((edges n).map Prod.fst).length) =
      some true := by
  obtain ⟨rest, hrest⟩ := e.drop_bits h
  rw [getBit_eq]
  change ss.bits[_]? = _
  rw [← getElem?_drop, hrest, getElem?_append_right (by simp)]
  simp

end

end

variable (edges) in
theorem le_loudsStart (h : nodes[id]? = some n) : id ≤ loudsStart edges nodes id := by
  rw [loudsStart_eq (le_of_lt (List.getElem?_eq_some_iff.mp h).1)]
  exact le_add_left _ _

variable {t : Nat}

theorem label_at (e : LevelForm edges ss nodes) (h : nodes[id]? = some n) {c : UInt8}
    (ht : ((edges n).map Prod.fst)[t]? = some c) :
    ss.label (loudsStart edges nodes id + t) id = some c := by
  obtain ⟨rest, hrest⟩ := e.drop_labels h
  have hle := le_loudsStart edges h
  have hlt := (List.getElem?_eq_some_iff.mp ht).1
  have hsub : loudsStart edges nodes id + t - id = loudsStart edges nodes id - id + t := by omega
  rw [label, if_pos (by omega), hsub, ← getElem?_drop, hrest, getElem?_append_left hlt, ht]

/-- The children of a node stand behind the labels before it. -/
theorem child_lt (e : LevelForm edges ss nodes) (h : nodes[id]? = some n)
    (ht : t < (edges n).length) :
    loudsStart edges nodes id - id + 1 + t < ss.labels.length + 1 := by
  obtain ⟨rest, hrest⟩ := e.drop_labels h
  have hlength := congrArg List.length hrest
  rw [length_drop, length_append, length_map] at hlength
  omega

end LevelForm

/-! ### Going through the keys -/

/-- How a visit of a node ends: with the state of the callback and whether to go on. -/
inductive Visit (σ : Type*) where
  | done (st : σ) (more : Bool)
  | outOfRange

namespace DomainSet

variable {σ : Type*} (ss : DomainSet) (f : σ → GoString → Nat → σ × Bool)

mutual

/-- The closure `traverse` of `keys`, bounded by a number of calls. The callback `f` has a state. -/
def traverse : Nat → Nat → Nat → GoString → σ → Option (Visit σ)
  | 0, _, _, _, _ => none
  | fuel + 1, nodeId, bmIdx, currentKey, st =>
    match getBit ss.leaves nodeId with
    | none => some .outOfRange
    | some false => traverseChildren fuel nodeId bmIdx currentKey st
    | some true =>
      if (f st currentKey nodeId).2 then
        traverseChildren fuel nodeId bmIdx currentKey (f st currentKey nodeId).1
      else some (.done (f st currentKey nodeId).1 false)

/-- Its loop over the children of a node. -/
def traverseChildren : Nat → Nat → Nat → GoString → σ → Option (Visit σ)
  | 0, _, _, _, _ => none
  | fuel + 1, nodeId, bmIdx, currentKey, st =>
    match getBit ss.labelBitmap bmIdx with
    | none => some .outOfRange
    | some true => some (.done st true)
    | some false =>
      match ss.label bmIdx nodeId with
      | none => some .outOfRange
      | some nextLabel =>
        match selectIthOne ss.labelBitmap (bmIdx - nodeId) with
        | none => some .outOfRange
        | some p =>
          match traverse fuel (bmIdx - nodeId + 1) (p + 1) (currentKey ++ [nextLabel]) st with
          | some (.done st true) => traverseChildren fuel nodeId (bmIdx + 1) currentKey st
          | other => other

end

/-- `keys`, with `traverse` bounded by a number of calls. -/
def keys (fuel : Nat) (st : σ) : Option (Visit σ) := ss.traverse f fuel 0 0 [] st

/-- `Foreach` -/
def foreach (f : σ → GoString → σ × Bool) (fuel : Nat) (st : σ) : Option (Visit σ) :=
  ss.keys (fun st key _ => f st (reverse (trimSuffix key complexWildcard))) fuel st

end DomainSet

/-! ### Trees -/

/-- The nodes make a tree in level order, and the leaf bits reach to the last of them. -/
structure Wellformed {N : Type*} (edges : N → List (UInt8 × N)) (ss : DomainSet)
    (nodes : List N) : Prop extends LevelForm edges ss nodes where
  length : nodes.length = ss.labels.length + 1
  leaf : ∀ id < nodes.length, ∃ leaf, getBit ss.leaves id = some leaf
  /-- Every node but the first is a child of an earlier one. -/
  earlier : ∀ id < nodes.length, id ≤ loudsStart edges nodes id - id

/-- The reading neither leaves the set nor ends on a node without an end. -/
def Reading.Clean (r : Reading) : Prop := r = .hit ∨ r = .miss

section

variable (hstatic : ∀ t < labels.length, ∀ r ∈ static (id + t), r.Clean)
include hstatic

theorem clean_scanBlock {c : UInt8} {jump : Nat → List Reading}
    (hjump : ∀ t < labels.length, ∀ r ∈ jump (id + t), r.Clean) :
    ∀ r ∈ scanBlock c true static jump id labels, r.Clean := by
  induction labels generalizing id with
  | nil => simp [scanBlock, Reading.Clean]
  | cons l labels ih =>
    have hnext := @ih (id + 1)
      (fun t ht => by rw [add_right_comm]; exact hstatic (t + 1) (succ_lt_succ ht))
      (fun t ht => by rw [add_right_comm]; exact hjump (t + 1) (succ_lt_succ ht))
    rw [scanBlock]
    split
    · simp [Reading.Clean]
    split
    · exact forall_mem_append.mpr ⟨hnext, hjump 0 (succ_pos _)⟩
    split
    · exact hstatic 0 (succ_pos _)
    · exact hnext

theorem clean_stepBlock : ∀ r ∈ stepBlock true static id labels, r.Clean := by
  induction labels generalizing id with
  | nil => simp [stepBlock, Reading.Clean]
  | cons l labels ih =>
    rw [stepBlock]
    split
    · exact hstatic 0 (succ_pos _)
    · refine @ih (id + 1) fun t ht => ?_
      rw [add_right_comm]
      exact hstatic (t + 1) (succ_lt_succ ht)

end

theorem verdict_of_clean {rs : List Reading} (h : ∀ r ∈ rs, r.Clean) :
    verdict rs ≠ .outOfRange := by
  induction rs with
  | nil => decide
  | cons r rs ih =>
    obtain ⟨hr, hrs⟩ := forall_mem_cons.mp h
    rcases hr with rfl | rfl
    · simp [verdict, resolve]
    · simpa [verdict, resolve] using ih hrs

namespace Wellformed

variable {N : Type*} {edges : N → List (UInt8 × N)} {ss : DomainSet} {nodes : List N}

section

variable (e : Wellformed edges ss nodes)
include e

theorem child_lt_length {id : Nat} {n : N}
    (h : nodes[id]? = some n) {t : Nat} (ht : t < ((edges n).map Prod.fst).length) :
    loudsStart edges nodes id - id + 1 + t < nodes.length := by
  rw [e.length]
  exact e.child_lt h (by simpa using ht)

theorem clean_arrive (w : GoString) :
    (∀ id < nodes.length, ∀ r ∈ ss.arrive id w, r.Clean) ∧
      ∀ id < nodes.length, ∀ r ∈ ss.jump id w, r.Clean := by
  induction w with
  | nil =>
    constructor
    · intro id hid r hr
      obtain ⟨leaf, hleaf⟩ := e.leaf id hid
      obtain ⟨n, hn⟩ := exists_node hid
      rw [arrive, mem_singleton] at hr
      rw [hr, endReading, hleaf, e.select_eq hn]
      cases leaf <;> simp [Reading.Clean]
    · intro id hid r hr
      obtain ⟨leaf, hleaf⟩ := e.leaf id hid
      rw [jump, mem_singleton] at hr
      rw [hr, leafReading, hleaf]
      cases leaf <;> simp [Reading.Clean]
  | cons c w ih =>
    obtain ⟨harrive, hjump⟩ := ih
    have hjump' : ∀ id < nodes.length, ∀ r ∈ ss.jump id (c :: w), r.Clean := by
      intro id hid
      obtain ⟨n, hn⟩ := exists_node hid
      rw [jump]
      split
      · rw [stepTo, e.block_eq hn]
        exact clean_stepBlock fun t ht => harrive _ (e.child_lt_length hn ht)
      · exact hjump id hid
    refine ⟨fun id hid => ?_, hjump'⟩
    obtain ⟨n, hn⟩ := exists_node hid
    rw [arrive_cons, e.block_eq hn]
    exact clean_scanBlock (fun t ht => harrive _ (e.child_lt_length hn ht))
      fun t ht => hjump' _ (e.child_lt_length hn ht)

/-- `Has` returns for every key and stays in range. -/
theorem has_returns (key : GoString) :
    ∃ o, HasReturns (some ss) key o ∧ o ≠ .outOfRange := by
  have hpos : 0 < nodes.length := by
    rw [e.length]
    exact succ_pos _
  exact ⟨_, returns_verdict ss key, verdict_of_clean ((e.clean_arrive (walkKey key)).1 0 hpos)⟩

end

/-! ### Going through the tree -/

section Ends

variable {σ : Type*} {visit visit' : Nat → Option (Visit σ)}

/-- With enough calls the visit ends. -/
def Ends (visit : Nat → Option (Visit σ)) : Prop :=
  ∃ bound st more, ∀ fuel ≥ bound, visit fuel = some (.done st more)

theorem ends_done (st : σ) (more : Bool) : Ends fun _ => some (.done st more) :=
  ⟨0, st, more, fun _ _ => rfl⟩

/-- A visit that spends a call first. -/
theorem Ends.succ (h : Ends visit) (heq : ∀ fuel, visit' (fuel + 1) = visit fuel) :
    Ends visit' := by
  obtain ⟨bound, st, more, h⟩ := h
  refine ⟨bound + 1, st, more, fun fuel hfuel => ?_⟩
  obtain ⟨fuel, rfl⟩ := Nat.exists_eq_add_of_le' (le_trans (Nat.le_add_left 1 _) hfuel)
  rw [heq]
  exact h fuel (Nat.le_of_add_le_add_right hfuel)

/-- A visit with another behind it, unless the callback stops it. -/
theorem Ends.bind (h : Ends visit) {rest : σ → Nat → Option (Visit σ)}
    (hrest : ∀ st, Ends (rest st)) : Ends fun fuel =>
      match visit fuel with
      | some (.done st true) => rest st fuel
      | other => other := by
  obtain ⟨bound, st, more, h⟩ := h
  cases more with
  | false => exact ⟨bound, st, false, fun fuel hfuel => by simp only [h fuel hfuel]⟩
  | true =>
    obtain ⟨bound', st', more', h'⟩ := hrest st
    refine ⟨max bound bound', st', more', fun fuel hfuel => ?_⟩
    simp only [h fuel (le_of_max_le_left hfuel)]
    exact h' fuel (le_of_max_le_right hfuel)

end Ends

section Foreach

variable {σ : Type*} (f : σ → GoString → Nat → σ × Bool) (e : Wellformed edges ss nodes)
include e

variable {id : Nat}

/-- Where the child of an edge begins. -/
theorem select_child {t : Nat} {n : N} (h : nodes[id]? = some n)
    (ht : t < ((edges n).map Prod.fst).length) :
    ∃ p, selectIthOne ss.labelBitmap (loudsStart edges nodes id + t - id) = some p ∧
      p + 1 = loudsStart edges nodes (loudsStart edges nodes id - id + 1 + t) := by
  have hid := LevelForm.le_loudsStart edges h
  have hlt := e.child_lt_length h ht
  have hbefore : loudsStart edges nodes id + t - id < nodes.length := by omega
  obtain ⟨m, hm⟩ := exists_node hbefore
  obtain ⟨p, hp, hp'⟩ := map_eq_some_iff.mp (e.select_succ hm)
  refine ⟨p, hp, ?_⟩
  rw [hp']
  congr 1
  omega

/-- Enough fuel makes `traverse` return from a node, by induction on the nodes behind it. -/
theorem traverse_ends (hid : id < nodes.length) (key : GoString) (st : σ) :
    Ends fun fuel => ss.traverse f fuel id (loudsStart edges nodes id) key st := by
  induction hk : nodes.length - id using Nat.strongRecOn generalizing id key st with
  | ind k ih =>
    obtain ⟨n, hn⟩ := exists_node hid
    -- the loop over the children, by induction on those that are left
    have hchildren : ∀ d t, t + d = ((edges n).map Prod.fst).length → ∀ st, Ends fun fuel =>
        ss.traverseChildren f fuel id (loudsStart edges nodes id + t) key st := by
      intro d
      induction d with
      | zero =>
        intro t ht st
        obtain rfl : t = ((edges n).map Prod.fst).length := ht
        refine (ends_done st true).succ fun fuel => ?_
        rw [DomainSet.traverseChildren, e.one_at hn]
      | succ d ihd =>
        intro t ht st
        have hlt : t < ((edges n).map Prod.fst).length := by omega
        have hbit := e.zero_at hn hlt
        obtain ⟨l, hl⟩ := exists_node hlt
        have hl := e.label_at hn hl
        obtain ⟨p, hp, hp'⟩ := e.select_child hn hlt
        have hchild := e.child_lt_length hn hlt
        have hearlier := e.earlier id hid
        have hstart : id ≤ loudsStart edges nodes id := le_trans hearlier (sub_le _ _)
        have hsub : loudsStart edges nodes id + t - id + 1 =
            loudsStart edges nodes id - id + 1 + t := by omega
        have hvisit := ih _ (by omega) hchild (key ++ [l]) st rfl
        refine (hvisit.bind fun st => ihd (t + 1) (by omega) st).succ fun fuel => ?_
        rw [DomainSet.traverseChildren, hbit]
        rw [hl]
        rw [hp]
        dsimp only
        rw [hp', hsub]
        rfl
    have hloop := hchildren ((edges n).map Prod.fst).length 0 (zero_add _)
    obtain ⟨leaf, hleaf⟩ := e.leaf id hid
    cases leaf with
    | false => exact (hloop st).succ fun fuel => by rw [DomainSet.traverse, hleaf]; rfl
    | true =>
      cases hmore : (f st key id).2 with
      | true =>
        refine (hloop (f st key id).1).succ fun fuel => ?_
        rw [DomainSet.traverse, hleaf]
        simp [hmore]
      | false =>
        refine (ends_done (f st key id).1 false).succ fun fuel => ?_
        rw [DomainSet.traverse, hleaf]
        simp [hmore]

theorem foreach_returns (f : σ → GoString → σ × Bool) (st : σ) :
    ∃ fuel st' more, ss.foreach f fuel st = some (.done st' more) := by
  have hpos : 0 < nodes.length := by
    rw [e.length]
    exact succ_pos _
  obtain ⟨bound, st', more, h⟩ := e.traverse_ends
    (fun st key _ => f st (reverse (trimSuffix key complexWildcard))) hpos [] st
  exact ⟨bound, st', more, h bound (le_refl _)⟩

end Foreach

end Wellformed

end Hako.Trie
