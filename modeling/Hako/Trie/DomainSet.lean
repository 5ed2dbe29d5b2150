import Hako.Lib.Bitmap
import Hako.Trie.Domain

/-!
# The succinct domain set

`DomainSet` stores the reversed patterns as a tree in level order: for every node the bitmap has
a zero for each child and then a one, `labels` has the bytes that lead to the children, and
`leaves` marks the nodes where a pattern ends. `Has` walks the tree with a stack of `*` edges to
come back to, in one loop with two `goto`s. Here it is a machine whose steps are the rounds of
its loops. Every index is checked, so that a set with any content can be walked.

The walk tries the ways to read a key through the tree one after the other. `arrive` lists
them, each with its result; the machine answers with the first result that decides.
-/

namespace Hako.Trie

open GoLib Lib List

structure DomainSet where
  leaves : List UInt64
  labelBitmap : List UInt64
  labels : List UInt8
deriving DecidableEq

/-! ### Bitmaps

The helpers for rank and select are exact: `countZeros` reads a word of the bitmap, and
`selectIthOne` has an answer as long as there are ones. -/

def setBit (bm : List UInt64) (i : Nat) (v : UInt64) : List UInt64 :=
  (bm ++ List.replicate (i / 64 + 1 - bm.length) 0).modify (i / 64)
    (· ||| (v <<< UInt64.ofNat (i % 64)))

/-- Whether a bit is set; none if the index is out of range. -/
def getBit (bm : List UInt64) (i : Nat) : Option Bool :=
  bm[i / 64]?.map fun w => w &&& (1 <<< UInt64.ofNat (i % 64)) ≠ 0

/-- The zeros before a place. -/
def countZeros (bm : List UInt64) (i : Nat) : Option Nat :=
  if i / 64 < bm.length then some (i - rank (bitsOf bm) i) else none

def selectIthOne (bm : List UInt64) (i : Nat) : Option Nat := select (bitsOf bm) i

theorem getBit_eq (bm : List UInt64) (i : Nat) : getBit bm i = (bitsOf bm)[i]? := by
  rw [getBit, getElem?_bitsOf]
  congr 1
  funext w
  have hlt : i % 64 < 64 := Nat.mod_lt _ (by decide)
  rw [Bool.eq_iff_iff, decide_eq_true_iff]
  exact and_mask_ne_zero_iff w hlt

/-! ### Keys -/

/-- `utils.Reverse`. -/
def reverse (s : GoString) : GoString := ofRunes (runes s).reverse

/-- The lower case of an ASCII byte. -/
def lowerByte (b : UInt8) : UInt8 := if 0x41 ≤ b ∧ b ≤ 0x5A then b + 0x20 else b

/-- The key as `revLowerAt` reads it: back to front, in lower case. A key that is not ASCII is
reversed and lower-cased by runes before. -/
def walkKey (key : GoString) : GoString :=
  let key :=
    if key.any (runeSelf ≤ ·.toNat) then (toLower (reverse key)).reverse else key
  key.reverse.map lowerByte

/-! ### The walk -/

inductive Outcome where
  | found
  | notFound
  /-- An index is out of range. -/
  | outOfRange
deriving DecidableEq

/-- `wildcardCursor`: a `*` edge to come back to. -/
structure WildcardCursor where
  bmIdx : Nat
  index : Nat
deriving DecidableEq

/-- Where the walk is: at a bit of a node, with the key read up to `i`; about to take a cursor
from the stack; or looking for the edge `.` after a `*`. -/
inductive Walk where
  | scan (nodeId bmIdx i : Nat) (stack : List WildcardCursor)
  | pop (stack : List WildcardCursor)
  | dot (nodeId bmIdx j : Nat) (stack : List WildcardCursor)
deriving DecidableEq

namespace DomainSet

variable (ss : DomainSet) (w : GoString)

/-- `ss.labels[bmIdx-nodeId]` -/
def label (bmIdx nodeId : Nat) : Option UInt8 :=
  if nodeId ≤ bmIdx then ss.labels[bmIdx - nodeId]? else none

/-- Where the next `.` of the key stands, or its end. -/
def skipLabel (index : Nat) : Nat := index + ((w.drop index).takeWhile (· ≠ domainStepByte)).length

/-- After the edge for the byte `i` has led to `nodeId`. -/
def enter (nodeId i : Nat) (stack : List WildcardCursor) : Walk ⊕ Outcome :=
  if i + 1 = w.length then
    match getBit ss.leaves nodeId with
    | none => .inr .outOfRange
    | some true => .inr .found
    | some false =>
      if stack = [] then .inr .notFound
      else
        match selectIthOne ss.labelBitmap nodeId with
        | none => .inr .outOfRange
        | some bmIdx => .inl (.scan nodeId bmIdx i stack)
  else
    match selectIthOne ss.labelBitmap (nodeId - 1) with
    | none => .inr .outOfRange
    | some bmIdx => .inl (.scan nodeId (bmIdx + 1) (i + 1) stack)

/-- One round of a loop of `Has`. -/
def step : Walk → Walk ⊕ Outcome
  | .scan nodeId bmIdx i stack =>
    match getBit ss.labelBitmap bmIdx with
    | none => .inr .outOfRange
    | some true => .inl (.pop stack)
    | some false =>
      match ss.label bmIdx nodeId with
      | none => .inr .outOfRange
      | some l =>
        if l = complexWildcardByte then .inr .found
        else if l = wildcardByte then .inl (.scan nodeId (bmIdx + 1) i (⟨bmIdx, i⟩ :: stack))
        else if w[i]? = some l then ss.enter w (bmIdx - nodeId + 1) i stack
        else .inl (.scan nodeId (bmIdx + 1) i stack)
  | .pop [] => .inr .notFound
  | .pop (cursor :: stack) =>
    match countZeros ss.labelBitmap (cursor.bmIdx + 1) with
    | none => .inr .outOfRange
    | some nextNodeId =>
      if skipLabel w cursor.index = w.length then
        match getBit ss.leaves nextNodeId with
        | none => .inr .outOfRange
        | some true => .inr .found
        | some false => .inl (.pop stack)
      else
        match selectIthOne ss.labelBitmap (nextNodeId - 1) with
        | none => .inr .outOfRange
        | some bmIdx => .inl (.dot nextNodeId (bmIdx + 1) (skipLabel w cursor.index) stack)
  | .dot nodeId bmIdx j stack =>
    match getBit ss.labelBitmap bmIdx with
    | none => .inr .outOfRange
    | some true => .inl (.pop stack)
    | some false =>
      match ss.label bmIdx nodeId with
      | none => .inr .outOfRange
      | some l =>
        if l = domainStepByte then .inl (.scan nodeId bmIdx j stack)
        else .inl (.dot nodeId (bmIdx + 1) j stack)

def run : Nat → Walk ⊕ Outcome → Option Outcome
  | _, .inr o => some o
  | 0, .inl _ => none
  | fuel + 1, .inl s => run fuel (ss.step w s)

/-- Where the walk of a key begins. -/
def initial : Walk ⊕ Outcome :=
  if w = [] then
    match getBit ss.leaves 0 with
    | none => .inr .outOfRange
    | some true => .inr .found
    | some false => .inr .notFound
  else .inl (.scan 0 0 0 [])

/-- `Has` for a set that may be nil, bounded by a number of rounds. -/
def has (fuel : Nat) (ss : Option DomainSet) (key : GoString) : Option Outcome :=
  match ss with
  | none => some .notFound
  | some ss => ss.run (walkKey key) fuel (ss.initial (walkKey key))

end DomainSet

/-- `Has` ends with an outcome. -/
def HasReturns (ss : Option DomainSet) (key : GoString) (o : Outcome) : Prop :=
  ∃ fuel, DomainSet.has fuel ss key = some o

/-! ### Readings -/

/-- How one way to read a key ends. -/
inductive Reading where
  /-- At a leaf, or at an edge `+`. -/
  | hit
  | miss
  /-- An index is out of range. -/
  | broken
  /-- At the end of the key, on a node that is no leaf and whose end is not in the bitmap. -/
  | dangling
deriving DecidableEq

/-- What the readings come to, where `o` is the outcome of what is still on the stack. The end
of a node is looked up only if there is something else to try. -/
def resolve (pending : Bool) : List Reading → Outcome → Outcome
  | [], o => o
  | .hit :: _, _ => .found
  | .miss :: rs, o => resolve pending rs o
  | .broken :: _, _ => .outOfRange
  | .dangling :: rs, o => if pending || rs ≠ [] then .outOfRange else o

/-- What all readings of a key come to. -/
def verdict (rs : List Reading) : Outcome := resolve false rs .notFound

/-- The part of a node from some bit on: the labels, and whether they end with a one. -/
def blockLabels : List Bool → List UInt8 → List UInt8 × Bool
  | true :: _, _ => ([], true)
  | [], _ => ([], false)
  | false :: _, [] => ([], false)
  | false :: bits, l :: labels => ((l :: (blockLabels bits labels).1), (blockLabels bits labels).2)

/-- The children of a node: the id of the first, the labels, and whether the node has an end. -/
structure Block where
  first : Nat
  labels : List UInt8
  closed : Bool

/-- The readings at a node for the byte `c`, from the child `id` on: `static` are those through
an edge `c`, `jump` those through an edge `*`, which come last. -/
def scanBlock (c : UInt8) (closed : Bool) (static jump : Nat → List Reading) :
    Nat → List UInt8 → List Reading
  | _, [] => [if closed then .miss else .broken]
  | id, l :: labels =>
    if l = complexWildcardByte then [.hit]
    else if l = wildcardByte then scanBlock c closed static jump (id + 1) labels ++ jump id
    else if c = l then static id
    else scanBlock c closed static jump (id + 1) labels

/-- The readings through the edge `.` of a node, from the child `id` on. -/
def stepBlock (closed : Bool) (static : Nat → List Reading) : Nat → List UInt8 → List Reading
  | _, [] => [if closed then .miss else .broken]
  | id, l :: labels =>
    if l = domainStepByte then static id else stepBlock closed static (id + 1) labels

namespace DomainSet

variable (ss : DomainSet) (w : GoString)

/-- The bits of the label bitmap. -/
def bits : List Bool := bitsOf ss.labelBitmap

def blockAt (nodeId bmIdx : Nat) : Block where
  first := bmIdx - nodeId + 1
  labels := (blockLabels (ss.bits.drop bmIdx) (ss.labels.drop (bmIdx - nodeId))).1
  closed := (blockLabels (ss.bits.drop bmIdx) (ss.labels.drop (bmIdx - nodeId))).2

/-- The children of a node; none if the node has no beginning. -/
def block (nodeId : Nat) : Option Block :=
  if nodeId = 0 then some (ss.blockAt 0 0)
  else (selectIthOne ss.labelBitmap (nodeId - 1)).map fun p => ss.blockAt nodeId (p + 1)

/-- The reading that ends at a node after `*` has taken the rest of the key. -/
def leafReading (nodeId : Nat) : Reading :=
  match getBit ss.leaves nodeId with
  | none => .broken
  | some true => .hit
  | some false => .miss

/-- The reading that ends at a node with the last byte of the key. -/
def endReading (nodeId : Nat) : Reading :=
  match getBit ss.leaves nodeId with
  | none => .broken
  | some true => .hit
  | some false => if (selectIthOne ss.labelBitmap nodeId).isSome then .miss else .dangling

/-- The readings through the edge `.` of a node. -/
def stepTo (static : Nat → List Reading) (nodeId : Nat) : List Reading :=
  match ss.block nodeId with
  | none => [.broken]
  | some b => stepBlock b.closed static b.first b.labels

mutual

/-- The readings of the rest of a key from a node. -/
def arrive : Nat → GoString → List Reading
  | nodeId, [] => [ss.endReading nodeId]
  | nodeId, c :: w =>
    match ss.block nodeId with
    | none => [.broken]
    | some b =>
      scanBlock c b.closed (fun id => arrive id w)
        (fun id => if c = domainStepByte then ss.stepTo (fun id => arrive id w) id else jump id w)
        b.first b.labels

/-- The readings of the rest of a key from a node that a `*` has led to: `*` takes the label. -/
def jump : Nat → GoString → List Reading
  | nodeId, [] => [ss.leafReading nodeId]
  | nodeId, c :: w =>
    if c = domainStepByte then ss.stepTo (fun id => arrive id w) nodeId else jump nodeId w

end

theorem jump_eq (nodeId : Nat) (u : GoString) :
    ss.jump nodeId u =
      match u.dropWhile (· ≠ domainStepByte) with
      | [] => [ss.leafReading nodeId]
      | _ :: rest => ss.stepTo (fun id => ss.arrive id rest) nodeId := by
  induction u with
  | nil => simp [jump]
  | cons c u ih =>
    rw [jump, dropWhile_cons]
    by_cases hc : c = domainStepByte
    · simp [hc]
    · simp [hc, ih]

theorem arrive_cons (nodeId : Nat) (c : UInt8) (u : GoString) :
    ss.arrive nodeId (c :: u) =
      match ss.block nodeId with
      | none => [.broken]
      | some b =>
        scanBlock c b.closed (fun id => ss.arrive id u) (fun id => ss.jump id (c :: u))
          b.first b.labels := by
  rw [arrive]
  congr 1

end DomainSet

variable {closed : Bool} {static : Nat → List Reading} {key : GoString} {o : Outcome}

theorem scanBlock_ne_nil {c : UInt8} {jump : Nat → List Reading}
    (hstatic : ∀ id, static id ≠ []) (id : Nat) (labels : List UInt8) :
    scanBlock c closed static jump id labels ≠ [] := by
  induction labels generalizing id with
  | nil => simp [scanBlock]
  | cons l labels ih =>
    unfold scanBlock
    split
    · simp
    · split
      · exact append_ne_nil_of_left_ne_nil (ih _) _
      · split
        · exact hstatic id
        · exact ih _

theorem stepBlock_ne_nil (hstatic : ∀ id, static id ≠ []) (id : Nat) (labels : List UInt8) :
    stepBlock closed static id labels ≠ [] := by
  induction labels generalizing id with
  | nil => simp [stepBlock]
  | cons l labels ih =>
    unfold stepBlock
    split
    · exact hstatic id
    · exact ih _

theorem resolve_append {pending : Bool} {rs js : List Reading} (hjs : js ≠ []) (o : Outcome) :
    resolve pending (rs ++ js) o = resolve true rs (resolve pending js o) := by
  induction rs with
  | nil => rfl
  | cons r rs ih =>
    cases r with
    | hit => rfl
    | miss => exact ih
    | broken => rfl
    | dangling => simp [resolve, hjs]

/-- With nothing else to try, the end of the last node is not looked up. -/
theorem resolve_end (closed : Bool) (o : Outcome) :
    resolve false [if closed then .miss else .dangling] o = o := by
  cases closed <;> rfl

namespace DomainSet

variable (ss : DomainSet) {w : GoString}

theorem arrive_ne_nil (u : GoString) (nodeId : Nat) : ss.arrive nodeId u ≠ [] := by
  induction u generalizing nodeId with
  | nil => simp [arrive]
  | cons c u ih =>
    rw [arrive_cons]
    split
    · simp
    · exact scanBlock_ne_nil ih _ _

variable {static : Nat → List Reading} {o : Outcome} {bmIdx nodeId p i : Nat} {rest : List Bool}
  {stack : List WildcardCursor}

theorem stepTo_ne_nil (hstatic : ∀ id, static id ≠ [])
    (nodeId : Nat) : ss.stepTo static nodeId ≠ [] := by
  unfold stepTo
  split
  · simp
  · exact stepBlock_ne_nil hstatic _ _

theorem jump_ne_nil (u : GoString) (nodeId : Nat) : ss.jump nodeId u ≠ [] := by
  rw [jump_eq]
  split
  · simp
  · exact ss.stepTo_ne_nil (ss.arrive_ne_nil _) nodeId

/-! ### The machine follows the readings -/

/-- The machine ends with an outcome. -/
def Reaches (w : GoString) (s : Walk ⊕ Outcome) (o : Outcome) : Prop :=
  ∃ fuel, ss.run w fuel s = some o

variable {ss}

theorem Reaches.done (o : Outcome) : ss.Reaches w (.inr o) o := ⟨0, by simp [run]⟩

theorem Reaches.head {s : Walk} (h : ss.Reaches w (ss.step w s) o) : ss.Reaches w (.inl s) o := by
  obtain ⟨fuel, hfuel⟩ := h
  exact ⟨fuel + 1, hfuel⟩

theorem Reaches.eq_of_inr {o' : Outcome} (h : ss.Reaches w (.inr o) o') : o' = o := by
  obtain ⟨fuel, hfuel⟩ := h
  cases fuel <;> simpa [run, eq_comm] using hfuel

theorem Reaches.eq_of_pop_nil (h : ss.Reaches w (.inl (.pop [])) o) : o = .notFound := by
  obtain ⟨_ | fuel, hfuel⟩ := h
  · simp [run] at hfuel
  · exact Reaches.eq_of_inr ⟨fuel, hfuel⟩

/-- A cursor that the walk can come back to: a zero of the bitmap before its last bit. -/
def Cursor (ss : DomainSet) (cursor : WildcardCursor) : Prop :=
  ss.bits[cursor.bmIdx]? = some false ∧ cursor.bmIdx + 1 < ss.bits.length

theorem label_eq (h : nodeId ≤ bmIdx) :
    ss.label bmIdx nodeId = (ss.labels.drop (bmIdx - nodeId)).head? := by
  rw [label, if_pos h, head?_drop]

theorem drop_succ_of_cons {α : Type*} {l rest : List α} {a : α}
    (h : l.drop p = a :: rest) : l.drop (p + 1) = rest := by
  rw [← drop_drop, h]
  rfl

theorem drop_length_takeWhile {α : Type*} (f : α → Bool) (l : List α) :
    l.drop (l.takeWhile f).length = l.dropWhile f :=
  (congrArg (drop _) takeWhile_append_dropWhile.symm).trans drop_left

theorem getBit_of_drop {b : Bool}
    (h : ss.bits.drop p = b :: rest) : getBit ss.labelBitmap p = some b := by
  rw [getBit_eq]
  change ss.bits[p]? = some b
  rw [← head?_drop, h]
  rfl

theorem getBit_of_drop_nil (h : ss.bits.drop p = []) : getBit ss.labelBitmap p = none := by
  rw [getBit_eq]
  exact getElem?_eq_none (drop_eq_nil_iff.mp h)

theorem lt_length_of_drop {α : Type*} {l rest : List α} {a : α}
    (h : l.drop p = a :: rest) : p < l.length := by
  by_contra hle
  rw [drop_eq_nil_of_le (Nat.le_of_not_lt hle)] at h
  cases h

theorem rank_succ_of_false {n : Nat} (h : ss.bits.drop p = false :: rest)
    (hrank : rank ss.bits p = n) : rank ss.bits (p + 1) = n := by
  rw [rank_succ (b := false), hrank]
  · rfl
  · rw [← head?_drop, h]
    rfl

/-- A node from a zero on is the label of the zero and the node from the next bit on. -/
theorem blockAt_of_label {l : UInt8} {ls : List UInt8}
    (hle : nodeId ≤ bmIdx) (hbits : ss.bits.drop bmIdx = false :: rest)
    (hlabels : ss.labels.drop (bmIdx - nodeId) = l :: ls) :
    (ss.blockAt nodeId bmIdx).labels = l :: (ss.blockAt nodeId (bmIdx + 1)).labels ∧
      (ss.blockAt nodeId bmIdx).closed = (ss.blockAt nodeId (bmIdx + 1)).closed ∧
      (ss.blockAt nodeId bmIdx).first + 1 = (ss.blockAt nodeId (bmIdx + 1)).first := by
  have hnext : bmIdx + 1 - nodeId = bmIdx - nodeId + 1 := by omega
  simp only [blockAt, hnext, hbits, hlabels, drop_succ_of_cons hbits, drop_succ_of_cons hlabels,
    blockLabels]
  exact ⟨trivial, trivial, trivial⟩

/-- Behind an edge for the byte `i` the walk follows the readings `static`, and then what is on
the stack. -/
def FollowsEdge (ss : DomainSet) (w : GoString) (i : Nat) (static : Nat → List Reading) : Prop :=
  ∀ id stack o, 1 ≤ id → (∀ cursor ∈ stack, ss.Cursor cursor) →
    ss.Reaches w (.inl (.pop stack)) o →
    ss.Reaches w (ss.enter w id i stack) (resolve (stack ≠ []) (static id) o)

/-- Back at an edge `*` that was met at the byte `i` the walk follows the readings `jump`. -/
def FollowsJump (ss : DomainSet) (w : GoString) (i : Nat) (jump : Nat → List Reading) : Prop :=
  ∀ bmIdx stack o, ss.Cursor ⟨bmIdx, i⟩ → (∀ cursor ∈ stack, ss.Cursor cursor) →
    ss.Reaches w (.inl (.pop stack)) o →
    ss.Reaches w (.inl (.pop (⟨bmIdx, i⟩ :: stack)))
      (resolve (stack ≠ []) (jump (bmIdx - rank ss.bits bmIdx + 1)) o)

/-- The loop over the labels of a node. The stack is good unless the bitmap has been left. -/
theorem reaches_scan {c : UInt8} (hc : w[i]? = some c)
    {jump : Nat → List Reading} (hjump : ∀ id, jump id ≠ [])
    (henter : ss.FollowsEdge w i static) (hback : ss.FollowsJump w i jump) (rest : List Bool)
    (hrest : ss.bits.drop bmIdx = rest) (hrank : rank ss.bits bmIdx = nodeId)
    (hgood : bmIdx < ss.bits.length → ∀ cursor ∈ stack, ss.Cursor cursor)
    (ho : (∀ cursor ∈ stack, ss.Cursor cursor) → ss.Reaches w (.inl (.pop stack)) o) :
    ss.Reaches w (.inl (.scan nodeId bmIdx i stack)) (resolve (stack ≠ [])
        (scanBlock c (ss.blockAt nodeId bmIdx).closed static jump (ss.blockAt nodeId bmIdx).first
          (ss.blockAt nodeId bmIdx).labels) o) := by
  induction rest generalizing bmIdx stack o with
  | nil =>
    -- the bitmap is left
    have hbit := getBit_of_drop_nil hrest
    refine .head ?_
    simp only [step, hbit, blockAt, hrest, blockLabels, scanBlock]
    exact .done _
  | cons b rest ih =>
    have hbit := getBit_of_drop hrest
    have hlt := lt_length_of_drop hrest
    have hle : nodeId ≤ bmIdx := hrank ▸ rank_le ss.bits bmIdx
    cases b with
    | true =>
      refine .head ?_
      simp only [step, hbit, blockAt, hrest, blockLabels, scanBlock]
      exact ho (hgood hlt)
    | false =>
      cases hlabels : ss.labels.drop (bmIdx - nodeId) with
      | nil =>
        refine .head ?_
        simp only [step, hbit, label_eq hle, hlabels, blockAt, hrest, blockLabels, scanBlock]
        exact .done _
      | cons l ls =>
        obtain ⟨hls, hclosed, hfirst⟩ := blockAt_of_label hle hrest hlabels
        have hrank' := rank_succ_of_false hrest hrank
        have hrest' := drop_succ_of_cons hrest
        rw [hls, hclosed]
        refine .head ?_
        simp only [step, hbit, label_eq hle, hlabels, head?_cons, scanBlock, hfirst, hc,
          Option.some.injEq]
        split
        · exact .done _
        split
        · -- the cursor goes onto the stack and is tried after the rest of the node
          rw [resolve_append (hjump _)]
          have hfree : ss.bits[bmIdx]? = some false := by rw [← head?_drop, hrest]; rfl
          have := @ih (resolve (stack ≠ []) (jump (ss.blockAt nodeId bmIdx).first) o)
            (bmIdx + 1) (⟨bmIdx, i⟩ :: stack) hrest' hrank'
            (fun hlt' => forall_mem_cons.mpr ⟨⟨hfree, hlt'⟩, hgood hlt⟩) (fun hall => by
              obtain ⟨hcur, hstack⟩ := forall_mem_cons.mp hall
              have hb := hback bmIdx stack o hcur hstack (ho hstack)
              rwa [hrank] at hb)
          simpa using this
        split
        · exact henter _ stack o (by omega) (hgood hlt) (ho (hgood hlt))
        · exact ih hrest' hrank' (fun _ => hgood hlt) ho

/-- The loop that looks for the edge `.` after a `*`. -/
theorem reaches_dot {j : Nat} (hj : w[j]? = some domainStepByte)
    (henter : ss.FollowsEdge w j static)
    (hgood : ∀ cursor ∈ stack, ss.Cursor cursor) (ho : ss.Reaches w (.inl (.pop stack)) o)
    (rest : List Bool) (hrest : ss.bits.drop bmIdx = rest) (hrank : rank ss.bits bmIdx = nodeId) :
    ss.Reaches w (.inl (.dot nodeId bmIdx j stack)) (resolve (stack ≠ [])
        (stepBlock (ss.blockAt nodeId bmIdx).closed static (ss.blockAt nodeId bmIdx).first
          (ss.blockAt nodeId bmIdx).labels) o) := by
  induction rest generalizing bmIdx with
  | nil =>
    have hbit := getBit_of_drop_nil hrest
    refine .head ?_
    simp only [step, hbit, blockAt, hrest, blockLabels, stepBlock]
    exact .done _
  | cons b rest ih =>
    have hbit := getBit_of_drop hrest
    have hle : nodeId ≤ bmIdx := hrank ▸ rank_le ss.bits bmIdx
    cases b with
    | true =>
      refine .head ?_
      simp only [step, hbit, blockAt, hrest, blockLabels, stepBlock]
      exact ho
    | false =>
      cases hlabels : ss.labels.drop (bmIdx - nodeId) with
      | nil =>
        refine .head ?_
        simp only [step, hbit, label_eq hle, hlabels, blockAt, hrest, blockLabels, stepBlock]
        exact .done _
      | cons l ls =>
        obtain ⟨hls, hclosed, hfirst⟩ := blockAt_of_label hle hrest hlabels
        rw [hls, hclosed]
        refine .head ?_
        simp only [step, hbit, label_eq hle, hlabels, head?_cons, stepBlock, hfirst]
        split
        · -- the loop over the labels finds the edge at once
          rename_i hl
          refine .head ?_
          simp only [step, hbit, label_eq hle, hlabels, head?_cons, hl, hj]
          exact henter _ stack o (by omega) hgood ho
        · exact ih (drop_succ_of_cons hrest) (rank_succ_of_false hrest hrank)

/-- The walk back to a `*`, when all edges behind it are followed. -/
theorem followsJump (hi : i ≤ w.length) (henter : ∀ j, i ≤ j → j < w.length →
      ss.FollowsEdge w j fun id => ss.arrive id (w.drop (j + 1))) :
    ss.FollowsJump w i fun id => ss.jump id (w.drop i) := by
  intro bmIdx stack o hcursor hgood ho
  have hzeros : countZeros ss.labelBitmap (bmIdx + 1) =
      some (bmIdx - rank ss.bits bmIdx + 1) := by
    have hlt := hcursor.2
    have hrank : rank ss.bits (bmIdx + 1) = rank ss.bits bmIdx := by
      rw [rank_succ hcursor.1]
      rfl
    have hle := rank_le ss.bits bmIdx
    rw [bits, length_bitsOf] at hlt
    rw [countZeros, if_pos (by dsimp only at hlt; omega)]
    change some (bmIdx + 1 - rank ss.bits (bmIdx + 1)) = _
    rw [hrank]
    congr 1
    omega
  have hsplit : w.drop (skipLabel w i) = (w.drop i).dropWhile (· ≠ domainStepByte) := by
    rw [skipLabel, ← drop_drop, drop_length_takeWhile]
  have hend : skipLabel w i ≤ w.length := by
    have := (takeWhile_sublist (· ≠ domainStepByte) (l := w.drop i)).length_le
    rw [length_drop] at this
    rw [skipLabel]
    omega
  refine .head ?_
  simp only [step, hzeros, jump_eq]
  cases hrest : (w.drop i).dropWhile (· ≠ domainStepByte) with
  | nil =>
    -- `*` takes the rest of the key
    have hlen : skipLabel w i = w.length := by
      rw [hrest, drop_eq_nil_iff] at hsplit
      omega
    simp only [hlen, if_true, leafReading]
    cases getBit ss.leaves (bmIdx - rank ss.bits bmIdx + 1) with
    | none => exact .done _
    | some leaf =>
      cases leaf with
      | true => exact .done _
      | false => exact ho
  | cons d rest =>
    rw [hrest] at hsplit
    have hlt := lt_length_of_drop hsplit
    have hd : d = domainStepByte := by
      have := head?_dropWhile_not (· ≠ domainStepByte) (w.drop i)
      rw [hrest] at this
      simpa using this
    have hj : w[skipLabel w i]? = some domainStepByte := by
      rw [← head?_drop, hsplit, hd]
      rfl
    have hedge := henter (skipLabel w i) (Nat.le_add_right _ _) hlt
    rw [drop_succ_of_cons hsplit] at hedge
    simp only [ne_of_lt hlt, if_false, stepTo, block, Nat.succ_ne_zero]
    cases hselect : selectIthOne ss.labelBitmap (bmIdx - rank ss.bits bmIdx + 1 - 1) with
    | none => exact .done _
    | some p => exact reaches_dot hj hedge hgood ho _ rfl (rank_of_select hselect)

/-- The walk behind an edge, by induction on what is left of the key. -/
theorem followsEdge (u : GoString) (hi : i < w.length) (hu : w.drop (i + 1) = u) :
    ss.FollowsEdge w i fun id => ss.arrive id u := by
  induction hn : u.length using Nat.strong_induction_on generalizing u i with
  | _ n ih =>
    intro id stack o hid hgood ho
    cases u with
    | nil =>
      have hlast : i + 1 = w.length := by
        have := drop_eq_nil_iff.mp hu
        omega
      simp only [enter, if_pos hlast, arrive, endReading]
      cases hleaf : getBit ss.leaves id with
      | none => exact .done _
      | some leaf =>
        cases leaf with
        | true => exact .done _
        | false =>
          cases stack with
          | nil =>
            rw [ho.eq_of_pop_nil, if_pos rfl]
            change ss.Reaches w _ (resolve false _ _)
            rw [resolve_end]
            exact .done _
          | cons cursor stack =>
            cases hselect : selectIthOne ss.labelBitmap id with
            | none => exact .done _
            | some p =>
              -- the end of the node sends the walk to the stack
              have hbit : getBit ss.labelBitmap p = some true := by
                rw [getBit_eq]
                exact (select_eq_some_iff.mp hselect).1
              refine .head ?_
              simp only [step, hbit]
              exact ho
    | cons c u =>
      have hlt := lt_length_of_drop hu
      have hc : w[i + 1]? = some c := by
        rw [← head?_drop, hu]
        rfl
      have hlen : ∀ j, i + 1 ≤ j → (w.drop (j + 1)).length < n := by
        intro j hj
        have := congrArg List.length hu
        rw [length_drop] at this ⊢
        omega
      have hedge : ∀ j, i + 1 ≤ j → j < w.length →
          ss.FollowsEdge w j fun id => ss.arrive id (w.drop (j + 1)) :=
        fun j hj hlt => ih _ (hlen j hj) _ hlt rfl rfl
      have hjump := followsJump (le_of_lt hlt) hedge
      have hnext := hedge (i + 1) (le_refl _) hlt
      rw [drop_succ_of_cons hu] at hnext
      rw [hu] at hjump
      simp only [enter, if_neg (ne_of_lt hlt), arrive_cons, block, if_neg (Nat.ne_of_gt hid)]
      cases hselect : selectIthOne ss.labelBitmap (id - 1) with
      | none => exact .done _
      | some p =>
        have hrank := rank_of_select hselect
        rw [Nat.sub_add_cancel hid] at hrank
        exact reaches_scan hc (ss.jump_ne_nil _) hnext hjump _ rfl hrank (fun _ => hgood)
          fun _ => ho

/-- `Has` returns for every set and key, with the verdict of the readings of the key. -/
theorem returns_verdict (ss : DomainSet) (key : GoString) :
    HasReturns (some ss) key (verdict (ss.arrive 0 (walkKey key))) := by
  suffices h : ∀ w, ss.Reaches w (ss.initial w) (verdict (ss.arrive 0 w)) from h (walkKey key)
  intro w
  cases w with
  | nil =>
    simp only [initial, if_true, arrive, endReading]
    cases getBit ss.leaves 0 with
    | none => exact .done _
    | some leaf =>
      cases leaf with
      | true => exact .done _
      | false =>
        rw [verdict, resolve_end]
        exact .done _
  | cons c u =>
    have hedge : ∀ j, 0 ≤ j → j < (c :: u).length →
        ss.FollowsEdge (c :: u) j fun id => ss.arrive id ((c :: u).drop (j + 1)) :=
      fun j _ hlt => followsEdge _ hlt rfl
    rw [arrive_cons]
    exact reaches_scan rfl (ss.jump_ne_nil _) (hedge 0 (Nat.le_refl _) (Nat.zero_lt_succ _))
      (followsJump (Nat.zero_le _) hedge) _ rfl (rank_zero _) (fun _ _ h => by cases h)
      fun _ => .head (.done _)

theorem run_succ (fuel : Nat) (s : Walk ⊕ Outcome)
    (h : ss.run w fuel s = some o) : ss.run w (fuel + 1) s = some o := by
  induction fuel generalizing s with
  | zero => cases s <;> simp_all [run]
  | succ fuel ih =>
    cases s with
    | inl s => exact ih _ h
    | inr o' => simpa [run] using h

theorem run_mono {fuel fuel' : Nat} (hle : fuel ≤ fuel') {s : Walk ⊕ Outcome}
    (h : ss.run w fuel s = some o) : ss.run w fuel' s = some o := by
  induction hle with
  | refl => exact h
  | step _ ih => exact run_succ _ s ih

end DomainSet

/-- `Has` ends in one way only. -/
theorem HasReturns.unique {ss : Option DomainSet} {o' : Outcome}
    (h : HasReturns ss key o) (h' : HasReturns ss key o') : o = o' := by
  obtain ⟨fuel, hfuel⟩ := h
  obtain ⟨fuel', hfuel'⟩ := h'
  cases ss with
  | none => exact Option.some.inj (hfuel.symm.trans hfuel')
  | some ss =>
    have h₁ := DomainSet.run_mono (le_max_left fuel fuel') hfuel
    have h₂ := DomainSet.run_mono (le_max_right fuel fuel') hfuel'
    exact Option.some.inj (h₁.symm.trans h₂)

/-- What `Has` returns on a set. -/
theorem hasReturns_iff {ss : DomainSet} :
    HasReturns (some ss) key o ↔ verdict (ss.arrive 0 (walkKey key)) = o :=
  ⟨(DomainSet.returns_verdict ss key).unique, fun h => h ▸ DomainSet.returns_verdict ss key⟩

end Hako.Trie
