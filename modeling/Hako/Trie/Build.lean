import Hako.Lib.Louds
import Hako.Trie.DomainSet

/-!
# Building a domain set

`buildDomainSet` sorts the keys, drops the repeated ones and goes through the tree of their
prefixes level by level, filling the bitmaps and the labels as it goes. A place of the queue is
a range of the sorted keys and a column; it stands here for the prefix that these keys share up
to the column and for what follows in each of them. What comes out is the level-order form of
the tree.
-/

namespace Hako.Trie

open GoLib Lib List Option Nat

/-! ### The construction -/

/-- `slices.Compact` -/
def compact : List GoString → List GoString
  | [] => []
  | key :: keys =>
    match compact keys with
    | [] => [key]
    | next :: keys => if key = next then next :: keys else key :: next :: keys

/-- `sort.Strings` and `slices.Compact` -/
def sortedKeys (keys : List GoString) : List GoString := compact (keys.insertionSort (· ≤ ·))

/-- `qElt`: the keys of a range, read up to a column. -/
structure QElt where
  /-- What the keys have in common up to the column. -/
  path : GoString
  /-- What follows in each of them. -/
  rests : List GoString

/-- The ranges of keys with the same byte in the column; none if a key has none there. -/
def runs : List GoString → Option (List (UInt8 × List GoString))
  | [] => some []
  | [] :: _ => none
  | (b :: rest) :: rests =>
    match runs rests with
    | none => none
    | some [] => some [(b, [rest])]
    | some ((b', group) :: groups) =>
      if b = b' then some ((b', rest :: group) :: groups)
      else some ((b, [rest]) :: (b', group) :: groups)

/-- The variables of the construction. -/
structure Building where
  ss : DomainSet
  lIdx : Nat
  nodeID : Nat
  next : List QElt
  /-- The calls of `onTerminal`. -/
  terminals : List GoString

namespace QElt

/-- The first key ends in the column. -/
def isLeaf (elt : QElt) : Bool := elt.rests.head? = some []

/-- The keys that go on. -/
def unread (elt : QElt) : List GoString := if elt.isLeaf then elt.rests.tail else elt.rests

end QElt

namespace Building

/-- A range of keys with the byte `group.1` becomes a child. -/
def addEdge (path : GoString) (st : Building) (group : UInt8 × List GoString) : Building where
  ss :=
    { st.ss with
      labels := st.ss.labels ++ [group.1]
      labelBitmap := setBit st.ss.labelBitmap st.lIdx 0 }
  lIdx := st.lIdx + 1
  nodeID := st.nodeID
  next := st.next ++ [⟨path ++ [group.1], group.2⟩]
  terminals := st.terminals

/-- A key that ends in the column makes a leaf. -/
def addLeaf (st : Building) (elt : QElt) : Building :=
  if elt.isLeaf then
    { st with
      terminals := st.terminals ++ [elt.path]
      ss := { st.ss with leaves := setBit st.ss.leaves st.nodeID 1 } }
  else st

/-- The end of a node. -/
def endNode (st : Building) : Building :=
  { st with
    ss := { st.ss with labelBitmap := setBit st.ss.labelBitmap st.lIdx 1 }
    lIdx := st.lIdx + 1
    nodeID := st.nodeID + 1 }

/-- One place of the queue. -/
def visit (st : Building) (elt : QElt) : Option Building :=
  (runs elt.unread).map fun groups =>
    (groups.foldl (addEdge elt.path) (st.addLeaf elt)).endNode

/-- The loop over the columns, bounded by a number of rounds. -/
def levelLoop : Nat → List QElt → Building → Option Building
  | _, [], st => some st
  | 0, _ :: _, _ => none
  | fuel + 1, queue, st =>
    (queue.foldlM visit { st with next := [] }).bind fun st => levelLoop fuel st.next st

end Building

/-- A bound on the columns. -/
def longest (keys : List GoString) : Nat := (keys.map length).foldr max 0

/-- The set of the keys, nil if there are none, and the calls of `onTerminal`; none if an index
is out of range. -/
def buildDomainSet (keys : List GoString) : Option (Option DomainSet × List GoString) :=
  if keys = [] then some (none, [])
  else
    let keys := sortedKeys keys
    (Building.levelLoop (longest keys + 1) [⟨[], keys⟩] ⟨⟨[], [], []⟩, 0, 0, [], []⟩).map
      fun st => (some st.ss, st.terminals)

/-- `DomainSetBuilder` -/
structure DomainSetBuilder where
  keys : List GoString

namespace DomainSetBuilder

def insertParts (b : DomainSetBuilder) (parts : List GoString) : DomainSetBuilder :=
  let parts := if parts.head? = some dotWildcard then complexWildcard :: parts.tail else parts
  ⟨b.keys ++ [reverse (join domainStepByte parts)]⟩

def insert (b : DomainSetBuilder) (domain : GoString) : Except InvalidDomain DomainSetBuilder :=
  match validAndSplitDomain domain with
  | .error e => .error e
  | .ok parts =>
    if parts.head? = some complexWildcard then
      .ok ((b.insertParts parts.tail).insertParts parts)
    else .ok (b.insertParts parts)

def build (b : DomainSetBuilder) : Option (Option DomainSet) := (buildDomainSet b.keys).map Prod.fst

end DomainSetBuilder

/-! ### Sorted keys -/

variable {key : GoString} {keys rests : List GoString} {c : UInt8}

theorem mem_compact : key ∈ compact keys ↔ key ∈ keys := by
  induction keys with
  | nil => rfl
  | cons k keys ih =>
    rw [compact, mem_cons, ← ih]
    cases hc : compact keys with
    | nil => simp
    | cons next rest =>
      dsimp only
      split
      · rename_i h
        simp [h]
      · simp

theorem pairwise_compact (h : keys.Pairwise (· ≤ ·)) : (compact keys).Pairwise (· < ·) := by
  induction h with
  | nil => exact .nil
  | @cons k keys hk _ ih =>
    rw [compact]
    cases hc : compact keys with
    | nil => simp
    | cons next rest =>
      dsimp only
      rw [hc] at ih
      split
      · exact ih
      · rename_i hne
        have hnext : k ≤ next := hk next (mem_compact.mp (by rw [hc]; exact mem_cons_self))
        have hlt : k < next := Std.lt_of_le_of_ne hnext hne
        exact pairwise_cons.mpr ⟨forall_mem_cons.mpr ⟨hlt, fun key hkey =>
          Std.lt_trans hlt ((pairwise_cons.mp ih).1 key hkey)⟩, ih⟩

theorem mem_sortedKeys : key ∈ sortedKeys keys ↔ key ∈ keys := by
  rw [sortedKeys, mem_compact, mem_insertionSort]

theorem pairwise_sortedKeys (keys : List GoString) : (sortedKeys keys).Pairwise (· < ·) :=
  pairwise_compact (pairwise_insertionSort _ keys)

/-! ### The tree of prefixes -/

/-- What follows the byte `c` in the keys that go on with it. -/
def tails (c : UInt8) (rests : List GoString) : List GoString :=
  rests.filterMap fun
    | [] => none
    | b :: rest => if b = c then some rest else none

theorem mem_tails {rest : GoString} : rest ∈ tails c rests ↔ c :: rest ∈ rests := by
  rw [tails, mem_filterMap]
  constructor
  · rintro ⟨key, hkey, h⟩
    cases key with
    | nil => cases h
    | cons b r =>
      rw [ite_none_right_eq_some] at h
      obtain ⟨rfl, h⟩ := h
      cases h
      exact hkey
  · intro h
    exact ⟨_, h, if_pos rfl⟩

theorem tails_cons_self (c : UInt8) (rest : GoString) (rests : List GoString) :
    tails c ((c :: rest) :: rests) = rest :: tails c rests :=
  filterMap_cons_some (if_pos rfl)

theorem tails_cons_of_ne {b : UInt8} (h : b ≠ c) (rest : GoString) (rests : List GoString) :
    tails c ((b :: rest) :: rests) = tails c rests :=
  filterMap_cons_none (if_neg h)

theorem tails_eq_nil (h : ∀ rest, c :: rest ∉ rests) : tails c rests = [] :=
  eq_nil_iff_forall_not_mem.mpr fun rest hrest => h rest (mem_tails.mp hrest)

theorem pairwise_tails (c : UInt8) (h : rests.Pairwise (· < ·)) :
    (tails c rests).Pairwise (· < ·) := by
  refine Pairwise.filterMap _ ?_ h
  intro key key' hlt rest hrest rest' hrest'
  cases key with
  | nil => cases hrest
  | cons b r =>
    cases key' with
    | nil => cases hrest'
    | cons b' r' =>
      simp only [ite_none_right_eq_some, some.injEq] at hrest hrest'
      obtain ⟨rfl, rfl⟩ := hrest
      obtain ⟨rfl, rfl⟩ := hrest'
      exact (cons_lt_cons_self).mp hlt

theorem runs_mem {groups : List (UInt8 × List GoString)} (h : runs rests = some groups) :
    ∀ g ∈ groups, g.2 ≠ [] ∧ ∀ rest ∈ g.2, g.1 :: rest ∈ rests := by
  induction rests generalizing groups with
  | nil =>
    cases h
    simp
  | cons key rests ih =>
    cases key with
    | nil => cases h
    | cons b rest =>
      have hlater : ∀ {gs}, runs rests = some gs → ∀ g ∈ gs,
          g.2 ≠ [] ∧ ∀ r ∈ g.2, g.1 :: r ∈ (b :: rest) :: rests :=
        fun hgs g hg => ⟨(ih hgs g hg).1, fun r hr => mem_cons_of_mem _ ((ih hgs g hg).2 r hr)⟩
      cases hruns : runs rests with
      | none => simp [runs, hruns] at h
      | some gs =>
        cases gs with
        | nil =>
          simp only [runs, hruns, some.injEq] at h
          simp [← h]
        | cons g gs =>
          obtain ⟨hg, hgs⟩ := forall_mem_cons.mp (hlater hruns)
          simp only [runs, hruns] at h
          split at h
          · rename_i hb
            obtain rfl := some.inj h
            refine forall_mem_cons.mpr ⟨⟨by simp, ?_⟩, hgs⟩
            exact forall_mem_cons.mpr ⟨hb ▸ mem_cons_self, hg.2⟩
          · obtain rfl := some.inj h
            exact forall_mem_cons.mpr ⟨⟨by simp, by simp⟩, hlater hruns⟩

/-- The ranges of sorted keys: one for each byte, in ascending order. -/
theorem runs_sorted (h : rests.Pairwise (· < ·)) (hne : [] ∉ rests) :
    ∃ groups, runs rests = some groups ∧ (groups.map Prod.fst).Pairwise (· < ·) ∧
      (∀ g ∈ groups, g.2 = tails g.1 rests) ∧
      ∀ c, c ∈ groups.map Prod.fst ↔ ∃ rest, c :: rest ∈ rests := by
  induction h with
  | nil => exact ⟨[], rfl, .nil, by simp, by simp⟩
  | @cons key rests hkey _ ih =>
    obtain ⟨groups, hruns, hsorted, htails, hmem⟩ := ih fun h => hne (mem_cons_of_mem _ h)
    cases key with
    | nil => exact absurd mem_cons_self hne
    | cons b rest =>
      cases groups with
      | nil =>
        -- no key follows
        have hnil : rests = [] := by
          refine eq_nil_iff_forall_not_mem.mpr fun key hk => ?_
          cases key with
          | nil => exact hne (mem_cons_of_mem _ hk)
          | cons c r => simpa using (hmem c).mpr ⟨r, hk⟩
        subst hnil
        refine ⟨[(b, [rest])], by simp [runs], by simp, by simp [tails], fun c => ?_⟩
        simp [eq_comm]
      | cons g groups =>
        obtain ⟨b', group⟩ := g
        obtain ⟨r, hr⟩ := (hmem b').mp (by simp)
        obtain ⟨hmin, hsorted'⟩ := pairwise_cons.mp hsorted
        obtain ⟨hgroup, htails'⟩ := forall_mem_cons.mp htails
        have hmem' : ∀ c, (∃ r, c :: r ∈ (b :: rest) :: rests) ↔
            c = b ∨ c ∈ b' :: groups.map Prod.fst := by
          intro c
          have := hmem c
          simp only [map_cons] at this
          rw [this]
          simp only [mem_cons, cons.injEq]
          constructor
          · rintro ⟨r, ⟨rfl, -⟩ | hr⟩
            · exact .inl rfl
            · exact .inr ⟨r, hr⟩
          · rintro (rfl | ⟨r, hr⟩)
            · exact ⟨rest, .inl ⟨rfl, rfl⟩⟩
            · exact ⟨r, .inr hr⟩
        by_cases hb : b = b'
        · -- the key joins the first range
          subst hb
          refine ⟨(b, rest :: group) :: groups, by simp [runs, hruns], hsorted, ?_, ?_⟩
          · refine forall_mem_cons.mpr ⟨by rw [tails_cons_self, ← hgroup], fun g hg => ?_⟩
            have hne' : b ≠ g.1 := Std.ne_of_lt (hmin g.1 (mem_map_of_mem hg))
            rw [tails_cons_of_ne hne', ← htails' g hg]
          · intro c
            rw [hmem']
            simp
        · -- the key begins a new range
          have hlt : b < b' := by
            rcases cons_lt_cons_iff.mp (hkey _ hr) with h | h
            · exact h
            · exact absurd h.1 hb
          have hbelow : ∀ c ∈ b' :: groups.map Prod.fst, b < c :=
            forall_mem_cons.mpr ⟨hlt, fun c hc => Std.lt_trans hlt (hmin c hc)⟩
          refine ⟨(b, [rest]) :: (b', group) :: groups, by simp [runs, hruns, hb],
            pairwise_cons.mpr ⟨hbelow, hsorted⟩, ?_, ?_⟩
          · refine forall_mem_cons.mpr ⟨?_, fun g hg => ?_⟩
            · rw [tails_cons_self, tails_eq_nil]
              intro r hr
              exact Std.lt_irrefl (hbelow b ((hmem b).mpr ⟨r, hr⟩))
            · have hlt' := hbelow g.1 (mem_map_of_mem (f := Prod.fst) hg)
              rw [tails_cons_of_ne (Std.ne_of_lt hlt'), ← htails g hg]
          · intro c
            rw [hmem']
            simp

namespace QElt

/-- The children of a node, with their bytes. -/
def edges (elt : QElt) : List (UInt8 × QElt) :=
  ((runs elt.unread).getD []).map fun g => (g.1, ⟨elt.path ++ [g.1], g.2⟩)

/-- The length of the longest rest. -/
def height (elt : QElt) : Nat := longest elt.rests

/-- The rests are sorted, without repetition, and there is one. -/
structure Sorted (elt : QElt) : Prop where
  pairwise : elt.rests.Pairwise (· < ·)
  ne_nil : elt.rests ≠ []

end QElt

theorem length_le_longest (h : key ∈ keys) : key.length ≤ longest keys := by
  induction keys with
  | nil => cases h
  | cons k keys ih =>
    rw [longest, map_cons, foldr_cons]
    rcases mem_cons.mp h with rfl | h
    · exact le_max_left _ _
    · exact le_trans (ih h) (le_max_right _ _)

theorem longest_lt {n : Nat} (hn : 0 < n) (h : ∀ key ∈ keys, key.length < n) :
    longest keys < n := by
  induction keys with
  | nil => exact hn
  | cons k keys ih =>
    obtain ⟨hk, hkeys⟩ := forall_mem_cons.mp h
    exact Nat.max_lt.mpr ⟨hk, ih hkeys⟩

namespace QElt

theorem unread_subset (elt : QElt) : elt.unread ⊆ elt.rests := by
  unfold unread
  split
  · exact (tail_sublist _).subset
  · exact Subset.refl _

/-- Below a node the rests are shorter. -/
theorem height_kids (elt : QElt) : ∀ kid ∈ kids edges elt, kid.height < elt.height := by
  intro kid hkid
  simp only [kids, edges, List.map_map, List.mem_map, Function.comp_apply] at hkid
  obtain ⟨g, hg, rfl⟩ := hkid
  cases hruns : runs elt.unread with
  | none => simp [hruns] at hg
  | some groups =>
    rw [hruns, Option.getD_some] at hg
    obtain ⟨hne, hmem⟩ := runs_mem hruns g hg
    have hlen : ∀ rest ∈ g.2, rest.length < elt.height := fun rest hrest =>
      length_le_longest (elt.unread_subset (hmem rest hrest))
    obtain ⟨rest, hrest⟩ := List.exists_mem_of_ne_nil _ hne
    exact longest_lt (zero_lt_of_lt (hlen rest hrest)) hlen

variable {elt : QElt}

theorem isLeaf_iff (h : elt.Sorted) : elt.isLeaf = true ↔ [] ∈ elt.rests := by
  rw [isLeaf, decide_eq_true_iff]
  constructor
  · exact mem_of_head?
  · intro hmem
    cases hrests : elt.rests with
    | nil => exact absurd hrests h.ne_nil
    | cons rest rests =>
      have hpair := h.pairwise
      rw [hrests] at hmem hpair
      rcases mem_cons.mp hmem with rfl | hmem
      · rfl
      · exact absurd ((pairwise_cons.mp hpair).1 [] hmem) (not_lt_nil _)

theorem pairwise_unread (h : elt.Sorted) : elt.unread.Pairwise (· < ·) := by
  unfold unread
  split
  · exact h.pairwise.sublist (tail_sublist _)
  · exact h.pairwise

theorem mem_unread (h : elt.Sorted) {rest : GoString} :
    rest ∈ elt.unread ↔ rest ≠ [] ∧ rest ∈ elt.rests := by
  unfold unread
  split
  · rename_i hleaf
    cases hrests : elt.rests with
    | nil => exact absurd hrests h.ne_nil
    | cons first rests =>
      have hpair := h.pairwise
      rw [isLeaf, hrests] at hleaf
      obtain rfl : first = [] := by simpa using hleaf
      rw [hrests] at hpair
      rw [tail_cons, mem_cons]
      constructor
      · intro hmem
        refine ⟨fun hnil => ?_, .inr hmem⟩
        rw [hnil] at hmem
        exact absurd ((pairwise_cons.mp hpair).1 [] hmem) (not_lt_nil _)
      · rintro ⟨hne, rfl | hmem⟩
        · exact absurd rfl hne
        · exact hmem
  · rename_i hleaf
    rw [isLeaf_iff h] at hleaf
    constructor
    · intro hmem
      exact ⟨fun hnil => hleaf (hnil ▸ hmem), hmem⟩
    · intro hmem
      exact hmem.2

theorem tails_unread (elt : QElt) (c : UInt8) : tails c elt.unread = tails c elt.rests := by
  unfold unread
  split
  · rename_i hleaf
    cases hrests : elt.rests with
    | nil => rfl
    | cons first rests =>
      rw [isLeaf, hrests] at hleaf
      obtain rfl : first = [] := by simpa using hleaf
      rfl
  · rfl

variable (h : elt.Sorted)
include h

/-- What the ranges of a node are. -/
theorem runs_unread :
    ∃ groups, runs elt.unread = some groups ∧ (groups.map Prod.fst).Pairwise (· < ·) ∧
      (∀ g ∈ groups, g.2 = tails g.1 elt.rests) ∧
      ∀ c, c ∈ groups.map Prod.fst ↔ ∃ rest, c :: rest ∈ elt.rests := by
  obtain ⟨groups, hruns, hsorted, htails, hmem⟩ :=
    runs_sorted (pairwise_unread h) fun hnil => ((mem_unread h).mp hnil).1 rfl
  refine ⟨groups, hruns, hsorted, fun g hg => ?_, fun c => ?_⟩
  · rw [htails g hg, tails_unread]
  · rw [hmem]
    simp [mem_unread h]

/-- The bytes that lead to the children. -/
def bytes (elt : QElt) : List UInt8 := elt.edges.map Prod.fst

/-- The child for a byte. -/
def child (elt : QElt) (c : UInt8) : QElt := ⟨elt.path ++ [c], tails c elt.rests⟩

theorem mem_bytes : c ∈ elt.bytes ↔ ∃ rest, c :: rest ∈ elt.rests := by
  obtain ⟨groups, hruns, -, -, hmem⟩ := runs_unread h
  rw [← hmem, bytes, edges, hruns]
  simp

theorem pairwise_bytes : elt.bytes.Pairwise (· < ·) := by
  obtain ⟨groups, hruns, hsorted, -, -⟩ := runs_unread h
  rw [bytes, edges, hruns, Option.getD_some, List.map_map]
  exact hsorted

/-- The edges of a node, byte by byte. -/
theorem edges_eq : elt.edges = elt.bytes.map fun c => (c, elt.child c) := by
  obtain ⟨groups, hruns, -, htails, -⟩ := runs_unread h
  rw [bytes, edges, hruns]
  simp only [Option.getD_some, List.map_map]
  refine List.map_congr_left fun g hg => ?_
  simp [child, ← htails g hg]

theorem sorted_child (hc : c ∈ elt.bytes) : (elt.child c).Sorted := by
  refine ⟨pairwise_tails c h.pairwise, fun hnil => ?_⟩
  obtain ⟨rest, hrest⟩ := (mem_bytes h).mp hc
  have : rest ∈ (elt.child c).rests := mem_tails.mpr hrest
  rw [hnil] at this
  cases this

theorem sorted_kids : ∀ kid ∈ kids edges elt, kid.Sorted := by
  intro kid hkid
  rw [kids, edges_eq h, List.map_map] at hkid
  obtain ⟨c, hc, rfl⟩ := List.mem_map.mp hkid
  exact sorted_child h hc

end QElt

/-! ### What the construction makes -/

/-- A set is the level-order form of a list of nodes. -/
structure Encodes (ss : DomainSet) (nodes : List QElt) : Prop where
  sorted : ∀ n ∈ nodes, n.Sorted
  order : ∃ root, LevelOrder QElt.edges root nodes
  bits : ∃ k, ss.bits = loudsBits QElt.edges nodes ++ replicate k false
  labels : ss.labels = loudsLabels QElt.edges nodes
  leaf : ∀ id n, nodes[id]? = some n → getBit ss.leaves id = some n.isLeaf

variable (bm : List UInt64) (i j : Nat)

/-- `setBit` changes one word, and makes room for it. -/
theorem getElem?_setBit (m : Nat) (v : UInt64) :
    (setBit bm i v)[m]?.getD 0 =
      if i / 64 = m then bm[m]?.getD 0 ||| (v <<< UInt64.ofNat (i % 64)) else bm[m]?.getD 0 := by
  have hpad : ∀ k, (bm ++ replicate k 0)[m]?.getD 0 = bm[m]?.getD 0 := by
    intro k
    rw [getElem?_append]
    split
    · rfl
    · rename_i hm
      rw [getElem?_eq_none (Nat.le_of_not_lt hm), getElem?_replicate]
      split <;> rfl
  rw [setBit, getElem?_modify, ← hpad (i / 64 + 1 - bm.length)]
  split
  · rename_i hm
    have hlt : m < (bm ++ replicate (i / 64 + 1 - bm.length) 0).length := by
      rw [length_append, length_replicate]
      omega
    rw [getElem?_eq_getElem hlt]
    rfl
  · cases (bm ++ replicate (i / 64 + 1 - bm.length) 0)[m]? <;> rfl

theorem bitAt_setBit_zero : bitAt (setBit bm i 0) j = bitAt bm j := by
  rw [bitAt_eq, bitAt_eq, getElem?_setBit]
  split <;> simp

theorem bitAt_setBit_one : bitAt (setBit bm i 1) j = (bitAt bm j || j = i) := by
  have hmod : i % 64 < 64 := mod_lt _ (by decide)
  rw [bitAt_eq, bitAt_eq, getElem?_setBit]
  split
  · rename_i hdiv
    rw [testBit_or_mask _ hmod]
    congr 1
    rw [decide_eq_decide]
    omega
  · rename_i hdiv
    rw [decide_eq_false (fun h => hdiv (by rw [h])), Bool.or_false]

namespace Building

/-- The construction after it has gone through the nodes `done`. -/
structure Built (done : List QElt) (st : Building) : Prop where
  bitmap : Stores st.ss.labelBitmap (loudsBits QElt.edges done)
  lIdx : st.lIdx = (loudsBits QElt.edges done).length
  labels : st.ss.labels = loudsLabels QElt.edges done
  leaves : Stores st.ss.leaves (done.map QElt.isLeaf)
  nodeID : st.nodeID = done.length
  terminals : st.terminals = (done.filter QElt.isLeaf).map QElt.path

variable {done : List QElt} {st : Building}

theorem foldl_addEdge (path : GoString) (groups : List (UInt8 × List GoString)) (st : Building)
    {bits : List Bool} (hbits : Stores st.ss.labelBitmap bits) (hidx : st.lIdx = bits.length) :
    let st' := groups.foldl (addEdge path) st
    Stores st'.ss.labelBitmap (bits ++ replicate groups.length false) ∧
      st'.lIdx = bits.length + groups.length ∧
      st'.ss.labels = st.ss.labels ++ groups.map Prod.fst ∧
      st'.ss.leaves = st.ss.leaves ∧ st'.nodeID = st.nodeID ∧ st'.terminals = st.terminals ∧
      st'.next = st.next ++ groups.map fun g => ⟨path ++ [g.1], g.2⟩ := by
  induction groups generalizing st bits with
  | nil => simpa using ⟨hbits, hidx⟩
  | cons g groups ih =>
    have hbits' : Stores (addEdge path st g).ss.labelBitmap (bits ++ [false]) :=
      hbits.append_false fun i => bitAt_setBit_zero ..
    obtain ⟨h₁, h₂, h₃, h₄, h₅, h₆, h₇⟩ := ih (addEdge path st g) hbits' (by simp [addEdge, hidx])
    refine ⟨?_, ?_, ?_, h₄, h₅, h₆, ?_⟩
    · simpa [replicate_succ] using h₁
    · rw [foldl_cons, h₂]
      simp
      omega
    · rw [foldl_cons, h₃]
      simp [addEdge]
    · rw [foldl_cons, h₇]
      simp [addEdge]

open QElt

theorem stores_addLeaf (h : Built done st) (elt : QElt) :
    Stores (st.addLeaf elt).ss.leaves (done.map isLeaf ++ [elt.isLeaf]) := by
  rw [addLeaf]
  cases elt.isLeaf with
  | true =>
    refine h.leaves.append_true fun i => ?_
    rw [length_map, ← h.nodeID]
    exact bitAt_setBit_one ..
  | false => exact h.leaves.append_false fun _ => rfl

theorem visit_spec {elt : QElt} (h : Built done st) (helt : elt.Sorted) :
    ∃ st', visit st elt = some st' ∧ Built (done ++ [elt]) st' ∧
      st'.next = st.next ++ kids edges elt := by
  obtain ⟨groups, hruns, -⟩ := runs_unread helt
  have hedges : elt.edges = groups.map fun g => (g.1, ⟨elt.path ++ [g.1], g.2⟩) := by
    rw [edges, hruns]
    rfl
  have hlen : elt.edges.length = groups.length := by rw [hedges, length_map]
  obtain ⟨hbits, hidx, hlabels, hleaves, hnode, hterminals, hnext⟩ :=
    @foldl_addEdge elt.path groups (st.addLeaf elt) (loudsBits edges done)
      (by rw [addLeaf]; split <;> exact h.bitmap) (by rw [addLeaf]; split <;> exact h.lIdx)
  refine ⟨_, by rw [visit, hruns]; rfl, ⟨?_, ?_, ?_, ?_, ?_, ?_⟩, ?_⟩
  · rw [loudsBits_concat, hlen]
    refine hbits.append_true fun i => ?_
    rw [length_append, length_replicate, ← hidx]
    exact bitAt_setBit_one ..
  · rw [loudsBits_concat, hlen]
    change _ + 1 = _
    rw [hidx]
    simp [add_assoc]
  · rw [loudsLabels_concat]
    change (groups.foldl (addEdge elt.path) (st.addLeaf elt)).ss.labels = _
    rw [hlabels, hedges, List.map_map, ← h.labels]
    congr 1
    rw [addLeaf]
    split <;> rfl
  · change Stores (groups.foldl (addEdge elt.path) (st.addLeaf elt)).ss.leaves _
    rw [hleaves, map_append]
    exact stores_addLeaf h elt
  · rw [length_append, length_singleton, ← h.nodeID]
    change _ + 1 = _
    rw [hnode, addLeaf]
    split <;> rfl
  · change (groups.foldl (addEdge elt.path) (st.addLeaf elt)).terminals = _
    rw [hterminals, addLeaf, filter_append, map_append, ← h.terminals]
    cases helf : elt.isLeaf <;> simp [helf]
  · change (groups.foldl (addEdge elt.path) (st.addLeaf elt)).next = _
    rw [hnext, kids, hedges, List.map_map]
    congr 1
    rw [addLeaf]
    split <;> rfl

theorem foldlM_visit {queue : List QElt} (h : Built done st) (hqueue : ∀ elt ∈ queue, elt.Sorted) :
    ∃ st', queue.foldlM visit st = some st' ∧ Built (done ++ queue) st' ∧
      st'.next = st.next ++ queue.flatMap (kids edges) := by
  induction queue generalizing done st with
  | nil => exact ⟨st, rfl, by simpa using h, by simp⟩
  | cons elt queue ih =>
    obtain ⟨helt, hqueue⟩ := forall_mem_cons.mp hqueue
    obtain ⟨st₁, hst₁, hbuilt₁, hnext₁⟩ := visit_spec h helt
    obtain ⟨st₂, hst₂, hbuilt₂, hnext₂⟩ := ih hbuilt₁ hqueue
    refine ⟨st₂, ?_, by simpa using hbuilt₂, by rw [hnext₂, hnext₁]; simp⟩
    rw [foldlM_cons, hst₁]
    exact hst₂

/-- The loop over the columns goes through the levels of the tree. -/
theorem levelLoop_spec {fuel : Nat} {done queue : List QElt} {st : Building} (h : Built done st)
    (hqueue : ∀ elt ∈ queue, elt.Sorted) (hfuel : ∀ elt ∈ queue, elt.height < fuel) :
    ∃ st', levelLoop fuel queue st = some st' ∧ Built (done ++ levels edges fuel queue) st' := by
  induction fuel generalizing done queue st with
  | zero =>
    have hnil : queue = [] := eq_nil_iff_forall_not_mem.mpr fun elt helt =>
      not_lt_zero _ (hfuel elt helt)
    subst hnil
    exact ⟨st, rfl, by simpa [levels] using h⟩
  | succ fuel ih =>
    cases queue with
    | nil => exact ⟨st, rfl, by simpa [levels_nil] using h⟩
    | cons elt queue =>
      have hstart : Built done { st with next := [] } := { h with }
      obtain ⟨st₁, hst₁, hbuilt₁, hnext₁⟩ := foldlM_visit hstart hqueue
      have hkid : ∀ kid ∈ st₁.next, ∃ elt' ∈ elt :: queue, kid ∈ kids edges elt' := by
        intro kid hkid
        rw [hnext₁, nil_append] at hkid
        exact mem_flatMap.mp hkid
      obtain ⟨st₂, hst₂, hbuilt₂⟩ := ih hbuilt₁
        (fun kid hk => by
          obtain ⟨elt', helt', hk⟩ := hkid kid hk
          exact sorted_kids (hqueue elt' helt') kid hk)
        (fun kid hk => by
          obtain ⟨elt', helt', hk⟩ := hkid kid hk
          have := height_kids elt' kid hk
          have := hfuel elt' helt'
          omega)
      refine ⟨st₂, ?_, ?_⟩
      · rw [levelLoop, hst₁]
        · exact hst₂
        · exact cons_ne_nil _ _
      · rw [hnext₁, nil_append, append_assoc] at hbuilt₂
        exact hbuilt₂

end Building

/-- A node without children is a leaf. -/
theorem QElt.isLeaf_of_edges {elt : QElt} (h : elt.Sorted) (hedges : elt.edges = []) :
    elt.isLeaf = true := by
  rw [isLeaf_iff h]
  obtain ⟨rest, hrest⟩ := exists_mem_of_ne_nil _ h.ne_nil
  cases rest with
  | nil => exact hrest
  | cons c rest =>
    have := (mem_bytes h).mpr ⟨rest, hrest⟩
    rw [bytes, hedges] at this
    cases this

/-- What has been made when all nodes of a tree are done. -/
theorem Building.Built.encodes {root : QElt} {nodes : List QElt} {st : Building}
    (h : Built nodes st) (hsorted : ∀ n ∈ nodes, n.Sorted)
    (horder : LevelOrder QElt.edges root nodes) : Encodes st.ss nodes := by
  have hne : nodes ≠ [] := by
    rw [show nodes = _ from horder]
    exact cons_ne_nil _ _
  have hpos := length_pos_iff.mpr hne
  refine ⟨hsorted, ⟨root, horder⟩, ?_, h.labels, ?_⟩
  · -- the bitmap ends with the one of the last node
    have hbitmap := h.bitmap
    rw [← dropLast_append_getLast hne, loudsBits_concat] at hbitmap
    obtain ⟨k, hk⟩ := hbitmap.bitsOf_eq
    rw [← loudsBits_concat, dropLast_append_getLast hne] at hk
    exact ⟨k, hk⟩
  · -- the last node is a leaf, so the leaves reach as far as the nodes
    intro id n hid
    obtain ⟨last, hlast⟩ : ∃ last, nodes[nodes.length - 1]? = some last :=
      ⟨_, getElem?_eq_getElem (Nat.sub_lt hpos Nat.one_pos)⟩
    have hedges := horder.edges_of_last QElt.height QElt.height_kids (Nat.sub_add_cancel hpos) hlast
    have hleaf := QElt.isLeaf_of_edges (hsorted last (mem_of_getElem? hlast)) hedges
    have hlt := (List.getElem?_eq_some_iff.mp hid).1
    have hmark : (nodes.map QElt.isLeaf)[nodes.length - 1]? = some true := by
      rw [getElem?_map, hlast, map_some, hleaf]
    rw [getBit_eq, h.leaves.getElem?_of_le hmark (by omega), getElem?_map, hid]
    rfl

/-- The construction never fails. Its result is the level-order form of the tree of the sorted
keys, and `onTerminal` is called for the leaves in their order. -/
theorem buildDomainSet_encodes (hne : keys ≠ []) :
    ∃ ss nodes, buildDomainSet keys = some (some ss, (nodes.filter QElt.isLeaf).map QElt.path) ∧
      Encodes ss nodes ∧ nodes[0]? = some ⟨[], sortedKeys keys⟩ := by
  have hroot : QElt.Sorted ⟨[], sortedKeys keys⟩ := by
    refine ⟨pairwise_sortedKeys keys, fun hnil => ?_⟩
    obtain ⟨key, hkey⟩ := exists_mem_of_ne_nil _ hne
    have hmem := mem_sortedKeys.mpr hkey
    rw [show sortedKeys keys = [] from hnil] at hmem
    cases hmem
  have hstart : Building.Built [] ⟨⟨[], [], []⟩, 0, 0, [], []⟩ :=
    ⟨stores_nil, rfl, rfl, stores_nil, rfl, rfl⟩
  obtain ⟨st, hst, hbuilt⟩ := @Building.levelLoop_spec (longest (sortedKeys keys) + 1) _
    [⟨[], sortedKeys keys⟩] _ hstart (by simpa using hroot) (by simp [QElt.height])
  rw [nil_append] at hbuilt
  generalize hnodes : levels QElt.edges (longest (sortedKeys keys) + 1)
    [⟨[], sortedKeys keys⟩] = nodes at hbuilt
  have horder : LevelOrder QElt.edges ⟨[], sortedKeys keys⟩ nodes := by
    rw [← hnodes]
    exact levelOrder_levels QElt.height QElt.height_kids (lt_succ_self _)
  have hzero : nodes[0]? = some ⟨[], sortedKeys keys⟩ := by
    rw [show nodes = _ from horder]
    rfl
  have hsorted : ∀ n ∈ nodes, n.Sorted := by
    rw [← hnodes]
    exact forall_mem_levels (fun n => QElt.sorted_kids) (by simpa using hroot)
  refine ⟨st.ss, nodes, ?_, hbuilt.encodes hsorted horder, hzero⟩
  rw [buildDomainSet, if_neg hne, ← hbuilt.terminals]
  dsimp only
  rw [hst]
  rfl

end Hako.Trie
