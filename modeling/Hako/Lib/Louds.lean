import Hako.Lib.Bitmap

/-!
# Trees in level order

A tree is given by the labelled edges of its nodes. Its nodes in level order are the root and
then the children of each node in turn. The level-order bit string has for every node a zero for
each edge and then a one, and the labels stand in the same order. A node is found again from its
place in the level order: its zeros begin behind the one of the node before, and the place of a
child is counted by the zeros.
-/

namespace Hako.Lib

open List

variable {N L : Type*} (edges : N → List (L × N))

def kids (n : N) : List N := (edges n).map Prod.snd

/-- The root and then the children of each node in turn. -/
def LevelOrder (root : N) (nodes : List N) : Prop := nodes = root :: nodes.flatMap (kids edges)

def nodeBits (n : N) : List Bool := replicate (edges n).length false ++ [true]

def loudsBits (nodes : List N) : List Bool := nodes.flatMap (nodeBits edges)

/-- The bit string by the numbers of edges alone. -/
def degreeBits (degrees : List Nat) : List Bool :=
  degrees.flatMap fun d => replicate d false ++ [true]

def loudsLabels (nodes : List N) : List L := nodes.flatMap fun n => (edges n).map Prod.fst

/-- Where the zeros of a node begin. -/
def loudsStart (nodes : List N) (id : Nat) : Nat := (loudsBits edges (nodes.take id)).length

variable {edges} {id : Nat} {n root : N} {nodes : List N}

theorem loudsBits_eq_degreeBits (nodes : List N) :
    loudsBits edges nodes = degreeBits (nodes.map fun n => (edges n).length) := by
  rw [degreeBits, flatMap_map]
  rfl

theorem length_degreeBits (degrees : List Nat) :
    (degreeBits degrees).length = degrees.sum + degrees.length := by
  induction degrees with
  | nil => rfl
  | cons d degrees ih =>
    simp only [degreeBits, flatMap_cons, length_append, length_replicate,
      length_nil, sum_cons, length_cons] at ih ⊢
    omega

theorem split_at (h : nodes[id]? = some n) : nodes = nodes.take id ++ n :: nodes.drop (id + 1) := by
  obtain ⟨hlt, rfl⟩ := List.getElem?_eq_some_iff.mp h
  rw [← drop_eq_getElem_cons hlt, take_append_drop]

variable (nodes)

theorem length_loudsBits :
    (loudsBits edges nodes).length = (loudsLabels edges nodes).length + nodes.length := by
  induction nodes with
  | nil => rfl
  | cons n nodes ih =>
    simp only [loudsBits, loudsLabels, flatMap_cons, length_append, nodeBits] at ih ⊢
    simp only [length_replicate, length_map, length_cons, length_nil]
    omega

theorem loudsBits_concat (n : N) :
    loudsBits edges (nodes ++ [n]) =
      (loudsBits edges nodes ++ replicate (edges n).length false) ++ [true] := by
  simp [loudsBits, nodeBits]

theorem loudsLabels_concat (n : N) :
    loudsLabels edges (nodes ++ [n]) = loudsLabels edges nodes ++ (edges n).map Prod.fst := by
  simp [loudsLabels]

theorem count_loudsBits : (loudsBits edges nodes).count true = nodes.length := by
  induction nodes with
  | nil => rfl
  | cons n nodes ih =>
    simp only [loudsBits, flatMap_cons, count_append, nodeBits] at ih ⊢
    simp [ih, count_replicate, add_comm]

theorem length_flatMap_kids :
    (nodes.flatMap (kids edges)).length = (loudsLabels edges nodes).length := by
  simp [loudsLabels, kids, length_flatMap]

variable {nodes}

theorem loudsStart_eq (h : id ≤ nodes.length) :
    loudsStart edges nodes id = (loudsLabels edges (nodes.take id)).length + id := by
  rw [loudsStart, length_loudsBits, length_take, min_eq_left h]

section

variable (h : nodes[id]? = some n)
include h

theorem loudsStart_succ :
    loudsStart edges nodes (id + 1) = loudsStart edges nodes id + (edges n).length + 1 := by
  rw [loudsStart, take_add_one, h, loudsBits, flatMap_append, length_append]
  simp [nodeBits, loudsStart, loudsBits, add_assoc]

theorem loudsBits_split :
    loudsBits edges nodes = loudsBits edges (nodes.take id) ++
      (replicate (edges n).length false ++ true :: loudsBits edges (nodes.drop (id + 1))) := by
  conv_lhs => rw [split_at h]
  simp [loudsBits, nodeBits]

/-- From its beginning on a node has a zero for each edge and then a one. -/
theorem drop_loudsStart :
    (loudsBits edges nodes).drop (loudsStart edges nodes id) =
      replicate (edges n).length false ++ true :: loudsBits edges (nodes.drop (id + 1)) := by
  rw [loudsBits_split h, loudsStart, drop_left]

/-- The labels of a node stand where the zeros are counted to. -/
theorem drop_loudsLabels :
    (loudsLabels edges nodes).drop (loudsStart edges nodes id - id) =
      (edges n).map Prod.fst ++ loudsLabels edges (nodes.drop (id + 1)) := by
  have hle : id ≤ nodes.length := le_of_lt (List.getElem?_eq_some_iff.mp h).1
  have hsplit : loudsLabels edges nodes = loudsLabels edges (nodes.take id) ++
      ((edges n).map Prod.fst ++ loudsLabels edges (nodes.drop (id + 1))) := by
    conv_lhs => rw [split_at h]
    simp [loudsLabels]
  rw [loudsStart_eq hle, Nat.add_sub_cancel, hsplit, drop_left]

/-- As many ones stand before a node as nodes do. -/
theorem rank_loudsStart :
    rank (loudsBits edges nodes) (loudsStart edges nodes id) = id := by
  have hlt := (List.getElem?_eq_some_iff.mp h).1
  rw [loudsBits_split h, loudsStart, rank, take_left, count_loudsBits, length_take,
    min_eq_left (le_of_lt hlt)]

/-- The one of a node stands right before the beginning of the next. -/
theorem select_louds :
    select (loudsBits edges nodes) id = some (loudsStart edges nodes (id + 1) - 1) := by
  rw [select_eq_some_iff, loudsStart_succ h, Nat.add_sub_cancel]
  constructor
  · rw [← getElem?_drop, drop_loudsStart h, getElem?_append_right (by simp)]
    simp
  · -- only zeros stand between the beginning of the node and its one
    have hrank : rank (loudsBits edges nodes) (loudsStart edges nodes id) = id := rank_loudsStart h
    rw [rank] at hrank ⊢
    rw [take_add, count_append, hrank, drop_loudsStart h]
    simp [count_replicate]

end

/-- Where a sequence of numbers passes a bound. -/
theorem exists_crossing {s : Nat → Nat} {i n a : Nat} (hin : i ≤ n) (hi : s i ≤ a) (hn : a < s n) :
    ∃ j, i ≤ j ∧ j < n ∧ s j ≤ a ∧ a < s (j + 1) := by
  induction n, hin using Nat.le_induction with
  | base => omega
  | succ n hin ih =>
    by_cases hlt : a < s n
    · obtain ⟨j, hij, hjn, hj⟩ := ih hlt
      exact ⟨j, hij, Nat.lt_succ_of_lt hjn, hj⟩
    · exact ⟨n, hin, Nat.lt_succ_self n, Nat.le_of_not_lt hlt, hn⟩

/-- The degrees of a tree in level order: every node but the root is a child of an earlier one. -/
structure TreeDegrees (degrees : List Nat) : Prop where
  length : degrees.length = degrees.sum + 1
  earlier : ∀ j < degrees.length, j ≤ (degrees.take j).sum

theorem sum_degrees (nodes : List N) :
    (nodes.map fun n => (edges n).length).sum = (loudsLabels edges nodes).length := by
  simp [loudsLabels, length_flatMap]

variable (height : N → Nat) (hheight : ∀ n, ∀ m ∈ kids edges n, height m < height n)

section

variable (hnodes : LevelOrder edges root nodes)
include hnodes

theorem LevelOrder.getElem?_succ (i : Nat) :
    nodes[i + 1]? = (nodes.flatMap (kids edges))[i]? := by
  conv_lhs => rw [show nodes = root :: nodes.flatMap (kids edges) from hnodes]
  rfl

theorem LevelOrder.length_eq :
    nodes.length = (loudsLabels edges nodes).length + 1 := by
  conv_lhs => rw [show nodes = root :: nodes.flatMap (kids edges) from hnodes]
  rw [length_cons, length_flatMap_kids]

/-- Where a child stands in the level order. -/
theorem LevelOrder.child {m : N} {t : Nat} {l : L}
    (h : nodes[id]? = some n) (ht : (edges n)[t]? = some (l, m)) :
    nodes[loudsStart edges nodes id - id + 1 + t]? = some m := by
  have hle : id ≤ nodes.length := le_of_lt (List.getElem?_eq_some_iff.mp h).1
  have hsplit : nodes.flatMap (kids edges) = (nodes.take id).flatMap (kids edges) ++
      (kids edges n ++ (nodes.drop (id + 1)).flatMap (kids edges)) := by
    conv_lhs => rw [split_at h]
    simp
  have hlt : t < (kids edges n).length := by
    simpa [kids] using (List.getElem?_eq_some_iff.mp ht).1
  rw [loudsStart_eq hle, Nat.add_sub_cancel, ← length_flatMap_kids, add_right_comm,
    hnodes.getElem?_succ, hsplit, getElem?_append_right (Nat.le_add_right ..),
    Nat.add_sub_cancel_left, getElem?_append_left hlt, kids, getElem?_map, ht]
  rfl

include hheight

/-- The last node of a finite tree has no children. -/
theorem LevelOrder.edges_of_last (hid : id + 1 = nodes.length) (h : nodes[id]? = some n) :
    edges n = [] := by
  by_contra hne
  have hpos := length_pos_iff.mpr hne
  obtain ⟨⟨l, m⟩, hlast⟩ : ∃ e, (edges n)[(edges n).length - 1]? = some e :=
    ⟨_, getElem?_eq_getElem (Nat.sub_lt hpos Nat.one_pos)⟩
  have hchild := hnodes.child h hlast
  -- the last child of the last node would be that node
  have hstart : loudsStart edges nodes id - id + 1 + ((edges n).length - 1) = id := by
    have hsucc : loudsStart edges nodes (id + 1) = _ := loudsStart_succ h
    rw [loudsStart_eq (le_of_eq hid), hid, take_length] at hsucc
    have hlen := hnodes.length_eq
    have hle : loudsStart edges nodes id = _ :=
      loudsStart_eq (le_of_lt (List.getElem?_eq_some_iff.mp h).1)
    omega
  rw [hstart, h, Option.some.injEq] at hchild
  have hmem : m ∈ kids edges n := mem_map.mpr ⟨_, mem_of_getElem? hlast, rfl⟩
  have hlt := hheight n m hmem
  rw [← hchild] at hlt
  exact lt_irrefl _ hlt

/-- In a finite tree every node but the root is a child of an earlier one. -/
theorem LevelOrder.le_labels (hid : id < nodes.length) :
    id ≤ (loudsLabels edges (nodes.take id)).length := by
  induction hk : nodes.length - id using Nat.strongRecOn generalizing id with
  | ind k ih =>
    by_contra hlt
    -- the parent `j` of the node would not stand before it
    have hlast : id - 1 < (loudsLabels edges (nodes.take nodes.length)).length := by
      have := hnodes.length_eq
      rw [take_length]
      omega
    obtain ⟨j, hij, hj, hle, hgt⟩ := @exists_crossing
      (fun j => (loudsLabels edges (nodes.take j)).length) id nodes.length (id - 1)
      (le_of_lt hid) (by omega) hlast
    have hn : nodes[j]? = some nodes[j] := getElem?_eq_getElem hj
    have hstart : loudsStart edges nodes j - j = (loudsLabels edges (nodes.take j)).length := by
      rw [loudsStart_eq (le_of_lt hj), Nat.add_sub_cancel]
    have hdegree : (loudsLabels edges (nodes.take (j + 1))).length =
        (loudsLabels edges (nodes.take j)).length + (edges nodes[j]).length := by
      rw [take_add_one, hn, Option.toList_some, loudsLabels_concat, length_append, length_map]
    have hedge : id - 1 - (loudsLabels edges (nodes.take j)).length < (edges nodes[j]).length := by
      omega
    obtain ⟨⟨l, m⟩, hm⟩ : ∃ e, (edges nodes[j])[id - 1 -
        (loudsLabels edges (nodes.take j)).length]? = some e := ⟨_, getElem?_eq_getElem hedge⟩
    have hchild := hnodes.child hn hm
    have hplace : loudsStart edges nodes j - j + 1 +
        (id - 1 - (loudsLabels edges (nodes.take j)).length) = id := by omega
    rw [hplace] at hchild
    by_cases hji : j = id
    · -- the node would be its own child
      have hmem : m ∈ kids edges nodes[j] := mem_map.mpr ⟨_, mem_of_getElem? hm, rfl⟩
      have hless := hheight _ _ hmem
      rw [← hji, hn, Option.some.injEq] at hchild
      rw [hchild] at hless
      exact lt_irrefl _ hless
    · have := ih (nodes.length - j) (by omega) hj rfl
      omega

theorem LevelOrder.treeDegrees :
    TreeDegrees (nodes.map fun n => (edges n).length) where
  length := by rw [length_map, sum_degrees, hnodes.length_eq]
  earlier j hj := by
    rw [length_map] at hj
    rw [← map_take, sum_degrees]
    exact hnodes.le_labels height hheight hj

end

/-! ### Level by level -/

variable (edges) in
/-- The nodes of the first `n` levels that follow from one level. -/
def levels : Nat → List N → List N
  | 0, _ => []
  | n + 1, level => level ++ levels n (level.flatMap (kids edges))

theorem levels_nil (n : Nat) : levels edges n [] = [] := by
  induction n with
  | zero => rfl
  | succ n ih => simpa [levels] using ih

/-- What holds for one level and passes on to the children holds for all levels. -/
theorem forall_mem_levels {P : N → Prop} (hkids : ∀ n, P n → ∀ m ∈ kids edges n, P m) {n : Nat}
    {level : List N} (h : ∀ m ∈ level, P m) : ∀ m ∈ levels edges n level, P m := by
  induction n generalizing level with
  | zero => simp [levels]
  | succ n ih =>
    refine forall_mem_append.mpr ⟨h, ih fun m hm => ?_⟩
    obtain ⟨a, ha, hm⟩ := mem_flatMap.mp hm
    exact hkids a (h a ha) m hm

include hheight in
theorem levels_eq {n : Nat} {level : List N} (h : ∀ m ∈ level, height m < n) :
    levels edges n level = level ++ (levels edges n level).flatMap (kids edges) := by
  induction n generalizing level with
  | zero =>
    have hnil : level = [] := eq_nil_iff_forall_not_mem.mpr fun m hm => by
      exact Nat.not_lt_zero _ (h m hm)
    rw [hnil]
    rfl
  | succ n ih =>
    have hnext : ∀ m ∈ level.flatMap (kids edges), height m < n := by
      intro m hm
      obtain ⟨a, ha, hm⟩ := mem_flatMap.mp hm
      have := hheight a m hm
      have := h a ha
      omega
    rw [levels, flatMap_append, ← ih hnext]

include hheight in
/-- The levels of a finite tree make a level order. -/
theorem levelOrder_levels {n : Nat} (h : height root < n) :
    LevelOrder edges root (levels edges n [root]) := by
  have hroot : ∀ m ∈ [root], height m < n := by simpa using h
  exact levels_eq height hheight hroot

/-- A marked node is found among the marked ones by counting the marks before it. -/
theorem getElem?_filter_rank {mark : N → Bool} (h : nodes[id]? = some n) (hn : mark n = true) :
    (nodes.filter mark)[rank (nodes.map mark) id]? = some n := by
  have hrank : rank (nodes.map mark) id = ((nodes.take id).filter mark).length := by
    rw [rank, ← map_take, ← countP_eq_length_filter, count_eq_countP, countP_map]
    congr 1
    funext m
    simp
  have hsplit : nodes.filter mark =
      (nodes.take id).filter mark ++ n :: (nodes.drop (id + 1)).filter mark := by
    conv_lhs => rw [split_at h]
    rw [filter_append, filter_cons_of_pos hn]
  rw [hrank, hsplit, getElem?_append_right (Nat.le_refl _), Nat.sub_self]
  rfl

end Hako.Lib
