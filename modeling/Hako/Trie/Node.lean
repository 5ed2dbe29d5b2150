import Hako.Trie.Domain

/-!
# The pointer trie

`DomainTrie` stores patterns by label from the right. A node keeps its children in one of
two forms, a single child with its label or a map, and insertion and `Optimize` convert
between them. What a trie means is the map from label sequences to the values stored
under them, `Node.value`; both forms and both conversions are invisible there.
-/

namespace Hako.Trie

open GoLib

variable {T : Type*}

/-- A node of the trie, with its children in one of the forms the code keeps them in: no
child, one child with its label (`childNode`, `childStr`), or a map (`childMap`). The data
is that of the pattern that ends here, `none` while `inited` is false. -/
inductive Node (T : Type*) where
  | leaf (data : Option T)
  | single (childStr : GoString) (childNode : Node T) (data : Option T)
  | table (childMap : List (GoString × Node T)) (data : Option T)

/-- Assignment to a Go map, as an association list. -/
def mapSet {α : Type*} (s : GoString) (a : α) : List (GoString × α) → List (GoString × α)
  | [] => [(s, a)]
  | (t, b) :: m => if t = s then (s, a) :: m else (t, b) :: mapSet s a m

/-- Reading a Go map. -/
def mapGet {α : Type*} (s : GoString) : List (GoString × α) → Option α
  | [] => none
  | (t, b) :: m => if t = s then some b else mapGet s m

@[simp] theorem mapGet_mapSet {α : Type*} (s t : GoString) (a : α) (m : List (GoString × α)) :
    mapGet t (mapSet s a m) = if s = t then some a else mapGet t m := by
  induction m with
  | nil => simp [mapGet, mapSet]
  | cons p m ih =>
    obtain ⟨u, b⟩ := p
    by_cases hu : u = s
    · subst hu
      by_cases ht : u = t <;> simp [mapGet, mapSet, ht]
    · by_cases ht : u = t
      · subst ht
        simp [mapGet, mapSet, hu, Ne.symm hu]
      · simp [mapGet, mapSet, hu, ht, ih]

namespace Node

def newNode : Node T := .leaf none

def data : Node T → Option T
  | .leaf d => d
  | .single _ _ d => d
  | .table _ d => d

/-- A nil node, or one that was never given data, is empty. -/
def isEmpty : Option (Node T) → Bool
  | none => true
  | some n => n.data.isNone

def setData : Node T → T → Node T
  | .leaf _, d => .leaf (some d)
  | .single s c _, d => .single s c (some d)
  | .table m _, d => .table m (some d)

def getChild : Node T → GoString → Option (Node T)
  | .leaf _, _ => none
  | .single str c _, s => if str = s then some c else none
  | .table m _, s => mapGet s m

def addChild : Node T → GoString → Node T → Node T
  | .leaf d, s, child => .single s child d
  | .single str c d, s, child => .table (mapSet s child [(str, c)]) d
  | .table m d, s, child => .table (mapSet s child m) d

/-- Write through the pointer `getChild` returned: replace an existing child. -/
def setChild : Node T → GoString → Node T → Node T
  | .leaf d, _, _ => .leaf d
  | .single str _ d, _, child => .single str child d
  | .table m d, s, child => .table (mapSet s child m) d

/-- `getOrNewChild` followed by a change of the child it returns. -/
def modifyChild (n : Node T) (s : GoString) (f : Node T → Node T) : Node T :=
  match n.getChild s with
  | some c => n.setChild s (f c)
  | none => n.addChild s (f newNode)

/-- The loop of `DomainTrie.insert`: `path` holds the labels from right to left. -/
def insertPath : Node T → List GoString → T → Node T
  | n, [], d => n.setData d
  | n, part :: path, d => n.modifyChild part fun c => c.insertPath path d

/-- `DomainTrie.search`: `parts` holds the labels of the query from right to left. -/
def search : Node T → List GoString → Option (Node T)
  | n, [] => some n
  | n, part :: parts =>
    let exact := (n.getChild part).bind fun c => c.search parts
    if ¬ isEmpty exact then exact
    else
      let star := (n.getChild wildcard).bind fun c => c.search parts
      if ¬ isEmpty star then star else n.getChild dotWildcard

mutual
/-- `Node.optimize`: a map of at most one child gives way to the smaller forms. -/
def optimize : Node T → Node T
  | .leaf d => .leaf d
  | .single str c d => .single str c.optimize d
  | .table [] d => .leaf d
  | .table [(key, n)] d => .single key n.optimize d
  | .table (p :: q :: m) d => .table (optimizePair p :: optimizePair q :: optimizeMap m) d

def optimizePair : GoString × Node T → GoString × Node T
  | (key, n) => (key, n.optimize)

def optimizeMap : List (GoString × Node T) → List (GoString × Node T)
  | [] => []
  | p :: m => optimizePair p :: optimizeMap m
end

/-! ### What a node means -/

/-- The data stored under a sequence of labels, rightmost label first. -/
def value : Node T → List GoString → Option T
  | n, [] => n.data
  | n, l :: ls => (n.getChild l).bind fun c => c.value ls

section

variable (n : Node T)
include n

@[simp] theorem value_nil : n.value [] = n.data := rfl

theorem value_cons (l : GoString) (ls : List GoString) :
    n.value (l :: ls) = (n.getChild l).bind fun c => c.value ls := rfl

@[simp] theorem data_setData (d : T) : (n.setData d).data = some d := by
  cases n <;> rfl

@[simp] theorem getChild_setData (d : T) (s : GoString) :
    (n.setData d).getChild s = n.getChild s := by
  cases n <;> rfl

@[simp] theorem data_addChild (s : GoString) (child : Node T) :
    (n.addChild s child).data = n.data := by
  cases n <;> rfl

@[simp] theorem data_setChild (s : GoString) (child : Node T) :
    (n.setChild s child).data = n.data := by
  cases n <;> rfl

theorem getChild_addChild (s t : GoString) (child : Node T) :
    (n.addChild s child).getChild t = if s = t then some child else n.getChild t := by
  cases n <;> simp [addChild, getChild, mapGet]

end

theorem getChild_setChild {n c : Node T} {s : GoString} (h : n.getChild s = some c) (t : GoString)
    (child : Node T) :
    (n.setChild s child).getChild t = if s = t then some child else n.getChild t := by
  cases n with
  | leaf d => simp [getChild] at h
  | single str c' d =>
    -- the single child is the one with label `s`
    have hs : str = s := by
      by_contra hne
      simp [getChild, hne] at h
    subst hs
    by_cases ht : str = t <;> simp [setChild, getChild, ht]
  | table m d => simp [setChild, getChild]

/-- Changing one child leaves the others alone; an absent child starts from an empty node. -/
theorem getChild_modifyChild (n : Node T) (s t : GoString) (f : Node T → Node T) :
    (n.modifyChild s f).getChild t =
      if s = t then some (f ((n.getChild s).getD newNode)) else n.getChild t := by
  unfold modifyChild
  cases h : n.getChild s with
  | none => simp [getChild_addChild]
  | some c => simp [getChild_setChild h]

@[simp] theorem data_modifyChild (n : Node T) (s : GoString) (f : Node T → Node T) :
    (n.modifyChild s f).data = n.data := by
  unfold modifyChild
  cases n.getChild s <;> simp

@[simp] theorem value_newNode (ls : List GoString) : (newNode : Node T).value ls = none := by
  cases ls with
  | nil => rfl
  | cons l ls => rfl

/-- Insertion stores the value under its path and keeps every other value. -/
theorem value_insertPath (n : Node T) (path : List GoString) (d : T) (ls : List GoString) :
    (n.insertPath path d).value ls = if path = ls then some d else n.value ls := by
  induction path generalizing n ls with
  | nil => cases ls <;> simp [insertPath, value_cons]
  | cons part path ih =>
    cases ls with
    | nil => simp [insertPath]
    | cons l ls =>
      rw [insertPath, value_cons, getChild_modifyChild]
      by_cases hl : part = l
      · subst hl
        rw [if_pos rfl, Option.bind_some, ih]
        by_cases hpath : path = ls
        · simp [hpath]
        · cases hc : n.getChild part <;> simp [hpath, value_cons, hc]
      · simp [hl, value_cons]

/-! ### Optimization -/

@[simp] theorem data_optimize (n : Node T) : n.optimize.data = n.data := by
  rcases n with d | ⟨str, c, d⟩ | ⟨_ | ⟨⟨key, n⟩, _ | ⟨q, m⟩⟩, d⟩ <;> simp [optimize, data]

theorem mapGet_optimizeMap (s : GoString) (m : List (GoString × Node T)) :
    mapGet s (optimizeMap m) = (mapGet s m).map optimize := by
  induction m with
  | nil => simp [optimizeMap, mapGet]
  | cons p m ih =>
    obtain ⟨t, n⟩ := p
    by_cases ht : t = s <;> simp [optimizeMap, optimizePair, mapGet, ht, ih]

theorem getChild_optimize (n : Node T) (s : GoString) :
    n.optimize.getChild s = (n.getChild s).map optimize := by
  rcases n with d | ⟨str, c, d⟩ | ⟨_ | ⟨⟨key, n⟩, _ | ⟨q, m⟩⟩, d⟩
  · simp [optimize, getChild]
  · by_cases hs : str = s <;> simp [optimize, getChild, hs]
  · simp [optimize, getChild, mapGet]
  · by_cases hs : key = s <;> simp [optimize, getChild, mapGet, hs]
  · have := mapGet_optimizeMap s ((key, n) :: q :: m)
    simpa [optimize, getChild, optimizeMap] using this

/-- Optimization changes the form of the nodes, not what they store. -/
theorem value_optimize (n : Node T) (ls : List GoString) : n.optimize.value ls = n.value ls := by
  induction ls generalizing n with
  | nil => simp
  | cons l ls ih => cases h : n.getChild l <;> simp [value_cons, getChild_optimize, h, ih]

end Node

/-! ### Searching the map -/

/-- The values under a label. -/
def below (V : List GoString → Option T) (l : GoString) : List GoString → Option T :=
  fun ls => V (l :: ls)

/-- The search of `DomainTrie.search` on the map a node stands for: the exact label, then
`*`, then the suffix wildcard, backtracking out of every branch that stores nothing. -/
def bestValue : (List GoString → Option T) → List GoString → Option T
  | V, [] => V []
  | V, l :: ls =>
    bestValue (below V l) ls <|> bestValue (below V wildcard) ls <|> V [dotWildcard]

theorem bestValue_none (ls : List GoString) :
    bestValue (fun _ => none : List GoString → Option T) ls = none := by
  induction ls with
  | nil => rfl
  | cons l ls ih =>
    change (bestValue (fun _ => none) ls <|> bestValue (fun _ => none) ls <|> none) = none
    rw [ih]
    rfl

namespace Node

theorem below_value (n : Node T) (l : GoString) :
    below n.value l = (n.getChild l).elim (fun _ => none) Node.value := by
  funext ls
  cases h : n.getChild l <;> simp [below, value_cons, h]

theorem data_of_bind_search {c : Option (Node T)} {ls : List GoString}
    (h : ∀ n : Node T, (n.search ls).bind data = bestValue n.value ls) :
    (c.bind fun n => n.search ls).bind data = bestValue (c.elim (fun _ => none) Node.value) ls := by
  cases c with
  | none => simp [bestValue_none]
  | some n => simpa using h n

theorem isEmpty_iff (o : Option (Node T)) : isEmpty o = true ↔ o.bind data = none := by
  cases o <;> simp [isEmpty]

/-- Searching a node is searching the map it stands for. -/
theorem search_data (n : Node T) (ls : List GoString) :
    (n.search ls).bind data = bestValue n.value ls := by
  induction ls generalizing n with
  | nil => rfl
  | cons l ls ih =>
    have hexact := data_of_bind_search (c := n.getChild l) ih
    have hstar := data_of_bind_search (c := n.getChild wildcard) ih
    have hdot : n.value [dotWildcard] = (n.getChild dotWildcard).bind data := by
      simp [value_cons]
    rw [bestValue, below_value, below_value, ← hexact, ← hstar, hdot]
    simp only [search]
    split
    · rename_i h
      obtain ⟨d, hd⟩ := Option.ne_none_iff_exists'.mp (mt (isEmpty_iff _).mpr h)
      simp [hd]
    · rename_i h
      rw [(isEmpty_iff _).mp (not_not.mp h)]
      split
      · rename_i h
        obtain ⟨d, hd⟩ := Option.ne_none_iff_exists'.mp (mt (isEmpty_iff _).mpr h)
        simp [hd]
      · rename_i h
        simp [(isEmpty_iff _).mp (not_not.mp h)]

end Node

/-! ### The trie -/

/-- `DomainTrie`: the root node. -/
structure DomainTrie (T : Type*) where
  root : Node T

namespace DomainTrie

/-- `New`. -/
def new : DomainTrie T := ⟨.newNode⟩

/-- The unexported `insert`: walk the labels from the right and set the data at the end. -/
def insertParts (t : DomainTrie T) (parts : List GoString) (data : T) : DomainTrie T :=
  ⟨t.root.insertPath parts.reverse data⟩

/-- `DomainTrie.Insert`. -/
def insert (t : DomainTrie T) (domain : GoString) (data : T) :
    Except InvalidDomain (DomainTrie T) :=
  match validAndSplitDomain domain with
  | .error e => .error e
  | .ok parts =>
    if parts.head? = some complexWildcard then
      .ok ((t.insertParts parts.tail data).insertParts (dotWildcard :: parts.tail) data)
    else .ok (t.insertParts parts data)

/-- `DomainTrie.Search`. -/
def search (t : DomainTrie T) (domain : GoString) : Option (Node T) :=
  match validAndSplitDomain domain with
  | .error _ => none
  | .ok parts =>
    if parts.head? = some [] then none
    else
      let n := t.root.search parts.reverse
      if Node.isEmpty n then none else n

/-- `DomainTrie.Optimize`. -/
def optimize (t : DomainTrie T) : DomainTrie T := ⟨t.root.optimize⟩

/-- The values of a trie, by label sequence with the rightmost label first. -/
def value (t : DomainTrie T) : List GoString → Option T := t.root.value

@[simp] theorem value_new : (new : DomainTrie T).value = fun _ => none :=
  funext Node.value_newNode

@[simp] theorem value_optimize (t : DomainTrie T) : t.optimize.value = t.value :=
  funext (Node.value_optimize t.root)

theorem value_insertParts (t : DomainTrie T) (parts : List GoString) (data : T)
    (path : List GoString) :
    (t.insertParts parts data).value path =
      if parts.reverse = path then some data else t.value path :=
  Node.value_insertPath t.root parts.reverse data path

/-- The label sequences a pattern is stored under, rightmost label first: `+.x` is stored
as `x` and as `.x`. -/
def paths (parts : List GoString) : List (List GoString) :=
  if parts.head? = some complexWildcard then
    [parts.tail.reverse, (dotWildcard :: parts.tail).reverse]
  else [parts.reverse]

variable {domain : GoString} {parts : List GoString} {t : DomainTrie T}

/-- Insertion gives its value to the label sequences the pattern stands for. -/
theorem value_insert (t : DomainTrie T) (data : T)
    (hparts : validAndSplitDomain domain = .ok parts) :
    ∃ t', t.insert domain data = .ok t' ∧
      ∀ path, t'.value path = if path ∈ paths parts then some data else t.value path := by
  unfold insert paths
  rw [hparts]
  by_cases hplus : parts.head? = some complexWildcard
  · simp only [if_pos hplus]
    refine ⟨_, rfl, fun path => ?_⟩
    rw [value_insertParts, value_insertParts]
    by_cases h₁ : (dotWildcard :: parts.tail).reverse = path
    · simp [← h₁]
    · by_cases h₂ : parts.tail.reverse = path
      · simp [← h₂]
      · rw [if_neg h₁, if_neg h₂, if_neg]
        simp only [List.mem_cons, List.not_mem_nil, or_false]
        exact fun h => h.elim (fun h => h₂ h.symm) fun h => h₁ h.symm
  · simp only [if_neg hplus]
    refine ⟨_, rfl, fun path => ?_⟩
    rw [value_insertParts]
    by_cases h : parts.reverse = path
    · simp [h]
    · simp [h, Ne.symm h]

/-- Searching a trie for an accepted query is the backtracking search over its values. -/
theorem search_eq
    (hparts : validAndSplitDomain domain = .ok parts) (hfirst : parts.head? ≠ some []) :
    (t.search domain).bind Node.data = bestValue t.value parts.reverse := by
  rw [value, ← Node.search_data]
  simp only [search, hparts, if_neg hfirst]
  split
  · rename_i h
    rw [(Node.isEmpty_iff _).mp h]
    rfl
  · rfl

/-- The value found for a query among values by label sequence; none for a text that is not
accepted as a query. -/
def lookup (V : List GoString → Option T) (domain : GoString) : Option T :=
  match validAndSplitDomain domain with
  | .error _ => none
  | .ok parts => if parts.head? = some [] then none else bestValue V parts.reverse

theorem search_data (t : DomainTrie T) (domain : GoString) :
    (t.search domain).bind Node.data = lookup t.value domain := by
  cases hparts : validAndSplitDomain domain with
  | error e => simp [search, lookup, hparts]
  | ok parts =>
    by_cases hfirst : parts.head? = some []
    · simp [search, lookup, hparts, hfirst]
    · rw [search_eq hparts hfirst]
      simp [lookup, hparts, hfirst]

theorem isSome_search {n : Node T} (h : t.search domain = some n) : n.data.isSome := by
  unfold search at h
  cases hparts : validAndSplitDomain domain with
  | error e => simp [hparts] at h
  | ok parts =>
    simp only [hparts] at h
    split_ifs at h with hfirst hempty
    rw [h] at hempty
    simpa [Node.isEmpty, Option.isSome_iff_ne_none] using hempty

end DomainTrie

end Hako.Trie
