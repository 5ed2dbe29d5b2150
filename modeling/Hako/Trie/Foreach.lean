import Hako.Lib.Except
import Hako.Trie.Keys

/-!
# Domain sets of tries

`NewDomainSet` collects the patterns of a trie with `Foreach` and builds a set of them. Go visits
the children of a node in any order; the keys are sorted afterwards, so that the order of the
lists here stands for all of them.
-/

namespace Hako.Trie

open GoLib Lib List

variable {T : Type*}

/-- `joinDomain` -/
def joinDomain (items : List GoString) : GoString := join domainStepByte items

namespace Node

def getChildren : Node T → List (GoString × Node T)
  | .leaf _ => []
  | .single childStr childNode _ => [(childStr, childNode)]
  | .table childMap _ => childMap

/-- A round of the loop over the children, with what follows below the child. -/
def visit (items : List GoString) (key : GoString) (child : Node T) (below : List GoString) :
    List GoString :=
  (if isEmpty (some child) then [] else [joinDomain (key :: items)]) ++ below

mutual
/-- The domains that `recursion` calls its function with, for one that never stops it. -/
def recursion (items : List GoString) : Node T → List GoString
  | .leaf _ => []
  | .single childStr childNode _ =>
    visit items childStr childNode (childNode.recursion (childStr :: items))
  | .table childMap _ => recursionMap items childMap

def recursionPair (items : List GoString) : GoString × Node T → List GoString
  | (key, child) => visit items key child (child.recursion (key :: items))

def recursionMap (items : List GoString) : List (GoString × Node T) → List GoString
  | [] => []
  | p :: childMap => recursionPair items p ++ recursionMap items childMap
end

end Node

/-- The domains that `Foreach` calls its function with, for one that never stops it. -/
def DomainTrie.foreach (t : DomainTrie T) : List GoString :=
  t.root.getChildren.flatMap fun (key, child) =>
    child.recursion [key] ++ if Node.isEmpty (some child) then [] else [joinDomain [key]]

/-- The key that `NewDomainSet` makes of a domain; none if it is empty, which has no first byte. -/
def setKey (domain : GoString) : Option GoString :=
  domain.head?.map fun b =>
    reverse (if b = domainStepByte then complexWildcard ++ domain else domain)

/-- `NewDomainSet`; none if an index is out of range. -/
def DomainTrie.newDomainSet (t : DomainTrie T) : Option (Option DomainSet) :=
  (t.foreach.mapM setKey).bind fun keys => (buildDomainSet keys).map Prod.fst

/-! ### What a node stores -/

namespace Node

/-- A sequence of labels, rightmost first, leads to a node with data. -/
def Stores : Node T → List GoString → Prop
  | n, [] => n.data.isSome
  | n, l :: ls => ∃ c, (l, c) ∈ n.getChildren ∧ Stores c ls

variable {s domain : GoString} {items : List GoString}

theorem not_stores_newNode (ls : List GoString) : ¬ (newNode : Node T).Stores ls := by
  cases ls with
  | nil => exact Bool.false_ne_true
  | cons l ls => exact fun ⟨c, hc, _⟩ => not_mem_nil hc

theorem getChildren_setData (n : Node T) (d : T) : (n.setData d).getChildren = n.getChildren := by
  cases n <;> rfl

theorem mapSet_of_mapGet_some {α : Type*} {a : α} {m : List (GoString × α)}
    (h : mapGet s m = some a) :
    ∃ m₁ m₂, m = m₁ ++ (s, a) :: m₂ ∧ ∀ b, mapSet s b m = m₁ ++ (s, b) :: m₂ := by
  induction m with
  | nil => cases h
  | cons p m ih =>
    obtain ⟨t, b⟩ := p
    rw [mapGet] at h
    split at h
    · rename_i ht
      cases h
      exact ⟨[], m, by rw [ht]; rfl, fun b => by rw [mapSet, if_pos ht]; rfl⟩
    · rename_i ht
      obtain ⟨m₁, m₂, rfl, hset⟩ := ih h
      exact ⟨(t, b) :: m₁, m₂, rfl, fun b => by rw [mapSet, if_neg ht, hset]; rfl⟩

theorem mapSet_of_mapGet_none {α : Type*} {m : List (GoString × α)} (h : mapGet s m = none)
    (a : α) : mapSet s a m = m ++ [(s, a)] := by
  induction m with
  | nil => rfl
  | cons p m ih =>
    obtain ⟨t, b⟩ := p
    rw [mapGet] at h
    split at h
    · cases h
    · rename_i ht
      rw [mapSet, if_neg ht, ih h]
      rfl

theorem getChild_eq_mapGet (n : Node T) (s : GoString) : n.getChild s = mapGet s n.getChildren := by
  cases n with
  | leaf d => rfl
  | single str c d => rfl
  | table m d => rfl

theorem getChildren_addChild (n : Node T) (s : GoString) (child : Node T) :
    (n.addChild s child).getChildren = mapSet s child n.getChildren := by
  cases n with
  | leaf d => rfl
  | single str c d => rfl
  | table m d => rfl

theorem getChildren_setChild {n c : Node T} (h : n.getChild s = some c) (child : Node T) :
    (n.setChild s child).getChildren = mapSet s child n.getChildren := by
  cases n with
  | leaf d => cases h
  | single str c' d =>
    -- the single child is the one that was found
    have hs : str = s := by
      by_contra hne
      simp [getChild, hne] at h
    simp [setChild, getChildren, mapSet, hs]
  | table m d => rfl

/-- Changing a child replaces it in its place, or adds it behind the others. -/
theorem getChildren_modifyChild (n : Node T) (s : GoString) (f : Node T → Node T) :
    (∃ m₁ c m₂, n.getChildren = m₁ ++ (s, c) :: m₂ ∧
      (n.modifyChild s f).getChildren = m₁ ++ (s, f c) :: m₂) ∨
    (n.modifyChild s f).getChildren = n.getChildren ++ [(s, f newNode)] := by
  unfold modifyChild
  cases h : n.getChild s with
  | none =>
    right
    rw [getChildren_addChild]
    exact mapSet_of_mapGet_none ((getChild_eq_mapGet n s).symm.trans h) _
  | some c =>
    left
    obtain ⟨m₁, m₂, hm, hset⟩ := mapSet_of_mapGet_some ((getChild_eq_mapGet n s).symm.trans h)
    exact ⟨m₁, c, m₂, hm, (getChildren_setChild h _).trans (hset _)⟩

theorem stores_insertPath (n : Node T) (path : List GoString) (d : T) (ls : List GoString) :
    (n.insertPath path d).Stores ls ↔ n.Stores ls ∨ ls = path := by
  induction path generalizing n ls with
  | nil =>
    cases ls with
    | nil => simp [insertPath, Stores]
    | cons l ls => simp [insertPath, Stores, getChildren_setData]
  | cons part path ih =>
    cases ls with
    | nil => simp [insertPath, Stores]
    | cons l ls =>
      simp only [insertPath, Stores]
      rcases getChildren_modifyChild n part fun c => c.insertPath path d with
        ⟨m₁, c, m₂, hm, hm'⟩ | hm'
      · rw [hm, hm']
        simp only [mem_append, mem_cons, Prod.mk.injEq, cons.injEq]
        constructor
        · rintro ⟨c', hc' | ⟨rfl, rfl⟩ | hc', hls⟩
          · exact .inl ⟨c', .inl hc', hls⟩
          · rcases (ih c ls).mp hls with hls | rfl
            · exact .inl ⟨c, .inr (.inl ⟨rfl, rfl⟩), hls⟩
            · exact .inr ⟨rfl, rfl⟩
          · exact .inl ⟨c', .inr (.inr hc'), hls⟩
        · rintro (⟨c', hc' | ⟨rfl, rfl⟩ | hc', hls⟩ | ⟨rfl, rfl⟩)
          · exact ⟨c', .inl hc', hls⟩
          · exact ⟨_, .inr (.inl ⟨rfl, rfl⟩), (ih _ ls).mpr (.inl hls)⟩
          · exact ⟨c', .inr (.inr hc'), hls⟩
          · exact ⟨_, .inr (.inl ⟨rfl, rfl⟩), (ih _ _).mpr (.inr rfl)⟩
      · rw [hm']
        simp only [mem_append, mem_singleton, Prod.mk.injEq, cons.injEq]
        constructor
        · rintro ⟨c', hc' | ⟨rfl, rfl⟩, hls⟩
          · exact .inl ⟨c', hc', hls⟩
          · exact .inr ⟨rfl, ((ih _ ls).mp hls).resolve_left (not_stores_newNode ls)⟩
        · rintro (⟨c', hc', hls⟩ | ⟨rfl, rfl⟩)
          · exact ⟨c', .inl hc', hls⟩
          · exact ⟨_, .inr ⟨rfl, rfl⟩, (ih _ _).mpr (.inr rfl)⟩

/-! ### What is visited -/

/-- What a visit of children calls the function with. -/
def VisitedFrom (children : List (GoString × Node T)) (items : List GoString)
    (domain : GoString) : Prop :=
  ∃ key child path, (key, child) ∈ children ∧ child.Stores path ∧
    domain = joinDomain (path.reverse ++ key :: items)

theorem visitedFrom_cons {p : GoString × Node T} {children : List (GoString × Node T)} :
    VisitedFrom (p :: children) items domain ↔
      VisitedFrom [p] items domain ∨ VisitedFrom children items domain := by
  simp only [VisitedFrom, mem_cons, not_mem_nil, or_false]
  constructor
  · rintro ⟨key, child, path, hmem | hmem, h⟩
    · exact .inl ⟨key, child, path, hmem, h⟩
    · exact .inr ⟨key, child, path, hmem, h⟩
  · rintro (⟨key, child, path, hmem, h⟩ | ⟨key, child, path, hmem, h⟩)
    · exact ⟨key, child, path, .inl hmem, h⟩
    · exact ⟨key, child, path, .inr hmem, h⟩

/-- A child is visited at its own domain, if it has data, and then at those below it. -/
theorem visitedFrom_singleton {key : GoString} {child : Node T} :
    VisitedFrom [(key, child)] items domain ↔
      child.data.isSome ∧ domain = joinDomain (key :: items) ∨
        VisitedFrom child.getChildren (key :: items) domain := by
  simp only [VisitedFrom, mem_singleton, Prod.mk.injEq]
  constructor
  · rintro ⟨key', child', path, ⟨rfl, rfl⟩, hstores, rfl⟩
    cases path with
    | nil => exact .inl ⟨hstores, rfl⟩
    | cons l ls =>
      obtain ⟨c, hc, hstores⟩ := hstores
      exact .inr ⟨l, c, ls, hc, hstores, by simp⟩
  · rintro (⟨hdata, rfl⟩ | ⟨l, c, ls, hc, hstores, rfl⟩)
    · exact ⟨key, child, [], ⟨rfl, rfl⟩, hdata, rfl⟩
    · exact ⟨key, child, l :: ls, ⟨rfl, rfl⟩, ⟨c, hc, hstores⟩, by simp⟩

theorem mem_isEmpty (child : Node T) (domain d : GoString) :
    d ∈ (if isEmpty (some child) then [] else [domain]) ↔ child.data.isSome ∧ d = domain := by
  cases h : child.data <;> simp [isEmpty, h]

theorem mem_visit {key : GoString} {child : Node T} {below : List GoString}
    (h : domain ∈ below ↔ VisitedFrom child.getChildren (key :: items) domain) :
    domain ∈ visit items key child below ↔ VisitedFrom [(key, child)] items domain := by
  rw [visit, mem_append, mem_isEmpty, h, visitedFrom_singleton]

-- one theorem for each of the three functions, along their recursion
mutual
theorem mem_recursion (items : List GoString) (domain : GoString) :
    ∀ n : Node T, domain ∈ n.recursion items ↔ VisitedFrom n.getChildren items domain
  | .leaf _ => by simp [recursion, VisitedFrom, getChildren]
  | .single childStr childNode _ => by
    rw [recursion]
    exact mem_visit (mem_recursion (childStr :: items) domain childNode)
  | .table childMap _ => by
    rw [recursion]
    exact mem_recursionMap items domain childMap

theorem mem_recursionPair (items : List GoString) (domain : GoString) :
    ∀ p : GoString × Node T, domain ∈ recursionPair items p ↔ VisitedFrom [p] items domain
  | (key, child) => by
    rw [recursionPair]
    exact mem_visit (mem_recursion (key :: items) domain child)

theorem mem_recursionMap (items : List GoString) (domain : GoString) :
    ∀ childMap : List (GoString × Node T),
      domain ∈ recursionMap items childMap ↔ VisitedFrom childMap items domain
  | [] => by simp [recursionMap, VisitedFrom]
  | p :: childMap => by
    rw [recursionMap, mem_append, mem_recursionPair items domain p,
      mem_recursionMap items domain childMap, ← visitedFrom_cons]
end

end Node

namespace DomainTrie

/-- `Foreach` visits the label sequences that are stored. -/
theorem mem_foreach (t : DomainTrie T) (domain : GoString) :
    domain ∈ t.foreach ↔
      ∃ path, path ≠ [] ∧ t.root.Stores path ∧ domain = joinDomain path.reverse := by
  have hchild : ∀ key child, domain ∈ (Node.recursion [key] child ++
      if Node.isEmpty (some child) then [] else [joinDomain [key]]) ↔
      Node.VisitedFrom [((key, child) : GoString × Node T)] [] domain := by
    intro key child
    rw [mem_append, Node.mem_isEmpty, Node.mem_recursion, or_comm, Node.visitedFrom_singleton]
  simp only [foreach, mem_flatMap]
  constructor
  · rintro ⟨⟨key, child⟩, hmem, h⟩
    obtain ⟨key', child', path, hmem', hstores, hdomain⟩ := (hchild key child).mp h
    cases mem_singleton.mp hmem'
    exact ⟨key :: path, by simp, ⟨child, hmem, hstores⟩, by simpa using hdomain⟩
  · rintro ⟨path, hne, hstores, hdomain⟩
    cases path with
    | nil => exact absurd rfl hne
    | cons key path =>
      obtain ⟨child, hmem, hstores⟩ := hstores
      exact ⟨(key, child), hmem, (hchild key child).mpr
        ⟨key, child, path, mem_singleton_self _, hstores, by simpa using hdomain⟩⟩

theorem stores_insertOrSkip (t : DomainTrie T) (e : GoString × T) (path : List GoString) :
    (t.insertOrSkip e).root.Stores path ↔ t.root.Stores path ∨ path ∈ storedPaths e.1 := by
  unfold insertOrSkip storedPaths insert
  cases hparts : validAndSplitDomain e.1 with
  | error err => simp
  | ok parts =>
    by_cases hplus : parts.head? = some complexWildcard
    · simp only [paths, if_pos hplus, insertParts, Node.stores_insertPath, mem_pair, or_assoc]
    · simp only [paths, if_neg hplus, insertParts, Node.stores_insertPath, mem_singleton]

theorem stores_insertAll (entries : List (GoString × T)) (path : List GoString) :
    (insertAll entries).root.Stores path ↔ ∃ e ∈ entries, path ∈ storedPaths e.1 := by
  have h : ∀ t : DomainTrie T, (entries.foldl insertOrSkip t).root.Stores path ↔
      t.root.Stores path ∨ ∃ e ∈ entries, path ∈ storedPaths e.1 := by
    induction entries with
    | nil => simp
    | cons e entries ih =>
      intro t
      rw [foldl_cons, ih, stores_insertOrSkip, exists_mem_cons_iff, or_assoc]
  exact (h new).trans (or_iff_right (Node.not_stores_newNode path))

/-- After any calls of `Insert`, `Foreach` visits what the accepted patterns are stored under. -/
theorem mem_foreach_insertAll (entries : List (GoString × T)) (domain : GoString) :
    domain ∈ (insertAll entries).foreach ↔
      ∃ e ∈ entries, ∃ path ∈ storedPaths e.1, domain = joinDomain path.reverse := by
  rw [mem_foreach]
  constructor
  · rintro ⟨path, -, hstores, rfl⟩
    obtain ⟨e, he, hpath⟩ := (stores_insertAll entries path).mp hstores
    exact ⟨e, he, path, hpath, rfl⟩
  · rintro ⟨e, he, path, hpath, rfl⟩
    exact ⟨path, (pathOk_of_mem_storedPaths hpath).2.1,
      (stores_insertAll entries path).mpr ⟨e, he, hpath⟩, rfl⟩

end DomainTrie

/-! ### The same set -/

/-- The key of a visited domain is the one that a builder makes of its labels. -/
theorem setKey_joinDomain {path : List GoString} (hok : PathOk path) (hne : path ≠ [])
    (hdot : path ≠ [dotWildcard]) : setKey (joinDomain path.reverse) = some (spell path) := by
  obtain ⟨p, ps, hparts⟩ := exists_cons_of_ne_nil (reverse_ne_nil_iff.mpr hne)
  have hpath : path = (p :: ps).reverse := by rw [← hparts, List.reverse_reverse]
  have htail : ∀ l ∈ (p :: ps).tail, l ≠ dotWildcard := by
    intro l hl
    refine hok.dots l ?_
    rw [hpath, dropLast_reverse]
    exact mem_reverse.mpr hl
  have hkey := key_insertParts (cons_ne_nil p ps) htail ⟨[]⟩
  rw [← hpath] at hkey
  have hspell : spell path = reverse (joinDomain
      (if p = dotWildcard then complexWildcard :: ps else p :: ps)) := by
    have := singleton_inj.mp hkey
    rw [← this]
    simp only [head?_cons, Option.some.injEq, tail_cons]
    rfl
  rw [hparts, hspell]
  by_cases hp : p = dotWildcard
  · -- the domain begins with a dot, and the key with `+`
    rw [if_pos hp, hp]
    cases ps with
    | nil => exact absurd (by rw [hpath, hp]; rfl) hdot
    | cons q qs => rw [joinDomain, joinDomain, join_cons_cons, join_cons_cons]; rfl
  · rw [if_neg hp]
    obtain ⟨b, rest, rfl⟩ := exists_cons_of_ne_nil hp
    have hb : b ≠ domainStepByte := by
      rintro rfl
      refine (hok.labels (domainStepByte :: rest) ?_).no_step mem_cons_self
      rw [hpath]
      simp
    have hhead : ∃ more, joinDomain ((b :: rest) :: ps) = b :: more := by
      cases ps with
      | nil => exact ⟨rest, join_singleton _ _⟩
      | cons q qs => exact ⟨_, join_cons_cons _ _ _ _⟩
    obtain ⟨more, hmore⟩ := hhead
    rw [setKey, hmore, head?_cons, Option.map_some, if_neg hb]

/-- A set depends on which keys there are, not on their order and number. -/
theorem buildDomainSet_congr {keys keys' : List GoString} (h : ∀ key, key ∈ keys ↔ key ∈ keys') :
    buildDomainSet keys = buildDomainSet keys' := by
  have hsorted : sortedKeys keys = sortedKeys keys' :=
    (pairwise_sortedKeys keys).eq_of_mem_iff (pairwise_sortedKeys keys') fun key => by
      rw [mem_sortedKeys, mem_sortedKeys, h]
  have hnil : keys = [] ↔ keys' = [] := by
    rw [eq_nil_iff_forall_not_mem, eq_nil_iff_forall_not_mem]
    exact forall_congr' fun key => not_congr (h key)
  simp only [buildDomainSet, hsorted, hnil]

/-- A trie and a builder make the same set of the same patterns. -/
theorem DomainTrie.newDomainSet_insertAll (entries : List (GoString × T)) :
    (insertAll entries).newDomainSet =
      (DomainSetBuilder.insertAll (entries.map Prod.fst)).build := by
  have hkeys : ∀ domain ∈ (insertAll entries).foreach,
      setKey domain = some ((setKey domain).getD []) := by
    intro domain hdomain
    obtain ⟨path, hne, hstores, rfl⟩ := (mem_foreach _ _).mp hdomain
    obtain ⟨e, -, hpath⟩ := (stores_insertAll _ _).mp hstores
    obtain ⟨hok, -, hdot⟩ := pathOk_of_mem_storedPaths hpath
    rw [setKey_joinDomain hok hne hdot]
    rfl
  rw [newDomainSet, mapM_eq_pure hkeys, Option.pure_def, Option.bind_some, DomainSetBuilder.build]
  congr 1
  refine buildDomainSet_congr fun key => ?_
  rw [keys_insertAll, mem_map, mem_flatMap]
  constructor
  · rintro ⟨domain, hdomain, rfl⟩
    obtain ⟨path, hne, hstores, rfl⟩ := (mem_foreach _ _).mp hdomain
    obtain ⟨e, he, hpath⟩ := (stores_insertAll _ _).mp hstores
    refine ⟨e.1, mem_map_of_mem he, mem_map.mpr ⟨path, hpath, ?_⟩⟩
    obtain ⟨hok, -, hdot⟩ := pathOk_of_mem_storedPaths hpath
    rw [setKey_joinDomain hok hne hdot]
    rfl
  · rintro ⟨pattern, hpattern, hkey⟩
    obtain ⟨e, he, rfl⟩ := mem_map.mp hpattern
    obtain ⟨path, hpath, rfl⟩ := mem_map.mp hkey
    obtain ⟨hok, hne, hdot⟩ := pathOk_of_mem_storedPaths hpath
    refine ⟨joinDomain path.reverse, (mem_foreach _ _).mpr
      ⟨path, hne, (stores_insertAll _ _).mpr ⟨e, he, hpath⟩, rfl⟩, ?_⟩
    rw [setKey_joinDomain hok hne hdot]
    rfl

end Hako.Trie
