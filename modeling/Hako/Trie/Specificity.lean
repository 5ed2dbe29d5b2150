import Hako.Trie.Node

/-!
# What a search returns

A pattern matches a query label by label from the right: `*` matches one label, the suffix
wildcard all that is left, any other label itself. Among the patterns that match, the more
specific one is the one with the better label at the rightmost place where they differ, an
exact label being better than `*` and `*` better than the suffix wildcard. The backtracking
search of the trie finds exactly the most specific match, and the trie keeps the last value
inserted under each pattern.
-/

namespace Hako.Trie

open GoLib

variable {T : Type*}

/-- A stored sequence of labels matches the labels of a query, both read from the right. -/
def Matches : List GoString → List GoString → Prop
  | [], [] => True
  | [], _ :: _ => False
  | _ :: _, [] => False
  | p :: ps, q :: qs =>
    (p = dotWildcard ∧ ps = []) ∨ ((p = wildcard ∨ p = q) ∧ Matches ps qs)

/-- The rank of a label: exact, then `*`, then the suffix wildcard. -/
def kind (l : GoString) : Nat :=
  if l = dotWildcard then 0 else if l = wildcard then 1 else 2

/-- How specific a sequence of labels is, from the right; compared lexicographically. -/
def kinds (p : List GoString) : List Nat := p.map kind

variable {l q : GoString} {p' p qs : List GoString} {V : List GoString → Option T} {v : T}

@[simp] theorem kind_dotWildcard : kind dotWildcard = 0 := rfl

@[simp] theorem kind_wildcard : kind wildcard = 1 := rfl

theorem kind_exact (h₁ : l ≠ dotWildcard) (h₂ : l ≠ wildcard) : kind l = 2 := by
  simp [kind, h₁, h₂]

theorem kind_pos (h : l ≠ dotWildcard) : 1 ≤ kind l := by
  rw [kind, if_neg h]
  split <;> omega

theorem kinds_cons_le {l' : GoString} :
    kinds (l :: p) ≤ kinds (l' :: p') ↔ kind l < kind l' ∨ kind l = kind l' ∧ kinds p ≤ kinds p' := by
  change kind l :: kinds p ≤ kind l' :: kinds p' ↔ _
  rw [le_iff_lt_or_eq, List.cons_lt_cons_iff, List.cons.injEq, le_iff_lt_or_eq, and_or_left,
    or_assoc]

/-- A sequence stored in `V` that matches the query and is at least as specific as every
other one that does. -/
structure IsMostSpecific (V : List GoString → Option T) (qs p : List GoString) : Prop where
  stored : (V p).isSome
  hits : Matches p qs
  best : ∀ p', (V p').isSome → Matches p' qs → kinds p' ≤ kinds p

/-- Whatever matches is found. -/
theorem bestValue_isSome (hV : (V p).isSome) (h : Matches p qs) : (bestValue V qs).isSome := by
  induction qs generalizing V p with
  | nil =>
    cases p with
    | nil => exact hV
    | cons l p => exact h.elim
  | cons q qs ih =>
    cases p with
    | nil => exact h.elim
    | cons l p =>
      simp only [bestValue, Option.orElse_eq_orElse, Option.orElse_eq_or, Option.isSome_or,
        Bool.or_eq_true]
      rcases h with ⟨rfl, rfl⟩ | ⟨rfl | rfl, h⟩
      · exact Or.inr (Or.inr hV)
      · exact Or.inr (Or.inl (ih (V := below V _) hV h))
      · exact Or.inl (ih (V := below V _) hV h)

/-- Matching a query that starts with the label `q`, sorted by the first stored label. -/
theorem matches_cons_cases (h : Matches p (q :: qs)) :
    p = [dotWildcard] ∨ (∃ ps, p = wildcard :: ps ∧ Matches ps qs) ∨
      ∃ ps, p = q :: ps ∧ Matches ps qs := by
  cases p with
  | nil => exact h.elim
  | cons l p =>
    rcases h with ⟨rfl, rfl⟩ | ⟨rfl | rfl, h⟩
    · exact Or.inl rfl
    · exact Or.inr (Or.inl ⟨p, rfl, h⟩)
    · exact Or.inr (Or.inr ⟨p, rfl, h⟩)

section

variable (hqs : ∀ q ∈ qs, q ≠ dotWildcard)
include hqs

/-- The search returns the value of a most specific match. -/
theorem bestValue_spec (h : bestValue V qs = some v) :
    ∃ p, V p = some v ∧ IsMostSpecific V qs p := by
  induction qs generalizing V with
  | nil =>
    refine ⟨[], h, ⟨by rw [show V [] = some v from h]; rfl, trivial, ?_⟩⟩
    intro p' _ hp'
    cases p' with
    | nil => exact le_refl _
    | cons l p' => exact hp'.elim
  | cons q qs ih =>
    have hq : q ≠ dotWildcard := hqs q List.mem_cons_self
    have hqs' : ∀ q ∈ qs, q ≠ dotWildcard := fun q' hq' => hqs q' (List.mem_cons_of_mem _ hq')
    have hnone : ∀ {l}, bestValue (below V l) qs = none →
        ∀ ps, (V (l :: ps)).isSome → ¬ Matches ps qs := fun hbelow ps hV hps => by
      simpa [hbelow] using bestValue_isSome (V := below V _) hV hps
    rw [bestValue] at h
    cases hexact : bestValue (below V q) qs with
    | some w =>
      rw [hexact] at h
      obtain rfl : w = v := by simpa using h
      obtain ⟨p, hp, hbest⟩ := ih hqs' hexact
      refine ⟨q :: p, hp, ⟨hbest.stored, Or.inr ⟨Or.inr rfl, hbest.hits⟩, ?_⟩⟩
      intro p' hV' hp'
      rcases matches_cons_cases hp' with rfl | ⟨ps, rfl, hps⟩ | ⟨ps, rfl, hps⟩
      · exact kinds_cons_le.mpr (Or.inl (by have := kind_pos hq; simp; omega))
      · -- a `*` label is worse than the exact one, unless the query's label is `*` itself
        by_cases hstar : q = wildcard
        · subst hstar
          exact kinds_cons_le.mpr (Or.inr ⟨rfl, hbest.best ps hV' hps⟩)
        · exact kinds_cons_le.mpr (Or.inl (by rw [kind_exact hq hstar]; simp))
      · exact kinds_cons_le.mpr (Or.inr ⟨rfl, hbest.best ps hV' hps⟩)
    | none =>
      rw [hexact] at h
      cases hstar : bestValue (below V wildcard) qs with
      | some w =>
        rw [hstar] at h
        obtain rfl : w = v := by simpa using h
        obtain ⟨p, hp, hbest⟩ := ih hqs' hstar
        refine ⟨wildcard :: p, hp, ⟨hbest.stored, Or.inr ⟨Or.inl rfl, hbest.hits⟩, ?_⟩⟩
        intro p' hV' hp'
        rcases matches_cons_cases hp' with rfl | ⟨ps, rfl, hps⟩ | ⟨ps, rfl, hps⟩
        · exact kinds_cons_le.mpr (Or.inl (by simp))
        · exact kinds_cons_le.mpr (Or.inr ⟨rfl, hbest.best ps hV' hps⟩)
        · exact absurd hps (hnone hexact ps hV')
      | none =>
        rw [hstar] at h
        have hdot : V [dotWildcard] = some v := by simpa using h
        refine ⟨[dotWildcard], hdot, ⟨by simp [hdot], Or.inl ⟨rfl, rfl⟩, ?_⟩⟩
        intro p' hV' hp'
        rcases matches_cons_cases hp' with rfl | ⟨ps, rfl, hps⟩ | ⟨ps, rfl, hps⟩
        · exact le_refl _
        · exact absurd hps (hnone hstar ps hV')
        · exact absurd hps (hnone hexact ps hV')

/-- A search finds something exactly if something stored matches. -/
theorem bestValue_isSome_iff :
    (bestValue V qs).isSome ↔ ∃ p, (V p).isSome ∧ Matches p qs := by
  constructor
  · intro h
    obtain ⟨v, hv⟩ := Option.isSome_iff_exists.mp h
    obtain ⟨p, -, hbest⟩ := bestValue_spec hqs hv
    exact ⟨p, hbest.stored, hbest.hits⟩
  · rintro ⟨p, hV, h⟩
    exact bestValue_isSome hV h

/-- Two sequences that match one query and are equally specific are the same sequence. -/
theorem Matches.eq_of_kinds (h : Matches p qs)
    (h' : Matches p' qs) (hk : kinds p = kinds p') : p = p' := by
  induction qs generalizing p p' with
  | nil => cases p <;> cases p' <;> first | rfl | exact h.elim | exact h'.elim
  | cons q qs ih =>
    have hq := hqs q List.mem_cons_self
    have ih' := fun {p p'} => @ih p p' fun q' hq' => hqs q' (List.mem_cons_of_mem _ hq')
    have hkq := kind_pos hq
    have hwild : kind q = 1 → q = wildcard := fun hone => by
      by_contra hne
      have := kind_exact hq hne
      omega
    rcases matches_cons_cases h with rfl | ⟨ps, rfl, hps⟩ | ⟨ps, rfl, hps⟩ <;>
      rcases matches_cons_cases h' with rfl | ⟨ps', rfl, hps'⟩ | ⟨ps', rfl, hps'⟩ <;>
      simp only [kinds, List.map_cons, List.map_nil, List.cons.injEq, kind_dotWildcard,
        kind_wildcard] at hk
    · rfl
    · omega
    · omega
    · omega
    · rw [ih' hps hps' hk.2]
    · obtain rfl := hwild (by omega)
      rw [ih' hps hps' hk.2]
    · omega
    · obtain rfl := hwild (by omega)
      rw [ih' hps hps' hk.2]
    · rw [ih' hps hps' hk.2]

/-- There is one most specific match at most. -/
theorem IsMostSpecific.unique (h : IsMostSpecific V qs p) (h' : IsMostSpecific V qs p') : p = p' :=
  h.hits.eq_of_kinds hqs h'.hits
    (le_antisymm (h'.best p h.stored h.hits) (h.best p' h'.stored h'.hits))

end

/-! ### Tries built by insertion -/

/-- The label sequences an accepted pattern is stored under; none for a rejected text. -/
def storedPaths (pattern : GoString) : List (List GoString) :=
  match validAndSplitDomain pattern with
  | .ok parts => DomainTrie.paths parts
  | .error _ => []

/-- Whether a pattern matches the labels of a query, given from the right. -/
def PatternMatches (pattern : GoString) (qs : List GoString) : Prop :=
  ∃ path ∈ storedPaths pattern, Matches path qs

/-- One call of `Insert`; a rejected pattern leaves the trie as it was. -/
def DomainTrie.insertOrSkip (t : DomainTrie T) (e : GoString × T) : DomainTrie T :=
  match t.insert e.1 e.2 with
  | .ok t' => t'
  | .error _ => t

open DomainTrie

/-- The trie after a sequence of calls of `Insert`. -/
def DomainTrie.insertAll (entries : List (GoString × T)) : DomainTrie T :=
  entries.foldl insertOrSkip .new

/-- The last value inserted under a label sequence. -/
def lastValue (entries : List (GoString × T)) (path : List GoString) : Option T :=
  (entries.reverse.find? fun e => path ∈ storedPaths e.1).map Prod.snd

theorem DomainTrie.value_insertOrSkip (t : DomainTrie T) (e : GoString × T) (path : List GoString) :
    (t.insertOrSkip e).value path =
      if path ∈ storedPaths e.1 then some e.2 else t.value path := by
  unfold insertOrSkip storedPaths
  cases hparts : validAndSplitDomain e.1 with
  | error err => simp [insert, hparts]
  | ok parts =>
    obtain ⟨t', ht', hvalue⟩ := t.value_insert e.2 hparts
    rw [ht']
    exact hvalue path

theorem lastValue_concat (entries : List (GoString × T)) (e : GoString × T) (path : List GoString) :
    lastValue (entries ++ [e]) path =
      if path ∈ storedPaths e.1 then some e.2 else lastValue entries path := by
  by_cases h : path ∈ storedPaths e.1 <;> simp [h, lastValue]

/-- A trie stores under every label sequence the last value inserted there. -/
theorem DomainTrie.value_insertAll (entries : List (GoString × T)) (path : List GoString) :
    (insertAll entries).value path = lastValue entries path := by
  induction entries using List.reverseRecOn with
  | nil => simp [insertAll, lastValue]
  | append_singleton entries e ih =>
    rw [insertAll, List.foldl_append, List.foldl_cons, List.foldl_nil, value_insertOrSkip,
      ← insertAll, ih, lastValue_concat]

variable {path : List GoString}

theorem lastValue_isSome_iff {entries : List (GoString × T)} :
    (lastValue entries path).isSome ↔ ∃ e ∈ entries, path ∈ storedPaths e.1 := by
  simp [lastValue]

theorem mem_of_lastValue {entries : List (GoString × T)}
    (h : lastValue entries path = some v) : ∃ e ∈ entries, e.2 = v := by
  obtain ⟨e, he, rfl⟩ := Option.map_eq_some_iff.mp h
  exact ⟨e, List.mem_reverse.mp (List.mem_of_find?_eq_some he), rfl⟩

/-- Every label of an accepted query with a non-empty first label is non-empty. -/
theorem query_labels_ne (hq : validAndSplitDomain q = .ok qs) (hfirst : qs.head? ≠ some []) :
    ∀ l ∈ qs.reverse, l ≠ dotWildcard := by
  have hvalid := (validAndSplitDomain_ok hq).2
  intro l hl
  cases qs with
  | nil => simp at hl
  | cons first rest =>
    rcases List.mem_cons.mp (List.mem_reverse.mp hl) with rfl | hl
    · simpa [dotWildcard] using hfirst
    · exact hvalid.tail_ne_nil l hl

/-- What a lookup finds is one of the values. -/
theorem exists_of_lookup {domain : GoString} (h : lookup V domain = some v) :
    ∃ path, V path = some v := by
  unfold lookup at h
  split at h
  · cases h
  · rename_i parts hparts
    split at h
    · cases h
    · rename_i hfirst
      obtain ⟨path, hpath, -⟩ := bestValue_spec (query_labels_ne hparts hfirst) h
      exact ⟨path, hpath⟩

theorem DomainTrie.isSome_search_iff {t : DomainTrie T} (hq : validAndSplitDomain q = .ok qs)
    (hfirst : qs.head? ≠ some []) :
    (t.search q).isSome ↔ ∃ path, (t.value path).isSome ∧ Matches path qs.reverse := by
  rw [← bestValue_isSome_iff (query_labels_ne hq hfirst), ← search_eq hq hfirst]
  cases hsearch : t.search q with
  | none => rfl
  | some n => simp [isSome_search hsearch]

/-- For any sequence of insertions, optimized afterwards or not, an accepted query with a
non-empty first label is found exactly when some inserted pattern matches it, and the node
found holds the last value inserted under the most specific one. -/
theorem search_mostSpecific (entries : List (GoString × T)) (optimized : Bool)
    {q : GoString} {qs : List GoString} (hq : validAndSplitDomain q = .ok qs)
    (hfirst : qs.head? ≠ some []) :
    let t := if optimized then (insertAll entries).optimize
      else insertAll entries
    ((t.search q).isSome ↔ ∃ e ∈ entries, PatternMatches e.1 qs.reverse) ∧
      ∀ n, t.search q = some n →
        ∃ path, IsMostSpecific (lastValue entries) qs.reverse path ∧
          n.data = lastValue entries path := by
  intro t
  have hlabels := query_labels_ne hq hfirst
  have hvalue : t.value = lastValue entries := by
    funext path
    cases optimized <;> simp [t, value_insertAll]
  have hsearch : (t.search q).bind Node.data = bestValue (lastValue entries) qs.reverse := by
    rw [search_eq hq hfirst, hvalue]
  constructor
  · rw [isSome_search_iff hq hfirst, hvalue]
    constructor
    · rintro ⟨path, hstored, hmatch⟩
      obtain ⟨e, he, hpath⟩ := lastValue_isSome_iff.mp hstored
      exact ⟨e, he, path, hpath, hmatch⟩
    · rintro ⟨e, he, path, hpath, hmatch⟩
      exact ⟨path, lastValue_isSome_iff.mpr ⟨e, he, hpath⟩, hmatch⟩
  · intro n hn
    obtain ⟨v, hv⟩ := Option.isSome_iff_exists.mp (isSome_search hn)
    rw [hn, Option.bind_some, hv] at hsearch
    obtain ⟨path, hpath, hbest⟩ := bestValue_spec hlabels hsearch.symm
    exact ⟨path, hbest, by rw [hv, hpath]⟩

theorem search_mostSpecific_example :
    let t := (insertAll [(lit "+.com", 1), (lit "*.Com", 2), (lit "*.com", 3)]).optimize
    ((t.search (lit "A.com")).isSome ↔
        ∃ e ∈ [(lit "+.com", 1), (lit "*.Com", 2), (lit "*.com", 3)],
          PatternMatches e.1 [lit "com", lit "a"]) ∧
      ∀ n, t.search (lit "A.com") = some n →
        ∃ path, IsMostSpecific
            (lastValue [(lit "+.com", 1), (lit "*.Com", 2), (lit "*.com", 3)])
            [lit "com", lit "a"] path ∧
          n.data = lastValue [(lit "+.com", 1), (lit "*.Com", 2), (lit "*.com", 3)] path :=
  have hq : validAndSplitDomain (lit "A.com") = .ok [lit "a", lit "com"] := by decide +kernel
  search_mostSpecific [(lit "+.com", 1), (lit "*.Com", 2), (lit "*.com", 3)] true hq (by decide)

end Hako.Trie
