import Hako.Trie.TreeWalk
import Hako.Trie.Keys

/-!
# `Has` against `Search`

The walk of `Has` on a built set, label by label. At a node it tries the label of the query, `*`
and the suffix wildcard, as `Search` does, with one exception: when the last byte of the query's
label is below `*` and some stored label at this node ends with the same byte, only the label
itself is tried. The wildcards are shadowed there. So `Has` and `Search` agree on a query exactly
if nothing stored matches it, or something stored matches it without a shadowed wildcard.
-/

namespace Hako.Trie

open GoLib Lib List DomainSetBuilder

/-- The sequences behind the label `l`. -/
def behind (V : List GoString → Prop) (l : GoString) : List GoString → Prop :=
  fun path => V (l :: path)

/-- The byte of a label that the walk reads first: its last one, or the first of its last rune. -/
def entryByte (label : GoString) : Option UInt8 := (labelKey label).head?

/-- Among the sequences `V` some label begins for the walk like `q`, with a byte below `*`. -/
def Shadowed (V : List GoString → Prop) (q : GoString) : Prop :=
  ∃ c < wildcardByte, entryByte q = some c ∧ ∃ l path, V (l :: path) ∧ entryByte l = some c

/-- The walk of `Has`, label by label. -/
def Finds : (List GoString → Prop) → List GoString → Prop
  | V, [] => V []
  | V, q :: qs =>
    (Shadowed V q ∧ Finds (behind V q) qs) ∨
      (¬ Shadowed V q ∧ (V [dotWildcard] ∨ Finds (behind V q) qs ∨ Finds (behind V wildcard) qs))

/-- Where the sequence uses a wildcard for a label of the query, this wildcard is not shadowed by
the sequences of `V` that agree with it up to there. -/
def Unshadowed : (List GoString → Prop) → List GoString → List GoString → Prop
  | V, l :: path, q :: qs => (l ≠ q → ¬ Shadowed V q) ∧ Unshadowed (behind V l) path qs
  | _, _, _ => True

/-! ### Labels -/

variable {qs : List GoString} {S : GoString → Prop} {x l q : GoString}

theorem exists_of_finds {V : List GoString → Prop} (h : Finds V qs) : ∃ path, V path := by
  induction qs generalizing V with
  | nil => exact ⟨[], h⟩
  | cons q qs ih =>
    have hbehind : ∀ {l}, Finds (behind V l) qs → ∃ path, V path := fun h =>
      (ih h).imp' _ fun _ hpath => hpath
    rcases h with ⟨-, h⟩ | ⟨-, h | h | h⟩
    · exact hbehind h
    · exact ⟨_, h⟩
    · exact hbehind h
    · exact hbehind h

/-- The walk finds what matches without a shadowed wildcard. -/
theorem finds_iff {V : List GoString → Prop} (hqs : ∀ q ∈ qs, q ≠ dotWildcard) :
    Finds V qs ↔ ∃ path, V path ∧ Matches path qs ∧ Unshadowed V path qs := by
  induction qs generalizing V with
  | nil =>
    constructor
    · intro h
      exact ⟨[], h, trivial, trivial⟩
    · rintro ⟨path, h, hmatch, -⟩
      cases path with
      | nil => exact h
      | cons l path => exact hmatch.elim
  | cons q qs ih =>
    obtain ⟨hq, hqs⟩ := forall_mem_cons.mp hqs
    replace ih := fun {V} => @ih V hqs
    constructor
    · intro h
      -- through the label itself nothing can be shadowed
      have hexact : Finds (behind V q) qs →
          ∃ path, V path ∧ Matches path (q :: qs) ∧ Unshadowed V path (q :: qs) := by
        intro h
        obtain ⟨path, hV, hmatch, hfree⟩ := ih.mp h
        exact ⟨q :: path, hV, .inr ⟨.inr rfl, hmatch⟩, fun hne => absurd rfl hne, hfree⟩
      rcases h with ⟨-, h⟩ | ⟨hnot, h | h | h⟩
      · exact hexact h
      · exact ⟨[dotWildcard], h, .inl ⟨rfl, rfl⟩, fun _ => hnot, trivial⟩
      · exact hexact h
      · obtain ⟨path, hV, hmatch, hfree⟩ := ih.mp h
        exact ⟨wildcard :: path, hV, .inr ⟨.inl rfl, hmatch⟩, fun _ => hnot, hfree⟩
    · rintro ⟨path, hV, hmatch, hfree⟩
      by_cases hshadow : Shadowed V q
      · -- only the label itself is left
        refine .inl ⟨hshadow, ih.mpr ?_⟩
        cases path with
        | nil => exact hmatch.elim
        | cons l path =>
          obtain rfl : l = q := by
            by_contra hne
            exact hfree.1 hne hshadow
          rcases hmatch with ⟨hdot, -⟩ | ⟨-, hmatch⟩
          · exact absurd hdot hq
          · exact ⟨path, hV, hmatch, hfree.2⟩
      · refine .inr ⟨hshadow, ?_⟩
        rcases matches_cons_cases hmatch with rfl | ⟨rest, rfl, hrest⟩ | ⟨rest, rfl, hrest⟩
        · exact .inl hV
        · exact .inr (.inr (ih.mpr ⟨rest, hV, hrest, hfree.2⟩))
        · exact .inr (.inl (ih.mpr ⟨rest, hV, hrest, hfree.2⟩))

/-! ### Bytes -/

/-- The keys of the sequences. -/
def KeySet (V : List GoString → Prop) (key : GoString) : Prop :=
  ∃ path, path ≠ [] ∧ V path ∧ spell path = key

theorem exists_of_accepts {w : GoString} (h : Accepts S w) : ∃ v, S v := by
  cases w with
  | nil => exact ⟨_, h⟩
  | cons c w =>
    rw [accepts_cons] at h
    rcases h with ⟨-, ⟨v, h⟩, -⟩ | ⟨-, ⟨v, h⟩ | ⟨-, ⟨v, h⟩, -⟩ | ⟨⟨v, h⟩, -⟩⟩
    all_goals exact ⟨_, h⟩

theorem hasEdge_and_accepts {c : UInt8} {w : GoString} :
    HasEdge S c ∧ Accepts (after S c) w ↔ Accepts (after S c) w :=
  and_iff_right_of_imp exists_of_accepts

/-- Where no wildcard follows, the walk goes on with the byte of the key. -/
theorem accepts_of_plain (hstar : ¬ HasEdge S wildcardByte)
    (hplus : ¬ HasEdge S complexWildcardByte) (c : UInt8) (w : GoString) :
    Accepts S (c :: w) ↔ Accepts (after S c) w := by
  rw [accepts_cons, ← hasEdge_and_accepts]
  rcases byte_cases c with hc | rfl | rfl | hc
  · by_cases hE : HasEdge S c
    · simp [hc, hE]
    · simp [hE, hstar, hplus]
  · simp [hstar, hplus]
  · simp [hstar, hplus]
  · have hnot : ¬ c < wildcardByte := fun h => by
      have := Std.lt_trans hc h
      exact absurd this (by decide)
    simp [hc, hnot, hstar, hplus]

variable {V : List GoString → Prop}

section

variable (hV : ∀ path, V path → PathOk path)
include hV

theorem plain_inside (hx : x ≠ [])
    (hstep : domainStepByte ∉ x) {b : UInt8} (hb : b = wildcardByte ∨ b = complexWildcardByte) :
    ¬ HasEdge (fun v => KeySet V (x ++ v)) b := by
  rintro ⟨rest, path, hne, hpath, hkey⟩
  exact no_wildcard_of_spell hne (hV path hpath) hx hstep hb hkey

/-- Inside a label the walk goes along it. -/
theorem accepts_along {y : GoString} (hx : x ≠ [])
    (hstep : domainStepByte ∉ x ++ y) (w : GoString) :
    Accepts (fun v => KeySet V (x ++ v)) (y ++ w) ↔
      Accepts (fun v => KeySet V (x ++ y ++ v)) w := by
  induction y generalizing x with
  | nil => simp
  | cons c y ih =>
    have hstep' : domainStepByte ∉ (x ++ [c]) ++ y := by simpa using hstep
    have hxstep : domainStepByte ∉ x := fun h => hstep (mem_append_left _ h)
    rw [cons_append, accepts_of_plain (plain_inside hV hx hxstep (.inl rfl))
      (plain_inside hV hx hxstep (.inr rfl))]
    have hafter : after (fun v => KeySet V (x ++ v)) c = fun v => KeySet V (x ++ [c] ++ v) := by
      funext v
      simp [after]
    rw [hafter, ih (by simp) hstep']
    simp

theorem keySet_label (hl : LabelOk l) :
    KeySet V (labelKey l) ↔ V [l] := by
  constructor
  · rintro ⟨path, hne, hpath, hkey⟩
    obtain ⟨rest, rfl, hrest⟩ := cons_of_spell hne (hV path hpath) hl
      (fun b hb => by cases hb) (hkey.trans (append_nil _).symm)
    cases rest with
    | nil => exact hpath
    | cons p ps => cases hrest
  · intro h
    exact ⟨[l], by simp, h, by simp [spell_cons, spellTail]⟩

theorem keySet_behind (hl : LabelOk l) :
    (fun v => KeySet V (labelKey l ++ domainStepByte :: v)) = KeySet (behind V l) := by
  funext v
  apply propext
  constructor
  · rintro ⟨path, hne, hpath, hkey⟩
    have hhead : ∀ b ∈ (domainStepByte :: v).head?, b = domainStepByte := by
      intro b hb
      simpa [eq_comm] using hb
    obtain ⟨rest, rfl, hrest⟩ := cons_of_spell hne (hV path hpath) hl hhead hkey
    cases rest with
    | nil => cases hrest
    | cons p ps => exact ⟨p :: ps, by simp, hpath, (List.cons.inj hrest).2⟩
  · rintro ⟨path, hne, hpath, rfl⟩
    refine ⟨l :: path, by simp, hpath, ?_⟩
    cases path with
    | nil => exact absurd rfl hne
    | cons p ps => rw [spell_cons, spellTail]

/-- Behind the key of a label the walk goes on with the other labels. -/
theorem accepts_behind (hl : LabelOk l)
    (ih : qs ≠ [] → (Accepts (KeySet (behind V l)) (spell qs) ↔ Finds (behind V l) qs)) :
    Accepts (fun v => KeySet V (labelKey l ++ v)) (spellTail qs) ↔ Finds (behind V l) qs := by
  cases qs with
  | nil =>
    rw [spellTail, Accepts, Finds, append_nil]
    exact keySet_label hV hl
  | cons q qs =>
    have hne := labelKey_ne_nil hl.utf8
    have hstep := step_not_mem_labelKey hl.no_step
    rw [spellTail, accepts_of_plain (plain_inside hV hne hstep (.inl rfl))
      (plain_inside hV hne hstep (.inr rfl)), ← ih (by simp), ← keySet_behind hV hl]
    rfl

/-- What a label of an accepted query is like. -/
structure QueryLabel (q : GoString) : Prop where
  ne_nil : q ≠ dotWildcard
  no_step : domainStepByte ∉ q
  utf8 : ValidUtf8 q
  star_whole : wildcardByte ∈ q → q = wildcard
  plus_whole : complexWildcardByte ∈ q → q = complexWildcard

theorem hasEdge_keySet {c : UInt8} :
    HasEdge (KeySet V) c ↔ ∃ l path, V (l :: path) ∧ entryByte l = some c := by
  constructor
  · rintro ⟨rest, path, hne, hpath, hkey⟩
    cases path with
    | nil => exact absurd rfl hne
    | cons l path =>
      refine ⟨l, path, hpath, ?_⟩
      have hl := labelKey_ne_nil ((hV _ hpath).labels l mem_cons_self).utf8
      rw [spell_cons] at hkey
      rw [entryByte, ← head?_append_of_ne_nil _ hl, hkey]
      rfl
  · rintro ⟨l, path, hpath, hentry⟩
    obtain ⟨y, hy⟩ := head?_eq_some_iff.mp hentry
    exact ⟨y ++ spellTail path, l :: path, by simp, hpath, by rw [spell_cons, hy]; rfl⟩

theorem hasEdge_plus :
    HasEdge (KeySet V) complexWildcardByte ↔ V [dotWildcard] := by
  rw [hasEdge_keySet hV]
  constructor
  · rintro ⟨l, path, hpath, hentry⟩
    have hok := hV _ hpath
    have hl := hok.labels l mem_cons_self
    have hdot : l = dotWildcard := by
      by_contra hne
      exact hl.no_plus ((mem_labelKey hne (by decide)).mp (mem_of_head? hentry))
    cases path with
    | nil => rwa [hdot] at hpath
    | cons p ps => exact absurd hdot (hok.dots l mem_cons_self)
  · intro h
    exact ⟨dotWildcard, [], h, rfl⟩

end

theorem jumps_along (hstep : domainStepByte ∉ x) (w : GoString) : Jumps S (x ++ w) ↔ Jumps S w := by
  induction x with
  | nil => rfl
  | cons c x ih =>
    rw [mem_cons, not_or] at hstep
    rw [cons_append, Jumps, if_neg (Ne.symm hstep.1), ih hstep.2]

/-- Behind `*` the walk goes on with the other labels. -/
theorem jumps_iff (hV : ∀ path, V path → PathOk path) (hq : domainStepByte ∉ q)
    (ih : qs ≠ [] → (Accepts (KeySet (behind V wildcard)) (spell qs) ↔ Finds (behind V wildcard) qs)) :
    HasEdge (KeySet V) wildcardByte ∧ Jumps (after (KeySet V) wildcardByte) (spell (q :: qs)) ↔
      Finds (behind V wildcard) qs := by
  have hkey : labelKey wildcard = [wildcardByte] := by decide
  have hjumps : Jumps (after (KeySet V) wildcardByte) (spell (q :: qs)) ↔
      Finds (behind V wildcard) qs := by
    rw [spell_cons, jumps_along (step_not_mem_labelKey hq)]
    cases qs with
    | nil =>
      have := keySet_label hV labelOk_wildcard
      rw [hkey] at this
      rw [spellTail, Jumps, Finds]
      exact this
    | cons p ps =>
      have := keySet_behind hV labelOk_wildcard
      rw [hkey] at this
      rw [spellTail, Jumps, if_pos rfl, hasEdge_and_accepts, ← ih (by simp), ← this]
      rfl
  rw [hjumps]
  refine and_iff_right_of_imp fun h => ?_
  obtain ⟨path, hpath⟩ := exists_of_finds h
  exact (hasEdge_keySet hV).mpr ⟨wildcard, path, hpath, rfl⟩

/-- The walk over bytes is the walk over labels. -/
theorem accepts_keySet (hV : ∀ path, V path → PathOk path) (hne : qs ≠ [])
    (hqs : ∀ q ∈ qs, QueryLabel q) : Accepts (KeySet V) (spell qs) ↔ Finds V qs := by
  induction qs generalizing V with
  | nil => exact absurd rfl hne
  | cons q qs ih =>
    obtain ⟨hq, hqs⟩ := forall_mem_cons.mp hqs
    have hbehind : ∀ l, qs ≠ [] →
        (Accepts (KeySet (behind V l)) (spell qs) ↔ Finds (behind V l) qs) :=
      fun l hne => ih (fun path hpath => (hV _ hpath).tail) hne hqs
    obtain ⟨c, x, hkey⟩ := exists_cons_of_ne_nil (labelKey_ne_nil hq.utf8)
    have hentry : entryByte q = some c := by
      rw [entryByte, hkey]
      rfl
    have hshadow : Shadowed V q ↔ c < wildcardByte ∧ HasEdge (KeySet V) c := by
      rw [hasEdge_keySet hV, Shadowed, hentry]
      constructor
      · rintro ⟨c', hc', hcc, h⟩
        obtain rfl := Option.some.inj hcc
        exact ⟨hc', h⟩
      · rintro ⟨hc, h⟩
        exact ⟨c, hc, rfl, h⟩
    have hjump := jumps_iff hV hq.no_step (hbehind wildcard)
    have hstatic : c ≠ complexWildcardByte →
        (Accepts (after (KeySet V) c) (x ++ spellTail qs) ↔ Finds (behind V q) qs) := by
      intro hc
      have hok : LabelOk q := ⟨hq.no_step, hq.utf8, hq.star_whole, fun hmem => by
        rw [hq.plus_whole hmem] at hentry
        exact hc (Option.some.inj hentry).symm⟩
      have hstep := step_not_mem_labelKey hq.no_step
      rw [hkey] at hstep
      have halong := accepts_along (x := [c]) hV (by simp) hstep (spellTail qs)
      rw [singleton_append, ← hkey] at halong
      exact halong.trans (accepts_behind hV hok (hbehind q))
    rw [spell_cons, hkey, cons_append] at hjump ⊢
    rw [accepts_cons, Finds, hshadow, hasEdge_plus hV, hjump]
    have hedge : Finds (behind V q) qs → HasEdge (KeySet V) c := fun h => by
      obtain ⟨path, hpath⟩ := exists_of_finds h
      exact (hasEdge_keySet hV).mpr ⟨q, path, hpath, hentry⟩
    rcases byte_cases c with hc | rfl | rfl | hc
    · -- a byte below the wildcards: an edge for it decides
      have hnot : ¬ complexWildcardByte < c := fun h =>
        absurd (Std.lt_trans h hc) (by decide)
      rw [hstatic (by rintro rfl; exact absurd hc (by decide))]
      by_cases hE : HasEdge (KeySet V) c
      · simp [hc, hE]
      · simp [hE, hnot, mt hedge hE]
    · -- the label is `*`
      have hstar : q = wildcard := hq.star_whole
        ((mem_labelKey hq.ne_nil (by decide)).mp (by rw [hkey]; exact mem_cons_self))
      have hnot : ¬ complexWildcardByte < wildcardByte := by decide
      simp [hstar, hnot]
    · -- the label is `+`, which nothing stored has
      have hplus : q = complexWildcard := hq.plus_whole
        ((mem_labelKey hq.ne_nil (by decide)).mp (by rw [hkey]; exact mem_cons_self))
      have hnone : ¬ Finds (behind V q) qs := fun h => by
        obtain ⟨path, hpath⟩ := exists_of_finds h
        have := ((hV _ hpath).labels q mem_cons_self).no_plus
        rw [hplus] at this
        exact this (mem_singleton_self _)
      have hnot : ¬ complexWildcardByte < wildcardByte := by decide
      simp [hnone, hnot]
    · have hnot : ¬ c < wildcardByte := fun h =>
        absurd (Std.lt_trans hc h) (by decide)
      rw [hstatic (by rintro rfl; exact absurd hc (by decide)), and_iff_right_of_imp hedge]
      simp [hc, hnot]

/-! ### Built sets -/

/-- The label sequences that a list of patterns is stored under. -/
def Stored (patterns : List GoString) (path : List GoString) : Prop :=
  ∃ pattern ∈ patterns, path ∈ storedPaths pattern

theorem Stored.pathOk {patterns : List GoString} {path : List GoString}
    (h : Stored patterns path) : PathOk path := by
  obtain ⟨pattern, -, hpath⟩ := h
  exact (pathOk_of_mem_storedPaths hpath).1

theorem keySet_stored (patterns : List GoString) :
    (· ∈ (insertAll patterns).keys) = KeySet (Stored patterns) := by
  funext key
  apply propext
  rw [keys_insertAll, mem_flatMap]
  constructor
  · rintro ⟨pattern, hpattern, hkey⟩
    obtain ⟨path, hpath, rfl⟩ := mem_map.mp hkey
    exact ⟨path, (pathOk_of_mem_storedPaths hpath).2.1, ⟨pattern, hpattern, hpath⟩, rfl⟩
  · rintro ⟨path, -, ⟨pattern, hpattern, hpath⟩, rfl⟩
    exact ⟨pattern, hpattern, mem_map_of_mem hpath⟩

/-- `Has` reads an accepted query as the key of its labels. -/
theorem walkKey_query (hq : validAndSplitDomain q = .ok qs) (hfirst : qs.head? ≠ some []) :
    walkKey q = spell qs.reverse := by
  obtain ⟨hqs, hvalid⟩ := validAndSplitDomain_ok hq
  have hjoin : toLower q = join domainStepByte qs := by
    rw [hqs, ← split_toLower isMark_domainStepByte, join_split]
  rw [walkKey_eq, hjoin, reverse_join hvalid.ne_nil, spell,
    map_labelKey (query_labels_ne hq hfirst)]

theorem queryLabel_of_mem (hq : validAndSplitDomain q = .ok qs) (hfirst : qs.head? ≠ some []) :
    ∀ l ∈ qs.reverse, QueryLabel l := by
  intro l hl
  have hvalid := (validAndSplitDomain_ok hq).2
  have hmem := mem_reverse.mp hl
  exact ⟨query_labels_ne hq hfirst l hl, hvalid.no_step l hmem, hvalid.utf8 l hmem,
    hvalid.star_whole l hmem, hvalid.plus_whole l hmem⟩

/-- `Has` on the set of a builder stays in range and finds what the walk accepts. -/
theorem hasReturns_builder (b : DomainSetBuilder) (key : GoString) :
    ∃ ss, b.build = some ss ∧ (HasReturns ss key .found ↔ Accepts (· ∈ b.keys) (walkKey key)) ∧
      (HasReturns ss key .notFound ↔ ¬ Accepts (· ∈ b.keys) (walkKey key)) := by
  by_cases hne : b.keys = []
  · -- the set is nil
    have hnot : ¬ Accepts (· ∈ b.keys) (walkKey key) := fun h => by
      obtain ⟨v, hv⟩ := exists_of_accepts h
      rw [hne] at hv
      cases hv
    have hreturns : HasReturns none key .notFound := ⟨0, rfl⟩
    refine ⟨none, by rw [build, hne]; rfl, ?_, ?_⟩
    · constructor
      · intro h
        cases hreturns.unique h
      · intro h
        exact absurd h hnot
    · exact ⟨fun _ => hnot, fun _ => hreturns⟩
  · obtain ⟨ss, terminals, hbuild, h⟩ := hasReturns_build hne key
    exact ⟨some ss, by rw [build, hbuild]; rfl, h⟩

/-- On the set of a list of patterns `Has` finds an accepted query exactly if a stored sequence
matches it without a shadowed wildcard. -/
theorem hasReturns_insertAll (patterns : List GoString) (hq : validAndSplitDomain q = .ok qs)
    (hfirst : qs.head? ≠ some []) :
    ∃ ss, (insertAll patterns).build = some ss ∧
      (HasReturns ss q .found ∨ HasReturns ss q .notFound) ∧
      (HasReturns ss q .found ↔ ∃ path, Stored patterns path ∧ Matches path qs.reverse ∧
        Unshadowed (Stored patterns) path qs.reverse) := by
  have hne : qs.reverse ≠ [] := by simpa using (validAndSplitDomain_ok hq).2.ne_nil
  obtain ⟨ss, hbuild, hfound, hnot⟩ := hasReturns_builder (insertAll patterns) q
  refine ⟨ss, hbuild, ?_, ?_⟩
  · rw [hfound, hnot]
    exact Classical.em _
  · rw [hfound, keySet_stored, walkKey_query hq hfirst,
      accepts_keySet (fun path h => h.pathOk) hne (queryLabel_of_mem hq hfirst),
      finds_iff (query_labels_ne hq hfirst)]

/-- `Has` on the set and `Search` in the trie of the same patterns agree on an accepted query
exactly if, whenever a stored sequence matches it, one does so without a shadowed wildcard. -/
theorem has_search_agree_iff {T : Type*} (entries : List (GoString × T)) {q : GoString}
    {qs : List GoString} (hq : validAndSplitDomain q = .ok qs) (hfirst : qs.head? ≠ some []) :
    let V := Stored (entries.map Prod.fst)
    ∃ ss, (insertAll (entries.map Prod.fst)).build = some ss ∧
      (HasReturns ss q .found ∨ HasReturns ss q .notFound) ∧
      ((HasReturns ss q .found ↔ ((DomainTrie.insertAll entries).search q).isSome) ↔
        ((∃ path, V path ∧ Matches path qs.reverse) →
          ∃ path, V path ∧ Matches path qs.reverse ∧ Unshadowed V path qs.reverse)) := by
  intro V
  obtain ⟨ss, hbuild, hreturns, hfound⟩ := hasReturns_insertAll (entries.map Prod.fst) hq hfirst
  refine ⟨ss, hbuild, hreturns, ?_⟩
  have hsearch : ((DomainTrie.insertAll entries).search q).isSome ↔
      ∃ path, V path ∧ Matches path qs.reverse := by
    rw [DomainTrie.isSome_search_iff hq hfirst]
    refine exists_congr fun path => and_congr_left fun _ => ?_
    rw [DomainTrie.value_insertAll, lastValue_isSome_iff]
    simp [V, Stored]
  rw [hfound, hsearch]
  constructor
  · exact Iff.mpr
  · intro h
    refine ⟨?_, h⟩
    rintro ⟨path, hV, hmatch, -⟩
    exact ⟨path, hV, hmatch⟩

theorem has_search_agree_single :
    let V := Stored [lit "*.com"]
    ∃ ss, (insertAll [lit "*.com"]).build = some ss ∧
      (HasReturns ss (lit "a.com") .found ∨ HasReturns ss (lit "a.com") .notFound) ∧
      ((HasReturns ss (lit "a.com") .found ↔
          ((DomainTrie.insertAll [(lit "*.com", ())]).search (lit "a.com")).isSome) ↔
        ((∃ path, V path ∧ Matches path [lit "com", lit "a"]) →
          ∃ path, V path ∧ Matches path [lit "com", lit "a"] ∧
            Unshadowed V path [lit "com", lit "a"])) :=
  have hq : validAndSplitDomain (lit "a.com") = .ok [lit "a", lit "com"] := by decide +kernel
  has_search_agree_iff [(lit "*.com", ())] hq (by decide)

/-- With the patterns `+.com` and `b(.com`, `Search` finds `a(.com` and `Has` does not. -/
theorem has_search_differ :
    ∃ ss, (insertAll [lit "+.com", lit "b(.com"]).build = some ss ∧
      HasReturns ss (lit "a(.com") .notFound ∧
      ((DomainTrie.insertAll [(lit "+.com", ()), (lit "b(.com", ())]).search
        (lit "a(.com")).isSome :=
  ⟨some ⟨[200], [29866], lit "moc.(+b"⟩, by decide +kernel, ⟨20, by decide +kernel⟩,
    by decide +kernel⟩

end Hako.Trie
