import Hako.Trie.Foreach

/-!
# Matchers of geosite lists

A geosite list mixes full domains and domain suffixes, which go into a succinct set, with
substrings and regular expressions, which are tried one after the other. A matcher is built from
the list, or from the set and the residual list that `CompileDomains` makes of it. The two ways
share what they make of an entry, but one fills a builder and the other a trie.
-/

namespace Hako.Geodata

open GoLib Lib Trie DomainSetBuilder

/-! ### Entries -/

/-- `Domain_Type`: an enumeration that is stored as any number. -/
abbrev DomainType := Int32

def domainPlain : DomainType := 0
def domainRegex : DomainType := 1
def domainDomain : DomainType := 2
def domainFull : DomainType := 3

/-- `Domain`, without its attributes. -/
structure Domain where
  type : DomainType
  value : GoString
deriving DecidableEq

/-- `case Domain_Plain, Domain_Regex`: an entry with a matcher of its own. -/
def Domain.IsResidual (d : Domain) : Prop := d.type = domainPlain ∨ d.type = domainRegex

instance (d : Domain) : Decidable d.IsResidual :=
  inferInstanceAs (Decidable (d.type = domainPlain ∨ d.type = domainRegex))

structure ResidualDomain where
  type : DomainType
  value : GoString
deriving DecidableEq

/-- `strmatcher.Type` -/
inductive MatcherType where
  | full
  | substr
  | domain
  | regex
deriving DecidableEq

/-- `matcherTypeMap` -/
def matcherTypeMap (type : DomainType) : Option MatcherType :=
  if type = domainPlain then some .substr
  else if type = domainRegex then some .regex
  else if type = domainDomain then some .domain
  else if type = domainFull then some .full
  else none

/-- `strmatcher.Matcher`, with the function of a compiled expression. -/
inductive Matcher where
  | full (pattern : GoString)
  | substr (pattern : GoString)
  | domain (pattern : GoString)
  | regex (matchString : GoString → Bool)

/-- `Match` -/
def Matcher.matchesDomain : Matcher → GoString → Bool
  | .full pattern, s => pattern = s
  | .substr pattern, s => pattern <:+: s
  | .domain pattern, s =>
    if pattern <:+ s then
      s.length = pattern.length ∨ s[s.length - pattern.length - 1]? = some domainStepByte
    else false
  | .regex matchString, s => matchString s

/-- Why a matcher is not built. -/
inductive MatcherError where
  | invalidDomain (e : InvalidDomain)
  | regexp (pattern : GoString)
  | unsupportedType (type : DomainType)
  /-- A panic of the construction of the set. -/
  | outOfRange

section Construction

-- `regexp.Compile`: the function `MatchString` of the compiled expression
variable (compile : GoString → Option (GoString → Bool))

/-- `Type.New` -/
def MatcherType.new : MatcherType → GoString → Except MatcherError Matcher
  | .full, pattern => .ok (.full pattern)
  | .substr, pattern => .ok (.substr pattern)
  | .domain, pattern => .ok (.domain pattern)
  | .regex, pattern =>
    match compile pattern with
    | some matchString => .ok (.regex matchString)
    | none => .error (.regexp pattern)

/-! ### The matcher of a list -/

structure SuccinctMatcher where
  set : Option DomainSet
  otherMatchers : List Matcher
  count : Int

/-- `ApplyDomain`, for a number of steps of `Has`. -/
def SuccinctMatcher.applyDomain (m : SuccinctMatcher) (fuel : Nat) (domain : GoString) :
    Option Outcome :=
  (DomainSet.has fuel m.set domain).map fun
    | .found => .found
    | .notFound =>
      if m.otherMatchers.any (·.matchesDomain domain) then .found else .notFound
    | .outOfRange => .outOfRange

/-- `ApplyDomain` returns an answer. -/
def SuccinctMatcher.Answers (m : SuccinctMatcher) (domain : GoString) (answer : Bool) : Prop :=
  ∃ fuel, m.applyDomain fuel domain = some (if answer then .found else .notFound)

/-- An error of `Insert`. -/
def ofInsert {α : Type} : Except InvalidDomain α → Except MatcherError α :=
  Except.mapError .invalidDomain

/-- One round of the loop of `NewSuccinctMatcherGroup`. -/
def addDomain (st : DomainSetBuilder × List Matcher) (d : Domain) :
    Except MatcherError (DomainSetBuilder × List Matcher) :=
  if d.IsResidual then do
    -- a missing entry of the map would be `Full`, which is its zero value
    let matcher ← ((matcherTypeMap d.type).getD .full).new compile d.value
    return (st.1, st.2 ++ [matcher])
  else if d.type = domainDomain then do
    let builder ← ofInsert (st.1.insert (lit "+." ++ d.value))
    return (builder, st.2)
  else if d.type = domainFull then do
    let builder ← ofInsert (st.1.insert d.value)
    return (builder, st.2)
  else .ok st

def newSuccinctMatcherGroup (domains : List Domain) : Except MatcherError SuccinctMatcher := do
  let (builder, otherMatchers) ← domains.foldlM (addDomain compile) (⟨[]⟩, [])
  match builder.build with
  | some set => return ⟨set, otherMatchers, domains.length⟩
  | none => throw .outOfRange

/-- One round of the loop of `NewSuccinctMatcherFromParts`. -/
def partMatcher (entry : ResidualDomain) : Except MatcherError Matcher :=
  match matcherTypeMap entry.type with
  | some matcherType => matcherType.new compile entry.value
  | none => .error (.unsupportedType entry.type)

def newSuccinctMatcherFromParts (set : Option DomainSet) (count : Int)
    (residual : List ResidualDomain) : Except MatcherError SuccinctMatcher := do
  let otherMatchers ← residual.mapM (partMatcher compile)
  return ⟨set, otherMatchers, count⟩

end Construction

/-- One round of the loop of `CompileDomains`. -/
def compileDomain (st : DomainTrie Unit × List ResidualDomain) (d : Domain) :
    Except MatcherError (DomainTrie Unit × List ResidualDomain) :=
  if d.IsResidual then
    .ok (st.1, st.2 ++ [⟨d.type, d.value⟩])
  else if d.type = domainDomain then do
    let tree ← ofInsert (st.1.insert (lit "+." ++ d.value) ())
    return (tree, st.2)
  else if d.type = domainFull then do
    let tree ← ofInsert (st.1.insert d.value ())
    return (tree, st.2)
  else .ok st

def compileDomains (domains : List Domain) :
    Except MatcherError (Option DomainSet × Int × List ResidualDomain) := do
  let (tree, residual) ← domains.foldlM compileDomain (.new, [])
  match tree.newDomainSet with
  | some set => return (set, domains.length, residual)
  | none => throw .outOfRange

/-! ### What the loops collect -/

/-- The pattern that an entry adds to the set. -/
def Domain.pattern (d : Domain) : Option GoString :=
  if d.IsResidual then none
  else if d.type = domainDomain then some (lit "+." ++ d.value)
  else if d.type = domainFull then some d.value
  else none

/-- What a list leaves outside of the set. -/
def residualOf (domains : List Domain) : List ResidualDomain :=
  (domains.filter (·.IsResidual)).map fun d => ⟨d.type, d.value⟩

/-- The patterns that a list adds to the set. -/
def patternsOf (domains : List Domain) : List GoString := domains.filterMap Domain.pattern

/-- The matcher of a residual entry. -/
def residualMatcher (compile : GoString → Option (GoString → Bool)) (entry : ResidualDomain) :
    Except MatcherError Matcher :=
  ((matcherTypeMap entry.type).getD .full).new compile entry.value

/-- The round that both loops have in common: an entry is kept aside, inserted or ignored. -/
def entryStep {σ ρ : Type} (insert : σ → GoString → Except MatcherError σ)
    (keep : ResidualDomain → Except MatcherError ρ) (st : σ × List ρ) (d : Domain) :
    Except MatcherError (σ × List ρ) :=
  if d.IsResidual then do
    let kept ← keep ⟨d.type, d.value⟩
    return (st.1, st.2 ++ [kept])
  else
    match d.pattern with
    | some pattern => do
      let inserted ← insert st.1 pattern
      return (inserted, st.2)
    | none => .ok st

theorem entryStep_eq {σ ρ : Type} (insert : σ → GoString → Except MatcherError σ)
    (keep : ResidualDomain → Except MatcherError ρ) (st : σ × List ρ) (d : Domain) :
    entryStep insert keep st d =
      if d.IsResidual then (keep ⟨d.type, d.value⟩).bind fun kept => .ok (st.1, st.2 ++ [kept])
      else if d.type = domainDomain then
        (insert st.1 (lit "+." ++ d.value)).bind fun inserted => .ok (inserted, st.2)
      else if d.type = domainFull then
        (insert st.1 d.value).bind fun inserted => .ok (inserted, st.2)
      else .ok st := by
  unfold entryStep Domain.pattern
  split_ifs <;> rfl

theorem addDomain_eq (compile : GoString → Option (GoString → Bool)) :
    addDomain compile =
      entryStep (fun b pattern => ofInsert (b.insert pattern)) (residualMatcher compile) := by
  funext st d
  rw [entryStep_eq]
  rfl

theorem compileDomain_eq :
    compileDomain = entryStep (fun t pattern => ofInsert (t.insert pattern ())) .ok := by
  funext st d
  rw [entryStep_eq]
  rfl

theorem pattern_of_isResidual {d : Domain} (h : d.IsResidual) : d.pattern = none := if_pos h

/-- The loop inserts the patterns and keeps the residual entries, each in their order. -/
theorem foldlM_entryStep {σ ρ : Type} {insert : σ → GoString → Except MatcherError σ}
    {keep : ResidualDomain → Except MatcherError ρ} {domains : List Domain} {s s' : σ}
    {rs rs' : List ρ} :
    domains.foldlM (entryStep insert keep) (s, rs) = .ok (s', rs') ↔
      (patternsOf domains).foldlM insert s = .ok s' ∧
        ∃ kept, (residualOf domains).mapM keep = .ok kept ∧ rs' = rs ++ kept := by
  induction domains generalizing s rs with
  | nil =>
    constructor
    · intro h
      cases h
      exact ⟨rfl, [], rfl, (List.append_nil _).symm⟩
    · rintro ⟨hs, kept, hkept, rfl⟩
      cases hs
      cases hkept
      exact congrArg (fun all => Except.ok (s', all)) (List.append_nil rs).symm
  | cons d domains ih =>
    rw [List.foldlM_cons, bind_eq_ok]
    by_cases hres : d.IsResidual
    · have hpatterns : patternsOf (d :: domains) = patternsOf domains :=
        List.filterMap_cons_none (pattern_of_isResidual hres)
      have hresidual : residualOf (d :: domains) = ⟨d.type, d.value⟩ :: residualOf domains := by
        simp [residualOf, hres]
      rw [hpatterns, hresidual, List.mapM_cons]
      simp only [entryStep, if_pos hres, bind_eq_ok]
      constructor
      · rintro ⟨⟨s₁, rs₁⟩, ⟨kept, hkeep, hst⟩, h⟩
        cases hst
        obtain ⟨hs, more, hmore, rfl⟩ := ih.mp h
        exact ⟨hs, kept :: more, ⟨kept, hkeep, more, hmore, rfl⟩, by simp⟩
      · rintro ⟨hs, all, ⟨kept, hkeep, more, hmore, hall⟩, rfl⟩
        cases hall
        exact ⟨(s, rs ++ [kept]), ⟨kept, hkeep, rfl⟩, ih.mpr ⟨hs, more, hmore, by simp⟩⟩
    · have hresidual : residualOf (d :: domains) = residualOf domains := by
        simp [residualOf, hres]
      rw [hresidual]
      cases hpattern : d.pattern with
      | none =>
        rw [patternsOf, List.filterMap_cons_none hpattern, ← patternsOf]
        simp only [entryStep, if_neg hres, hpattern]
        constructor
        · rintro ⟨st, hst, h⟩
          cases hst
          exact ih.mp h
        · exact fun h => ⟨_, rfl, ih.mpr h⟩
      | some pattern =>
        rw [patternsOf, List.filterMap_cons_some hpattern, ← patternsOf, List.foldlM_cons,
          bind_eq_ok]
        simp only [entryStep, if_neg hres, hpattern, bind_eq_ok]
        constructor
        · rintro ⟨⟨s₁, rs₁⟩, ⟨inserted, hinsert, hst⟩, h⟩
          cases hst
          obtain ⟨hs, hkept⟩ := ih.mp h
          exact ⟨⟨s₁, hinsert, hs⟩, hkept⟩
        · rintro ⟨⟨inserted, hinsert, hs⟩, hkept⟩
          exact ⟨(inserted, rs), ⟨inserted, hinsert, rfl⟩, ih.mpr ⟨hs, hkept⟩⟩

/-! ### Both ways of building -/

variable {compile : GoString → Option (GoString → Bool)} {domains : List Domain}

theorem insertOrSkip_eq_orSkip : insertOrSkip =
    orSkip fun (b : DomainSetBuilder) pattern => ofInsert (b.insert pattern) := by
  funext b pattern
  rw [insertOrSkip, orSkip]
  cases b.insert pattern <;> rfl

theorem trieInsertOrSkip_eq_orSkip (t : DomainTrie Unit) (pattern : GoString) :
    t.insertOrSkip (pattern, ()) =
      orSkip (fun (t : DomainTrie Unit) pattern => ofInsert (t.insert pattern ())) t pattern := by
  rw [DomainTrie.insertOrSkip, orSkip]
  cases t.insert pattern () <;> rfl

/-- When `NewSuccinctMatcherGroup` succeeds, and with what. -/
theorem newSuccinctMatcherGroup_eq_ok {m : SuccinctMatcher} :
    newSuccinctMatcherGroup compile domains = .ok m ↔
      (∃ builder, (patternsOf domains).foldlM
          (fun (b : DomainSetBuilder) pattern => ofInsert (b.insert pattern)) ⟨[]⟩ = .ok builder ∧
        builder.build = some m.set) ∧
      (residualOf domains).mapM (residualMatcher compile) = .ok m.otherMatchers ∧
      m.count = domains.length := by
  rw [newSuccinctMatcherGroup, bind_eq_ok, addDomain_eq]
  constructor
  · rintro ⟨⟨builder, otherMatchers⟩, hloop, h⟩
    obtain ⟨hinsert, kept, hkept, rfl⟩ := foldlM_entryStep.mp hloop
    dsimp only at h
    split at h
    · rename_i set hset
      cases h
      exact ⟨⟨builder, hinsert, hset⟩, hkept, rfl⟩
    · cases h
  · rintro ⟨⟨builder, hinsert, hset⟩, hkept, hcount⟩
    refine ⟨(builder, m.otherMatchers), foldlM_entryStep.mpr ⟨hinsert, _, hkept, rfl⟩, ?_⟩
    dsimp only
    rw [hset, ← hcount]
    rfl

/-- The set of a list is that of all its patterns. -/
theorem build_of_foldlM {patterns : List GoString} {builder : DomainSetBuilder}
    (h : patterns.foldlM (fun (b : DomainSetBuilder) pattern => ofInsert (b.insert pattern)) ⟨[]⟩ =
      .ok builder) : insertAll patterns = builder := by
  rw [insertAll, insertOrSkip_eq_orSkip]
  exact foldl_of_foldlM h

/-- `CompileDomains` makes the set that `NewSuccinctMatcherGroup` makes, and keeps what it tries. -/
theorem compileDomains_ok {set : Option DomainSet} {count : Int} {residual : List ResidualDomain}
    (h : compileDomains domains = .ok (set, count, residual)) :
    (insertAll (patternsOf domains)).build = some set ∧ residual = residualOf domains := by
  obtain ⟨⟨tree, residual'⟩, hloop, h⟩ := bind_eq_ok.mp h
  rw [compileDomain_eq] at hloop
  obtain ⟨hinsert, kept, hkept, rfl⟩ := foldlM_entryStep.mp hloop
  rw [(mapM_eq_pure (f := Except.ok) (g := id) fun _ _ => rfl :), List.map_id] at hkept
  cases hkept
  -- the trie is the one of all insertions, whose set is that of the builder
  have htree : DomainTrie.insertAll ((patternsOf domains).map (·, ())) = tree := by
    rw [← foldl_of_foldlM hinsert, DomainTrie.insertAll, List.foldl_map]
    simp only [trieInsertOrSkip_eq_orSkip]
  have hset := DomainTrie.newDomainSet_insertAll ((patternsOf domains).map (·, ()))
  rw [htree, List.map_map] at hset
  simp only [Function.comp_def, List.map_id'] at hset
  dsimp only at h
  split at h
  · rename_i set' hset'
    cases h
    exact ⟨by rw [← hset, hset'], rfl⟩
  · cases h

/-! ### Answers -/

namespace SuccinctMatcher

variable {m m' : SuccinctMatcher}

variable {domain : GoString}

theorem Answers.congr {answer : Bool} (hset : m.set = m'.set)
    (hothers : m.otherMatchers = m'.otherMatchers) (h : m.Answers domain answer) :
    m'.Answers domain answer := by
  obtain ⟨fuel, h⟩ := h
  exact ⟨fuel, by rw [← h, applyDomain, applyDomain, hset, hothers]⟩

/-- A matcher answers whenever `Has` stays in range. -/
theorem answers_of_hasReturns {o : Outcome} (h : HasReturns m.set domain o)
    (ho : o ≠ .outOfRange) : ∃ answer, m.Answers domain answer := by
  obtain ⟨fuel, h⟩ := h
  cases o with
  | found => exact ⟨true, fuel, by rw [applyDomain, h]; rfl⟩
  | notFound =>
    refine ⟨m.otherMatchers.any (·.matchesDomain domain), fuel, ?_⟩
    rw [applyDomain, h]
    rfl
  | outOfRange => exact absurd rfl ho

end SuccinctMatcher

end Hako.Geodata
