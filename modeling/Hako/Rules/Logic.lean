import Hako.GoLib.Strings

/-!
# Logic rules and sub-rules

A rule matches a connection and names the adapter for it. AND, OR and NOT rules combine other
rules. A SUB-RULE rule has a condition and the name of a table of rules, which is matched in its
place. Tables refer to each other, so a configuration is only accepted after a search for
circular references. The meaning of a table is its expansion: the rules without the references,
each guarded by the conditions of the references that lead to it.

Rules other than these are leaves with a method `Match` that is a function of the metadata.
-/

namespace Hako.Rules

open GoLib List

/-- The leaf rules: what `Match` returns for the metadata `M`, and `Adapter`. -/
structure LeafRules (L M : Type*) where
  ruleMatch : L → M → Bool × GoString
  adapter : L → GoString
  /-- A leaf rule that matches returns its adapter. -/
  ruleMatch_adapter : ∀ {l m a}, ruleMatch l m = (true, a) → a = adapter l

/-- A rule that may stand inside a logic rule: a leaf, or an AND, OR or NOT rule. -/
inductive Rule (L : Type*) where
  | leaf (rule : L)
  | and (adapter : GoString) (rules : List (Rule L))
  | or (adapter : GoString) (rules : List (Rule L))
  /-- `NewNOT` accepts exactly one rule. -/
  | not (adapter : GoString) (rule : Rule L)

/-- A rule of a rule list: a SUB-RULE rule does not stand inside other rules. -/
inductive ListedRule (L : Type*) where
  | plain (rule : Rule L)
  /-- `NewSubRule` accepts exactly one rule as the condition; the adapter names a table. -/
  | subRule (condition : Rule L) (adapter : GoString)

/-- The map from names to tables. -/
abbrev SubRules (L : Type*) := List (GoString × List (ListedRule L))

variable {L M : Type*} (env : LeafRules L M)

namespace Rule

def adapter : Rule L → GoString
  | leaf rule => env.adapter rule
  | and adapter _ => adapter
  | or adapter _ => adapter
  | not adapter _ => adapter

mutual

/-- `Match`, of leaves and of `Logic`. -/
def ruleMatch (m : M) : Rule L → Bool × GoString
  | leaf rule => env.ruleMatch rule m
  | and adapter rules => if allMatch m rules then (true, adapter) else (false, adapter)
  | or adapter rules => if anyMatch m rules then (true, adapter) else (false, [])
  | not adapter rule => if (ruleMatch m rule).1 then (false, []) else (true, adapter)

/-- The loop of an AND rule. -/
def allMatch (m : M) : List (Rule L) → Bool
  | [] => true
  | rule :: rules => if (ruleMatch m rule).1 then allMatch m rules else false

/-- The loop of an OR rule. -/
def anyMatch (m : M) : List (Rule L) → Bool
  | [] => false
  | rule :: rules => if (ruleMatch m rule).1 then true else anyMatch m rules

end

/-- Whether a rule matches. -/
def Holds (m : M) (rule : Rule L) : Prop := (rule.ruleMatch env m).1 = true

instance (m : M) (rule : Rule L) : Decidable (rule.Holds env m) :=
  inferInstanceAs (Decidable (_ = _))

/-- A rule that matches returns its adapter. -/
theorem ruleMatch_eq {m : M} {rule : Rule L} {a : GoString}
    (h : rule.ruleMatch env m = (true, a)) : a = rule.adapter env := by
  cases rule with
  | leaf rule => exact env.ruleMatch_adapter h
  | and adapter rules | or adapter rules =>
    rw [ruleMatch] at h
    split at h
    · cases h
      rfl
    · cases h
  | not adapter rule =>
    rw [ruleMatch] at h
    split at h
    · cases h
    · cases h
      rfl

theorem ruleMatch_of_holds {m : M} {rule : Rule L} (h : rule.Holds env m) :
    rule.ruleMatch env m = (true, rule.adapter env) := by
  have heq : rule.ruleMatch env m = (true, (rule.ruleMatch env m).2) := Prod.ext h rfl
  rw [heq, ruleMatch_eq env heq]

end Rule

/-! ### Matching tables -/

/-- `RuleMatchHelper.CheckPassRule`, which may be nil. -/
abbrev CheckPassRule := Option (GoString → Bool)

/-- Whether an adapter leaves the connection to the next rule. -/
def isPass (check : CheckPassRule) (a : GoString) : Bool :=
  a == lit "PASS-RULE" || (check.map (· a)).getD false

/-- `Match` of a listed rule; `below` is `matchSubRules` for a table. -/
def ListedRule.ruleMatch (m : M) (below : GoString → Option (Bool × GoString)) :
    ListedRule L → Option (Bool × GoString)
  | plain rule => some (rule.ruleMatch env m)
  | subRule condition adapter =>
    if (condition.ruleMatch env m).1 then below adapter else some (false, [])

/-- The result for a rule that matched: a SUB-RULE rule matches its table once more. -/
def ListedRule.resolve (below : GoString → Option (Bool × GoString)) (a : GoString) :
    ListedRule L → Option (Bool × GoString)
  | plain _ => some (true, a)
  | subRule _ adapter => below adapter

/-- The loop of `matchSubRules` over the rules of a table. -/
def subRulesLoop (check : CheckPassRule) (m : M) (below : GoString → Option (Bool × GoString)) :
    List (ListedRule L) → Option (Bool × GoString)
  | [] => some (false, [])
  | rule :: rules =>
    match rule.ruleMatch env m below with
    | none => none
    | some (false, _) => subRulesLoop check m below rules
    | some (true, a) =>
      match rule.resolve below a with
      | none => none
      | some (matched, a) =>
        if matched && isPass check a then subRulesLoop check m below rules
        else some (matched, a)

/-- `subRules[name]` -/
def SubRules.table (subRules : SubRules L) (name : GoString) : List (ListedRule L) :=
  (subRules.lookup name).getD []

/-- `matchSubRules`, with the depth of the calls bounded; none if it does not suffice. -/
def matchSubRules (subRules : SubRules L) (check : CheckPassRule) (m : M) :
    Nat → GoString → Option (Bool × GoString)
  | 0, _ => none
  | fuel + 1, name =>
    subRulesLoop env check m (matchSubRules subRules check m fuel) (subRules.table name)

/-! ### The search for circular references -/

inductive VerifyError where
  /-- sub-rule error: not found -/
  | notFound (i : Nat) (n adapter : GoString)
  /-- sub-rule error: circular references -/
  | circular (arr : List GoString)
deriving DecidableEq

/-- The loop over the rules of a table, from rule `i` on; `verify` is the recursive call. -/
def verifyLoop (subRules : SubRules L) (n : GoString) (arr : List GoString)
    (verify : GoString → Option (Except VerifyError Unit)) :
    Nat → List (ListedRule L) → Option (Except VerifyError Unit)
  | _, [] => some (.ok ())
  | i, .plain _ :: rules => verifyLoop subRules n arr verify (i + 1) rules
  | i, .subRule _ adapter :: rules =>
    if (subRules.lookup adapter).isNone then some (.error (.notFound i n adapter))
    else if adapter ∈ arr then some (.error (.circular (arr ++ [adapter])))
    else
      match verify adapter with
      | none => none
      | some (.error e) => some (.error e)
      | some (.ok ()) => verifyLoop subRules n arr verify (i + 1) rules

/-- `verifySubRuleCircularReferences`, with the depth of the calls bounded. -/
def verifyCircular (subRules : SubRules L) :
    Nat → GoString → List GoString → Option (Except VerifyError Unit)
  | 0, _, _ => none
  | fuel + 1, n, arr =>
    verifyLoop subRules n (arr ++ [n])
      (fun adapter => verifyCircular subRules fuel adapter (arr ++ [n])) 0 (subRules.table n)

/-- `verifySubRule` returns nil. -/
def Verified (subRules : SubRules L) : Prop :=
  ∀ name ∈ subRules.map Prod.fst, ∃ fuel, verifyCircular subRules fuel name [] = some (.ok ())

/-! ### The expansion of a table -/

/-- A rule with the conditions that lead to it, the outermost first. -/
structure Guarded (L : Type*) where
  guards : List (Rule L)
  rule : Rule L

/-- The rules of a table with every SUB-RULE rule replaced by the rules of its table. -/
inductive Expands (subRules : SubRules L) : List (ListedRule L) → List (Guarded L) → Prop
  | nil : Expands subRules [] []
  | plain {rules : List (ListedRule L)} {es : List (Guarded L)} (rule : Rule L) :
      Expands subRules rules es → Expands subRules (.plain rule :: rules) (⟨[], rule⟩ :: es)
  | subRule {rules : List (ListedRule L)} {inner es : List (Guarded L)} (condition : Rule L)
      {adapter : GoString} :
      Expands subRules (subRules.table adapter) inner → Expands subRules rules es →
      Expands subRules (.subRule condition adapter :: rules)
        (inner.map (fun e => ⟨condition :: e.guards, e.rule⟩) ++ es)

/-- Whether a guarded rule applies: it and its guards match, and its adapter is no pass. -/
def Guarded.applies (check : CheckPassRule) (m : M) (e : Guarded L) : Bool :=
  (e.guards.all fun g => decide (g.Holds env m)) && decide (e.rule.Holds env m) &&
    !isPass check (e.rule.adapter env)

/-- The adapter of the first rule that applies. -/
def firstMatch (check : CheckPassRule) (m : M) (es : List (Guarded L)) : Bool × GoString :=
  match es.find? (·.applies env check m) with
  | some e => (true, e.rule.adapter env)
  | none => (false, [])

variable {rules : List (ListedRule L)} {subRules : SubRules L} {arr : List GoString} {n : GoString}
  {es : List (Guarded L)} {verify : GoString → Option (Except VerifyError Unit)} {fuel : Nat}

/-- A table has at most one expansion. -/
theorem Expands.unique {es' : List (Guarded L)} (h : Expands subRules rules es)
    (h' : Expands subRules rules es') : es = es' := by
  induction h generalizing es' with
  | nil =>
    cases h'
    rfl
  | plain rule _ ih =>
    cases h' with
    | plain _ h' => rw [ih h']
  | subRule condition _ _ ihinner ih =>
    cases h' with
    | subRule _ hinner h' => rw [ihinner hinner, ih h']

/-! ### Accepted tables have an expansion -/

theorem expands_of_verifyLoop (hverify : ∀ adapter, verify adapter = some (.ok ()) →
      ∃ es, Expands subRules (subRules.table adapter) es)
    {i : Nat} (h : verifyLoop subRules n arr verify i rules = some (.ok ())) :
    ∃ es, Expands subRules rules es := by
  induction rules generalizing i with
  | nil => exact ⟨[], .nil⟩
  | cons rule rules ih =>
    cases rule with
    | plain rule =>
      obtain ⟨es, hes⟩ := ih h
      exact ⟨_, .plain rule hes⟩
    | subRule condition adapter =>
      rw [verifyLoop] at h
      split at h
      · cases h
      split at h
      · cases h
      split at h
      · cases h
      · cases h
      · rename_i hok
        obtain ⟨inner, hinner⟩ := hverify adapter hok
        obtain ⟨es, hes⟩ := ih h
        exact ⟨_, .subRule condition hinner hes⟩

/-- A table that the search for circular references accepts has an expansion. -/
theorem expands_of_verify (h : verifyCircular subRules fuel n arr = some (.ok ())) :
    ∃ es, Expands subRules (subRules.table n) es := by
  induction fuel generalizing n arr with
  | zero => cases h
  | succ fuel ih => exact expands_of_verifyLoop (fun adapter hok => ih hok) h

theorem verifyLoop_returns (hverify : ∀ adapter, (subRules.lookup adapter).isSome → adapter ∉ arr →
      ∃ r, verify adapter = some r) (i : Nat) (rules : List (ListedRule L)) :
    ∃ r, verifyLoop subRules n arr verify i rules = some r := by
  induction rules generalizing i with
  | nil => exact ⟨_, rfl⟩
  | cons rule rules ih =>
    cases rule with
    | plain rule => exact ih (i + 1)
    | subRule condition adapter =>
      rw [verifyLoop]
      split
      · exact ⟨_, rfl⟩
      · rename_i hfound
        split
        · exact ⟨_, rfl⟩
        · rename_i hnew
          obtain ⟨r, hr⟩ := hverify adapter (by simpa [Option.isSome_iff_ne_none] using hfound) hnew
          rw [hr]
          cases r with
          | error e => exact ⟨_, rfl⟩
          | ok u => exact ih (i + 1)

/-- The search for circular references returns: the names on its path are different tables. -/
theorem verifyCircular_returns (hnodup : (arr ++ [n]).Nodup)
    (hnames : ∀ name ∈ arr ++ [n], name ∈ subRules.map Prod.fst)
    (hfuel : subRules.length ≤ arr.length + fuel) :
    ∃ r, verifyCircular subRules fuel n arr = some r := by
  have hlen : (arr ++ [n]).length ≤ subRules.length := by
    simpa using (hnodup.subperm hnames).length_le
  rw [length_append, length_singleton] at hlen
  induction fuel generalizing n arr with
  | zero => omega
  | succ fuel ih =>
    refine verifyLoop_returns (fun adapter hfound hnew => ?_) 0 _
    have hnodup' : (arr ++ [n] ++ [adapter]).Nodup := by
      rw [← concat_eq_append]
      exact hnodup.concat hnew
    have hnames' : ∀ name ∈ arr ++ [n] ++ [adapter], name ∈ subRules.map Prod.fst := by
      refine forall_mem_append.mpr ⟨hnames, forall_mem_singleton.mpr ?_⟩
      obtain ⟨rules, hrules⟩ := Option.isSome_iff_exists.mp hfound
      obtain ⟨l₁, l₂, rfl, -⟩ := lookup_eq_some_iff.mp hrules
      simp
    have hlen' : (arr ++ [n] ++ [adapter]).length ≤ subRules.length := by
      simpa using (hnodup'.subperm hnames').length_le
    refine ih hnodup' hnames' ?_ ?_
    · rw [length_append, length_singleton]
      omega
    · rwa [length_append, length_singleton] at hlen'

/-! ### Matching is the first match of the expansion -/

section FirstMatch

variable {env} {check : CheckPassRule} {m : M}

theorem firstMatch_cons (e : Guarded L) (es : List (Guarded L)) :
    firstMatch env check m (e :: es) =
      if e.applies env check m then (true, e.rule.adapter env) else firstMatch env check m es := by
  rw [firstMatch, find?_cons]
  cases h : e.applies env check m with
  | true => simp
  | false => simp [firstMatch]

/-- A first match is no pass. -/
theorem isPass_of_firstMatch {es : List (Guarded L)} {a : GoString}
    (h : firstMatch env check m es = (true, a)) : isPass check a = false := by
  rw [firstMatch] at h
  split at h
  · rename_i e he
    cases h
    have happlies := find?_some he
    rw [Guarded.applies, Bool.and_eq_true, Bool.not_eq_true'] at happlies
    exact happlies.2
  · cases h

theorem firstMatch_append (es es' : List (Guarded L)) :
    firstMatch env check m (es ++ es') =
      if (firstMatch env check m es).1 then firstMatch env check m es
      else firstMatch env check m es' := by
  induction es with
  | nil => simp [firstMatch]
  | cons e es ih =>
    rw [cons_append, firstMatch_cons, firstMatch_cons, ih]
    cases e.applies env check m <;> simp

/-- The rules behind a condition count if it holds. -/
theorem firstMatch_guard (c : Rule L) (inner : List (Guarded L)) :
    firstMatch env check m (inner.map fun e => ⟨c :: e.guards, e.rule⟩) =
      if c.Holds env m then firstMatch env check m inner else (false, []) := by
  have happlies : ∀ e : Guarded L, Guarded.applies env check m ⟨c :: e.guards, e.rule⟩ =
      (decide (c.Holds env m) && e.applies env check m) := by
    intro e
    simp [Guarded.applies, Bool.and_assoc]
  induction inner with
  | nil => simp [firstMatch]
  | cons e inner ih =>
    rw [map_cons, firstMatch_cons, happlies, firstMatch_cons, ih]
    by_cases hc : c.Holds env m
    · simp [hc]
    · simp [hc]

/-- A SUB-RULE rule matches what its table does behind the condition. -/
theorem ruleMatch_subRule {below : GoString → Option (Bool × GoString)} {name : GoString}
    {inner : List (Guarded L)} (hbelow : below name = some (firstMatch env check m inner))
    (c : Rule L) :
    (ListedRule.subRule c name).ruleMatch env m below =
      some (firstMatch env check m (inner.map fun e => ⟨c :: e.guards, e.rule⟩)) := by
  rw [firstMatch_guard, ListedRule.ruleMatch, hbelow, apply_ite some]
  rfl

end FirstMatch

/-- Matching the rules of a table returns the first match of their expansion, once the calls may
be deep enough. -/
theorem subRulesLoop_eq (h : Expands subRules rules es) : ∃ n, ∀ fuel ≥ n, ∀ check m,
      subRulesLoop env check m (matchSubRules env subRules check m fuel) rules =
        some (firstMatch env check m es) := by
  induction h with
  | nil => exact ⟨0, fun fuel _ check m => rfl⟩
  | plain rule _ ih =>
    obtain ⟨n, hn⟩ := ih
    refine ⟨n, fun fuel hfuel check m => ?_⟩
    rw [subRulesLoop, ListedRule.ruleMatch, firstMatch_cons, hn fuel hfuel]
    by_cases hrule : rule.Holds env m
    · rw [Rule.ruleMatch_of_holds env hrule]
      by_cases hpass : isPass check (rule.adapter env) = true
      · simp [ListedRule.resolve, Guarded.applies, hrule, hpass]
      · simp [ListedRule.resolve, Guarded.applies, hrule, hpass]
    · have hfalse : rule.ruleMatch env m = (false, (rule.ruleMatch env m).2) :=
        Prod.ext (by simpa [Rule.Holds] using hrule) rfl
      rw [hfalse]
      simp [Guarded.applies, hrule]
  | @subRule rules inner es condition adapter _ _ ihinner ih =>
    obtain ⟨n₁, hinner⟩ := ihinner
    obtain ⟨n₂, hes⟩ := ih
    refine ⟨max (n₁ + 1) n₂, fun fuel hfuel check m => ?_⟩
    obtain ⟨k, rfl⟩ : ∃ k, fuel = k + 1 := ⟨fuel - 1, by omega⟩
    have hbelow : matchSubRules env subRules check m (k + 1) adapter =
        some (firstMatch env check m inner) := hinner k (by omega) check m
    rw [subRulesLoop, ruleMatch_subRule hbelow, firstMatch_append, hes (k + 1) (by omega)]
    -- a match of the guarded rules is the match of the table itself
    have hguard : firstMatch env check m (inner.map fun e => ⟨condition :: e.guards, e.rule⟩) = _ :=
      firstMatch_guard condition inner
    generalize firstMatch env check m (inner.map fun e => ⟨condition :: e.guards, e.rule⟩) = r
      at hguard
    obtain ⟨matched, a⟩ := r
    cases matched with
    | false => simp
    | true =>
      have hinner : firstMatch env check m inner = (true, a) := by
        split at hguard
        · exact hguard.symm
        · cases hguard
      rw [hinner] at hbelow
      simp [ListedRule.resolve, hbelow, isPass_of_firstMatch hinner]

/-- For accepted tables, matching a SUB-RULE rule that names one of them terminates. It returns
the adapter of the first rule in the expansion that applies, or no match if there is none. -/
theorem subRule_first_match {subRules : SubRules L} (hverified : Verified subRules)
    (condition : Rule L) {name : GoString} (hname : name ∈ subRules.map Prod.fst) :
    ∃ es, (∀ es', Expands subRules [.subRule condition name] es' ↔ es' = es) ∧
      ∃ n, ∀ fuel ≥ n, ∀ check m, (ListedRule.subRule condition name).ruleMatch env m
            (matchSubRules env subRules check m fuel) = some (firstMatch env check m es) := by
  obtain ⟨fuel, hok⟩ := hverified name hname
  obtain ⟨inner, hinner⟩ := expands_of_verify hok
  have hexpands := Expands.subRule condition hinner .nil
  refine ⟨_, fun es' => ⟨fun h => h.unique hexpands, fun h => h ▸ hexpands⟩, ?_⟩
  obtain ⟨n, hn⟩ := subRulesLoop_eq env hinner
  refine ⟨n + 1, fun fuel hfuel check m => ?_⟩
  obtain ⟨k, rfl⟩ : ∃ k, fuel = k + 1 := ⟨fuel - 1, by omega⟩
  have hbelow : matchSubRules env subRules check m (k + 1) name =
      some (firstMatch env check m inner) := hn k (by omega) check m
  rw [append_nil]
  exact ruleMatch_subRule hbelow condition

/-- A leaf rule that matches everything, told by its adapter. -/
def matchAll : LeafRules GoString Unit where
  ruleMatch l _ := (true, l)
  adapter l := l
  ruleMatch_adapter h := (Prod.ext_iff.mp h).2.symm

/-- Two tables, the first of which refers to the second. -/
def twoTables : SubRules GoString :=
  [(lit "outer", [.subRule (.leaf []) (lit "inner"), .plain (.leaf (lit "DIRECT"))]),
    (lit "inner", [.plain (.leaf (lit "PASS-RULE"))])]

theorem subRule_first_match_twoTables :
    Verified twoTables ∧
    ∃ es, (∀ es', Expands twoTables [.subRule (.leaf []) (lit "outer")] es' ↔ es' = es) ∧
      ∃ n, ∀ fuel ≥ n, ∀ check m, (ListedRule.subRule (.leaf []) (lit "outer")).ruleMatch matchAll m
            (matchSubRules matchAll twoTables check m fuel) =
          some (firstMatch matchAll check m es) := by
  have hverified : Verified twoTables := by
    intro name hname
    simp only [twoTables, map_cons, map_nil, mem_pair] at hname
    rcases hname with rfl | rfl
    · exact ⟨2, rfl⟩
    · exact ⟨1, rfl⟩
  exact ⟨hverified, subRule_first_match matchAll hverified _ (by decide)⟩

/-- Two tables that refer to each other. -/
theorem verifyCircular_returns_circular :
    ∃ r, verifyCircular [(lit "a", [.subRule (.leaf ()) (lit "b")]),
      (lit "b", [.subRule (.leaf ()) (lit "a")])] 2 (lit "a") [] = some r :=
  verifyCircular_returns (by decide) (by decide) (by decide)

end Hako.Rules
