import Hako.GoLib.Strings

/-!
# Matching a connection against the rules

`match` passes over a list of rules until one of them gives an adapter. A Pass adapter anywhere
in the `Unwrap` chain of an adapter leaves the connection to the next rule, a Rematch adapter
rewrites the metadata and starts another pass, possibly over other rules. The names of the
Rematch adapters that were used are kept, and a name that comes again ends the search.

The methods of rules and adapters are arbitrary. `S` stands for the metadata and for whatever
else they depend on.
-/

namespace Hako.Tunnel

open GoLib List

/-- The adapter types that the loop tells apart. -/
inductive AdapterType where
  | pass
  | rematch
  | other
deriving DecidableEq, Repr

inductive NetWork where
  | tcp
  | udp
  | all
  | invalid
deriving DecidableEq, Repr

/-- The configuration of the tunnel and the methods of its rules and proxies. -/
structure Config (S P R : Type*) where
  rules : List R
  subRules : List (GoString × List R)
  /-- A stored proxy may be nil. -/
  proxies : List (GoString × Option P)
  specialRules : S → GoString
  netWork : S → NetWork
  /-- `rule.Match` -/
  ruleMatch : R → S → Bool × GoString × S
  name : P → GoString
  type : P → AdapterType
  supportUDP : P → S → Bool
  /-- `Unwrap(metadata, false)` -/
  unwrap : P → S → Option P
  /-- `DialContext` of a Rematch adapter: the new metadata, and whether it failed. -/
  dialContext : P → S → S × Bool
  /-- The length of an `Unwrap` chain. -/
  depth : P → S → Nat
  /-- `Unwrap` chains are finite. -/
  depth_unwrap : ∀ {p q s}, unwrap p s = some q → depth q s < depth p s

namespace Config

variable {S P R : Type*} (t : Config S P R)

/-- `proxies[ada]`, without nil. -/
def proxy (ada : GoString) : Option P := (t.proxies.lookup ada).join

/-- The adapters of an `Unwrap` chain. -/
def unwrapChain (p : P) (s : S) : List P :=
  p :: match _h : t.unwrap p s with
    | none => []
    | some q => unwrapChain q s
termination_by t.depth p s
decreasing_by exact t.depth_unwrap (by assumption)

/-- What the walk along an `Unwrap` chain comes to. -/
inductive Layers (P : Type*) where
  /-- a Pass adapter -/
  | pass
  | rematch (rematchProxy : P)
  /-- the end of the chain -/
  | done
deriving DecidableEq

/-- The walk along an `Unwrap` chain. -/
def layers (adapter : P) (s : S) : Layers P :=
  if t.type adapter = .pass then .pass
  else if t.type adapter = .rematch then .rematch adapter
  else
    match _h : t.unwrap adapter s with
    | none => .done
    | some q => layers q s
termination_by t.depth adapter s
decreasing_by exact t.depth_unwrap (by assumption)

def getRules (s : S) : List R := (t.subRules.lookup (t.specialRules s)).getD t.rules

/-- How a pass over the rules ends. -/
inductive Pass (P R : Type*) where
  | matched (adapter : P) (rule : R)
  | rematch (rematchProxy : P) (rematchRule : R)
  /-- no rule applies -/
  | exhausted

/-- The loop over the rules. -/
def scan : List R → S → Pass P R × S
  | [], s => (.exhausted, s)
  | rule :: rules, s =>
    match t.ruleMatch rule s with
    | (false, _, s) => scan rules s
    | (true, ada, s) =>
      match t.proxy ada with
      | none => scan rules s
      | some adapter =>
        match t.layers adapter s with
        | .pass => scan rules s
        | .rematch rematchProxy => (.rematch rematchProxy rule, s)
        | .done =>
          if t.netWork s = .udp ∧ t.supportUDP adapter s = false then scan rules s
          else (.matched adapter rule, s)

/-- What `match` returns, by the place where it does. -/
inductive Result (P R : Type*) where
  | matched (adapter : P) (rule : R)
  /-- rematch cycle detected -/
  | rematchCycle (rematchProxy : P) (rematchRule : R)
  /-- rematch proxy failed to update metadata -/
  | rematchFailed (rematchProxy : P) (rematchRule : R)
  /-- the fallback, none if DIRECT is not found -/
  | direct (proxy : Option P)

/-- The adapter of a result. -/
def Result.adapter : Result P R → Option P
  | matched adapter _ => some adapter
  | rematchCycle rematchProxy _ => some rematchProxy
  | rematchFailed rematchProxy _ => some rematchProxy
  | direct proxy => proxy

/-- `match`, with at most `passes` passes over the rules; none if these do not suffice. -/
def matchLoop : Nat → List GoString → S → Option (Result P R × S)
  | 0, _, _ => none
  | passes + 1, rematchChain, s =>
    match t.scan (t.getRules s) s with
    | (.matched adapter rule, s) => some (.matched adapter rule, s)
    | (.rematch rematchProxy rematchRule, s) =>
      if t.name rematchProxy ∈ rematchChain then
        some (.rematchCycle rematchProxy rematchRule, s)
      else
        match t.dialContext rematchProxy s with
        | (s, true) => some (.rematchFailed rematchProxy rematchRule, s)
        | (s, false) => matchLoop passes (rematchChain ++ [t.name rematchProxy]) s
    | (.exhausted, s) => some (.direct (t.proxy (lit "DIRECT")), s)

/-! ### The walk along `Unwrap` -/

/-- No Pass and no Rematch adapter is in the `Unwrap` chain. -/
def Clean (p : P) (s : S) : Prop := ∀ q ∈ t.unwrapChain p s, t.type q ≠ .pass ∧ t.type q ≠ .rematch

variable {adapter q : P} {s : S} {rematchChain : List GoString} {rematchProxies : Finset P}

theorem layers_done (h : t.layers adapter s = .done) : t.Clean adapter s := by
  fun_induction t.layers adapter s with
  | case1 => cases h
  | case2 => cases h
  | case3 adapter hpass hrematch hend =>
    intro q hq
    rw [unwrapChain] at hq
    split at hq
    · rw [mem_singleton.mp hq]
      exact ⟨hpass, hrematch⟩
    · simp_all
  | case4 adapter hpass hrematch q hnext ih =>
    intro q' hq'
    rw [unwrapChain] at hq'
    split at hq'
    · simp_all
    · rename_i p hp
      obtain rfl : p = q := Option.some.inj (hp.symm.trans hnext)
      rcases mem_cons.mp hq' with rfl | hq'
      · exact ⟨hpass, hrematch⟩
      · exact ih h q' hq'

theorem layers_rematch (h : t.layers adapter s = .rematch q) :
    q ∈ t.unwrapChain adapter s ∧ t.type q = .rematch := by
  fun_induction t.layers adapter s with
  | case1 => cases h
  | case2 adapter hpass hrematch =>
    cases h
    rw [unwrapChain]
    exact ⟨mem_cons_self, hrematch⟩
  | case3 => cases h
  | case4 adapter hpass hrematch p hnext ih =>
    obtain ⟨hmem, htype⟩ := ih h
    refine ⟨?_, htype⟩
    rw [unwrapChain]
    split
    · simp_all
    · rename_i p' hp'
      obtain rfl : p' = p := Option.some.inj (hp'.symm.trans hnext)
      exact mem_cons_of_mem _ hmem

/-! ### Passes -/

/-- A Rematch proxy: a Rematch adapter that some proxy unwraps to. -/
def IsRematch (q : P) : Prop :=
  t.type q = .rematch ∧ ∃ ada p s, t.proxy ada = some p ∧ q ∈ t.unwrapChain p s

/-- What a pass can end with. -/
theorem scan_spec (rules : List R) (s : S) :
    match t.scan rules s with
    | (.matched adapter _, s) =>
      t.Clean adapter s ∧ (t.netWork s = .udp → t.supportUDP adapter s = true)
    | (.rematch q _, _) => t.IsRematch q
    | (.exhausted, _) => True := by
  fun_induction t.scan rules s with
  | case1 => trivial
  | case2 | case3 | case4 | case6 => assumption
  | case5 s rule rules ada s' hmatch adapter hproxy q hlayers =>
    obtain ⟨hmem, htype⟩ := t.layers_rematch hlayers
    exact ⟨htype, ada, adapter, s', hproxy, hmem⟩
  | case7 s rule rules ada s' hmatch adapter hproxy hlayers hudp =>
    refine ⟨t.layers_done hlayers, fun hnet => ?_⟩
    by_contra hsupport
    exact hudp ⟨hnet, by simpa using hsupport⟩

/-- The names that a run has used are names of different Rematch proxies. -/
structure UsedNames (rematchChain : List GoString) : Prop where
  nodup : rematchChain.Nodup
  isRematch : ∀ n ∈ rematchChain, ∃ q, t.IsRematch q ∧ t.name q = n

theorem UsedNames.concat {t : Config S P R} (h : t.UsedNames rematchChain) (hq : t.IsRematch q)
    (hnew : t.name q ∉ rematchChain) : t.UsedNames (rematchChain ++ [t.name q]) := by
  exact ⟨concat_eq_append ▸ h.nodup.concat hnew, forall_mem_append.mpr
    ⟨h.isRematch, forall_mem_singleton.mpr ⟨q, hq, rfl⟩⟩⟩

theorem UsedNames.length_le {t : Config S P R} (h : t.UsedNames rematchChain)
    (hall : ∀ q, t.IsRematch q → q ∈ rematchProxies) :
    rematchChain.length ≤ rematchProxies.card := by
  have hsub : rematchChain.toFinset ⊆ rematchProxies.image t.name := by
    intro n hn
    obtain ⟨q, hq, rfl⟩ := h.isRematch n (mem_toFinset.mp hn)
    exact Finset.mem_image_of_mem _ (hall q hq)
  calc rematchChain.length = rematchChain.toFinset.card := (toFinset_card_of_nodup h.nodup).symm
    _ ≤ (rematchProxies.image t.name).card := Finset.card_le_card hsub
    _ ≤ rematchProxies.card := Finset.card_image_le

/-- What holds of a result in the state it is returned in. -/
def Sound (r : Result P R) (s : S) : Prop :=
  match r with
  | .matched adapter _ =>
    t.Clean adapter s ∧ (t.netWork s = .udp → t.supportUDP adapter s = true)
  | .rematchCycle q _ => t.IsRematch q
  | .rematchFailed q _ => t.IsRematch q
  | .direct proxy => proxy = t.proxy (lit "DIRECT")

/-- Every pass but the last uses a new name. -/
theorem matchLoop_of_usedNames (hall : ∀ q, t.IsRematch q → q ∈ rematchProxies) {passes : Nat}
    (hused : t.UsedNames rematchChain)
    (hpasses : rematchProxies.card < rematchChain.length + passes) (s : S) :
    ∃ r s', t.matchLoop passes rematchChain s = some (r, s') ∧ t.Sound r s' := by
  induction passes generalizing rematchChain s with
  | zero => exact absurd (hused.length_le hall) (Nat.not_le_of_lt hpasses)
  | succ passes ih =>
    have hscan := t.scan_spec (t.getRules s) s
    rw [matchLoop]
    generalize t.scan (t.getRules s) s = result at hscan
    obtain ⟨pass, s'⟩ := result
    cases pass with
    | matched adapter rule => exact ⟨_, _, rfl, hscan⟩
    | exhausted => exact ⟨_, _, rfl, rfl⟩
    | rematch q rule =>
      dsimp only
      split
      · exact ⟨_, _, rfl, hscan⟩
      · rename_i hnew
        split
        · exact ⟨_, _, rfl, hscan⟩
        · refine ih (hused.concat hscan hnew) ?_ _
          rw [length_append, length_singleton]
          omega

/-- `match` returns after at most one more pass than there are Rematch proxies. An adapter that
a rule gave has no Pass and no Rematch adapter in its `Unwrap` chain, and supports UDP where this
is needed. Where no rule applies, the proxy stored as DIRECT is returned. -/
theorem matchLoop_returns (rematchProxies : Finset P)
    (hall : ∀ q, t.IsRematch q → q ∈ rematchProxies) (s : S) :
    ∃ r s', t.matchLoop (rematchProxies.card + 1) [] s = some (r, s') ∧
      ∀ adapter, r.adapter = some adapter →
        (∃ rule, r = .rematchCycle adapter rule) ∨ (∃ rule, r = .rematchFailed adapter rule) ∨
          (r = .direct (t.proxy (lit "DIRECT")) ∧ t.proxy (lit "DIRECT") = some adapter) ∨
            (t.Clean adapter s' ∧ (t.netWork s' = .udp → t.supportUDP adapter s' = true)) := by
  have hused : t.UsedNames [] := ⟨nodup_nil, nofun⟩
  have hpasses : rematchProxies.card < ([] : List GoString).length + (rematchProxies.card + 1) := by
    simp
  obtain ⟨r, s', hr, hsound⟩ := t.matchLoop_of_usedNames hall hused hpasses s
  refine ⟨r, s', hr, fun adapter hadapter => ?_⟩
  cases r with
  | matched a rule =>
    cases hadapter
    exact .inr (.inr (.inr hsound))
  | rematchCycle q rule =>
    cases hadapter
    exact .inl ⟨rule, rfl⟩
  | rematchFailed q rule =>
    cases hadapter
    exact .inr (.inl ⟨rule, rfl⟩)
  | direct proxy =>
    cases hsound
    exact .inr (.inr (.inl ⟨rfl, hadapter⟩))

end Config

/-- Proxies that are told by their types, none of them a group; a rule matches everything and
gives its own name as the adapter. -/
def flatConfig (rules : List GoString) (proxies : List (GoString × Option AdapterType)) :
    Config Unit AdapterType GoString where
  rules := rules
  subRules := []
  proxies := proxies
  specialRules _ := []
  netWork _ := .udp
  ruleMatch rule s := (true, rule, s)
  name p := if p = .rematch then lit "again" else []
  type p := p
  supportUDP _ _ := true
  unwrap _ _ := none
  dialContext _ s := (s, false)
  depth _ _ := 0
  depth_unwrap h := nomatch h

theorem matchLoop_returns_again :
    let t := flatConfig [lit "again"] [(lit "again", some .rematch)]
    ∃ r s', t.matchLoop 2 [] () = some (r, s') ∧
      ∀ adapter, r.adapter = some adapter →
        (∃ rule, r = .rematchCycle adapter rule) ∨ (∃ rule, r = .rematchFailed adapter rule) ∨
          (r = .direct (t.proxy (lit "DIRECT")) ∧ t.proxy (lit "DIRECT") = some adapter) ∨
            (t.Clean adapter s' ∧ (t.netWork s' = .udp → t.supportUDP adapter s' = true)) :=
  Config.matchLoop_returns (flatConfig [lit "again"] [(lit "again", some .rematch)])
    {AdapterType.rematch} (fun _ hq => Finset.mem_singleton.mpr hq.1) ()

/-- With a Pass adapter stored as DIRECT and no rules, `match` returns it. -/
theorem direct_pass_returned :
    let t := flatConfig [] [(lit "DIRECT", some .pass)]
    t.matchLoop 1 [] () = some (.direct (some .pass), ()) ∧ ¬ t.Clean AdapterType.pass () := by
  refine ⟨rfl, fun h => ?_⟩
  have hmem : AdapterType.pass ∈
      (flatConfig [] [(lit "DIRECT", some .pass)]).unwrapChain .pass () := by
    rw [Config.unwrapChain]
    exact mem_cons_self
  exact (h _ hmem).1 rfl

end Hako.Tunnel
