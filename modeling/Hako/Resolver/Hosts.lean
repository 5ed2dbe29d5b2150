import Hako.GoLib.Netip
import Hako.Lib.Chain
import Hako.Trie.Specificity

/-!
# Hosts and their aliases

The `hosts` section of a configuration maps domain patterns to addresses or to alias domains.
`parseHosts` builds a trie from it, checking each alias against the entries before it, and
`Hosts.Search` follows aliases until it finds addresses. Both loops follow the alias relation
that the trie's most specific matches define. They are modelled with fuel; running out of it
for every amount is not terminating.
-/

namespace Hako.Resolver

open GoLib Trie Lib Option Nat DomainTrie

/-- `HostValue`, as `NewHostValueByIPs` and `NewHostValueByDomain` build it. -/
inductive HostValue where
  | ips (ips : List Addr)
  | domain (domain : GoString)
deriving DecidableEq

namespace HostValue

def isDomain : HostValue → Bool
  | ips _ => false
  | domain _ => true

/-- The field `Domain`, empty for addresses. -/
def domainName : HostValue → GoString
  | ips _ => []
  | domain d => d

@[simp]
theorem domainName_ips (l : List Addr) : (ips l).domainName = [] := rfl

end HostValue

/-- What is outside the program: `netip.ParseAddr`, the addresses of the local interfaces
that are neither loopback nor link-local (or the failure to list them), and the system's
hosts file where it is used. -/
structure Env where
  parseAddr : GoString → Option Addr
  interfaceAddrs : Option (List GoString)
  lookupStaticHost : GoString → List GoString
  useSystemHosts : Bool

def newHostValueByIPs (ips : List Addr) : Except String HostValue :=
  if ips = [] then .error "ip list is empty" else .ok (.ips ips)

def newHostValueByDomain (domain : GoString) : Except String HostValue :=
  let domain := trim domainStepByte domain
  if (split domainStepByte domain).length < 2 then .error "invalid domain"
  else .ok (.domain domain)

/-- `NewHostValue`. -/
def newHostValue (env : Env) : List GoString → Except String HostValue
  | [] => .error "value is empty"
  | [host] =>
    match env.parseAddr host with
    | some ip => newHostValueByIPs [ip.unmap]
    | none => newHostValueByDomain host
  | values =>
    match values.mapM env.parseAddr with
    | some ips => newHostValueByIPs (ips.map Addr.unmap)
    | none => .error "ParseAddr"

/-- The values of the configuration: a string, a list of strings, or something else. -/
inductive AnyValue where
  | str (s : GoString)
  | slice (l : List GoString)
  | other

/-- `ToStringSlice`. -/
def toStringSlice : AnyValue → Option (List GoString)
  | .str s => some [s]
  | .slice l => some l
  | .other => none

inductive HostsError where
  /-- value format error, must be string or array -/
  | format
  /-- is not a valid value -/
  | notValid (value : AnyValue)
  /-- there is a cycle in domain name mapping -/
  | cycle (domain : GoString)

/-- The value of an entry, `lan` standing for the local addresses. -/
def hostValueOf (env : Env) (value : AnyValue) : Except HostsError HostValue :=
  match toStringSlice value with
  | none => .error .format
  | some hosts =>
    let hosts := if hosts = [lit "lan"] then env.interfaceAddrs.getD hosts else hosts
    match newHostValue env hosts with
    | .ok v => .ok v
    | .error _ => .error (.notValid value)

/-- `Search` and `Data` of the node found. -/
def searchData (t : DomainTrie HostValue) (domain : GoString) : Option HostValue :=
  (t.search domain).bind Node.data

/-- The loop of `parseHosts` that looks for the key among the aliases of a value: whether it
is there, or nothing when the fuel runs out. -/
def aliasCheck (t : DomainTrie HostValue) (key : GoString) : Nat → Option HostValue → Option Bool
  | _, none => some false
  | _, some (.ips _) => some false
  | 0, some (.domain _) => none
  | n + 1, some (.domain d) =>
    if d = key then some true else aliasCheck t key n (searchData t d)

/-- The loop of `parseHosts` over the entries. -/
def parseEntries (env : Env) (fuel : Nat) (t : DomainTrie HostValue) :
    List (GoString × AnyValue) → Option (Except HostsError (DomainTrie HostValue))
  | [] => some (.ok t)
  | (key, any) :: rest =>
    match hostValueOf env any with
    | .error e => some (.error e)
    | .ok (.ips ips) => parseEntries env fuel (t.insertOrSkip (key, .ips ips)) rest
    | .ok (.domain d) =>
      match aliasCheck t key fuel (searchData t d) with
      | none => none
      | some true => some (.error (.cycle key))
      | some false => parseEntries env fuel (t.insertOrSkip (key, .domain d)) rest

/-- The default entry. -/
def localhost : GoString × HostValue := (lit "localhost", .ips [.v4 127 0 0 1])

/-- `parseHosts`, on the entries in the order of iteration. -/
def parseHosts (env : Env) (fuel : Nat) (hosts : List (GoString × AnyValue)) :
    Option (Except HostsError (DomainTrie HostValue)) :=
  (parseEntries env fuel (new.insertOrSkip localhost) hosts).map fun r =>
    r.map optimize

/-- The loop of `Hosts.Search`. -/
def searchLoop (t : DomainTrie HostValue) (isDomain : Bool) : Nat → HostValue →
    Option (HostValue × Bool)
  | 0, _ => none
  | n + 1, v =>
    if isDomain && v.isDomain then some (v, true)
    else
      match searchData t v.domainName with
      | some v' => searchLoop t isDomain n v'
      | none => some (v, isDomain == v.isDomain)

/-- `Hosts.Search`. -/
def Hosts.search (env : Env) (t : DomainTrie HostValue) (fuel : Nat) (domain : GoString)
    (isDomain : Bool) : Option (Option HostValue × Bool) :=
  match searchData t domain with
  | some v => (searchLoop t isDomain fuel v).map fun r => (some r.1, r.2)
  | none =>
    if !isDomain && env.useSystemHosts then
      match newHostValue env (env.lookupStaticHost domain) with
      | .ok v => some (some v, true)
      | .error _ => some (none, false)
    else some (none, false)

/-! ### Alias chains -/

/-- The alias that the most specific match gives to a name, if it gives one. -/
def aliasOf (V : List GoString → Option HostValue) (domain : GoString) : Option GoString :=
  match lookup V domain with
  | some (.domain d) => some d
  | _ => none

variable {t : DomainTrie HostValue} {key d : GoString}

variable {d' : GoString} {n m : Nat}

theorem aliasOf_eq_some :
    aliasOf t.value d = some d' ↔ searchData t d = some (.domain d') := by
  rw [searchData, t.search_data, aliasOf]
  split <;> simp_all

/-- Without an alias the name is unknown or has addresses. -/
theorem searchData_of_aliasOf_none (h : aliasOf t.value d = none) :
    searchData t d = none ∨ ∃ ips, searchData t d = some (.ips ips) := by
  cases hs : searchData t d with
  | none => exact .inl rfl
  | some v =>
    cases v with
    | ips ips => exact .inr ⟨ips, rfl⟩
    | domain d' => rw [aliasOf_eq_some.mpr hs] at h; cases h

theorem aliasCheck_stop (h : aliasOf t.value d = none) (n : Nat) :
    aliasCheck t key n (searchData t d) = some false := by
  rcases searchData_of_aliasOf_none h with hs | ⟨ips, hs⟩ <;> rw [hs] <;> simp [aliasCheck]

theorem aliasCheck_next (h : aliasOf t.value d = some d') (n : Nat) :
    aliasCheck t key (n + 1) (searchData t d) =
      if d' = key then some true else aliasCheck t key n (searchData t d') := by
  rw [aliasOf_eq_some.mp h, aliasCheck]

theorem aliasCheck_mono (hnm : n ≤ m) {v : Option HostValue} {b : Bool}
    (h : aliasCheck t key n v = some b) : aliasCheck t key m v = some b := by
  induction n generalizing m v with
  | zero =>
    match v with
    | none => simpa [aliasCheck] using h
    | some (.ips _) => simpa [aliasCheck] using h
    | some (.domain _) => cases h
  | succ n ih =>
    obtain ⟨m, rfl⟩ := Nat.exists_eq_add_of_le' (Nat.lt_of_lt_of_le (Nat.succ_pos n) hnm)
    match v with
    | none => simpa [aliasCheck] using h
    | some (.ips _) => simpa [aliasCheck] using h
    | some (.domain d) =>
      rw [aliasCheck] at h ⊢
      split at h
      · rwa [if_pos ‹_›]
      · rw [if_neg ‹_›]
        exact ih (Nat.le_of_succ_le_succ hnm) h

/-- The check finds the key exactly if it is on the alias chain of the value. -/
theorem aliasCheck_true_iff :
    (∃ n, aliasCheck t key n (searchData t d) = some true) ↔
      ∃ k, chain (aliasOf t.value) (k + 1) d = some key := by
  constructor
  · rintro ⟨n, h⟩
    induction n generalizing d with
    | zero =>
      cases hs : searchData t d with
      | none => rw [hs] at h; cases h
      | some v => rw [hs] at h; cases v <;> cases h
    | succ n ih =>
      cases ha : aliasOf t.value d with
      | none => rw [aliasCheck_stop ha] at h; cases h
      | some d' =>
        rw [aliasCheck_next ha] at h
        split at h
        · rename_i heq
          exact ⟨0, by rw [chain_succ, ha, heq]; rfl⟩
        · obtain ⟨k, hk⟩ := ih h
          exact ⟨k + 1, by rw [chain_succ, ha]; exact hk⟩
  · rintro ⟨k, h⟩
    induction k generalizing d with
    | zero =>
      obtain ⟨d', ha, heq⟩ := bind_eq_some_iff.mp h
      exact ⟨1, by rw [aliasCheck_next ha, if_pos (some.inj heq)]⟩
    | succ k ih =>
      obtain ⟨d', ha, hk⟩ := bind_eq_some_iff.mp h
      by_cases heq : d' = key
      · exact ⟨1, by rw [aliasCheck_next ha, if_pos heq]⟩
      · obtain ⟨n, hn⟩ := ih hk
        exact ⟨n + 1, by rw [aliasCheck_next ha, if_neg heq, hn]⟩

/-- The check passes exactly if the alias chain of the value ends without the key. -/
theorem aliasCheck_false_iff :
    (∃ n, aliasCheck t key n (searchData t d) = some false) ↔
      (∃ k, chain (aliasOf t.value) k d = none) ∧
        ¬ ∃ k, chain (aliasOf t.value) (k + 1) d = some key := by
  constructor
  · rintro ⟨n, h⟩
    refine ⟨?_, fun hkey => ?_⟩
    · induction n generalizing d with
      | zero =>
        cases ha : aliasOf t.value d with
        | none => exact ⟨1, by rw [chain_succ, ha]; rfl⟩
        | some d' => rw [aliasOf_eq_some.mp ha] at h; cases h
      | succ n ih =>
        cases ha : aliasOf t.value d with
        | none => exact ⟨1, by rw [chain_succ, ha]; rfl⟩
        | some d' =>
          rw [aliasCheck_next ha] at h
          split at h
          · cases h
          · obtain ⟨k, hk⟩ := ih h
            exact ⟨k + 1, by rw [chain_succ, ha]; exact hk⟩
    · obtain ⟨m, hm⟩ := aliasCheck_true_iff.mpr hkey
      have h₁ := aliasCheck_mono (le_max_left n m) h
      have h₂ := aliasCheck_mono (le_max_right n m) hm
      rw [h₁] at h₂
      cases h₂
  · rintro ⟨⟨k, hk⟩, hkey⟩
    induction k generalizing d with
    | zero => cases hk
    | succ k ih =>
      cases ha : aliasOf t.value d with
      | none => exact ⟨0, aliasCheck_stop ha 0⟩
      | some d' =>
        rw [chain_succ, ha] at hk
        have hne : d' ≠ key := fun heq => hkey ⟨0, by rw [chain_succ, ha, heq]; rfl⟩
        have hkey' : ¬ ∃ j, chain (aliasOf t.value) (j + 1) d' = some key := fun ⟨j, hj⟩ =>
          hkey ⟨j + 1, by rw [chain_succ, ha]; exact hj⟩
        obtain ⟨n, hn⟩ := ih hkey' hk
        exact ⟨n + 1, by rw [aliasCheck_next ha, if_neg hne, hn]⟩

/-! ### Searching -/

theorem searchData_nil : searchData t [] = none := rfl

/-- Looking for a domain, the loop ends at once. -/
theorem searchLoop_domain (t : DomainTrie HostValue) (v : HostValue) :
    (searchLoop t true 1 v).isSome := by
  cases v with
  | ips ips => simp [searchLoop, HostValue.isDomain, searchData_nil]
  | domain d => simp [searchLoop, HostValue.isDomain]

/-- Looking for addresses, the loop ends exactly if the alias chain does. -/
theorem searchLoop_terminates_iff {v : HostValue} :
    (∃ n, (searchLoop t false n v).isSome) ↔
      ∃ k, chain (aliasOf t.value) k v.domainName = none := by
  constructor
  · rintro ⟨n, h⟩
    induction n generalizing v with
    | zero => cases h
    | succ n ih =>
      cases ha : aliasOf t.value v.domainName with
      | none => exact ⟨1, by rw [chain_succ, ha]; rfl⟩
      | some d' =>
        simp only [searchLoop, Bool.false_and, Bool.false_eq_true, if_false,
          aliasOf_eq_some.mp ha] at h
        obtain ⟨k, hk⟩ := ih h
        exact ⟨k + 1, by rw [chain_succ, ha]; exact hk⟩
  · rintro ⟨k, h⟩
    induction k generalizing v with
    | zero => cases h
    | succ k ih =>
      cases ha : aliasOf t.value v.domainName with
      | none =>
        rcases searchData_of_aliasOf_none ha with hs | ⟨ips, hs⟩
        · exact ⟨1, by simp [searchLoop, hs]⟩
        · exact ⟨2, by simp [searchLoop, hs, searchData_nil]⟩
      | some d' =>
        rw [chain_succ, ha] at h
        obtain ⟨n, hn⟩ := ih (v := .domain d') h
        exact ⟨n + 1, by simpa [searchLoop, aliasOf_eq_some.mp ha] using hn⟩

/-- All searches terminate exactly if all alias chains end. -/
theorem search_terminates_iff (env : Env) :
    (∀ q isDomain, ∃ fuel, (Hosts.search env t fuel q isDomain).isSome) ↔
      ∀ q, ∃ k, chain (aliasOf t.value) k q = none := by
  constructor
  · intro h q
    cases ha : aliasOf t.value q with
    | none => exact ⟨1, by rw [chain_succ, ha]; rfl⟩
    | some d' =>
      obtain ⟨n, hn⟩ := h q false
      simp only [Hosts.search, aliasOf_eq_some.mp ha, isSome_map] at hn
      obtain ⟨k, hk⟩ := searchLoop_terminates_iff.mp ⟨n, hn⟩
      exact ⟨k + 1, by rw [chain_succ, ha]; exact hk⟩
  · intro h q isDomain
    cases hs : searchData t q with
    | none =>
      refine ⟨0, ?_⟩
      simp only [Hosts.search, hs]
      split
      · split <;> rfl
      · rfl
    | some v =>
      have hloop : ∃ n, (searchLoop t isDomain n v).isSome := by
        cases isDomain with
        | true => exact ⟨1, searchLoop_domain t v⟩
        | false => exact searchLoop_terminates_iff.mpr (h v.domainName)
      obtain ⟨n, hn⟩ := hloop
      exact ⟨n, by simpa [Hosts.search, hs] using hn⟩

/-! ### Parsing -/

/-- The condition on the entries still to come, given those already in the trie: the alias of
an entry leads, through the entries before it, to the entry's own key or to an end; and once
all entries are in, no name is an alias of itself. An entry that is rejected ends parsing. -/
def AliasOkFrom (env : Env) :
    List (GoString × HostValue) → List (GoString × AnyValue) → Prop
  | es, [] => ∀ d k, 0 < k → chain (aliasOf (lastValue es)) k d ≠ some d
  | es, (key, any) :: rest =>
    match hostValueOf env any with
    | .error _ => True
    | .ok (.ips ips) => AliasOkFrom env (es ++ [(key, .ips ips)]) rest
    | .ok (.domain d) =>
      (∃ k, chain (aliasOf (lastValue es)) (k + 1) d = some key) ∨
        (∃ k, chain (aliasOf (lastValue es)) k d = none) ∧
          AliasOkFrom env (es ++ [(key, .domain d)]) rest

/-- The condition on a hosts mapping, in the order it is iterated in. -/
def AliasOk (env : Env) (hosts : List (GoString × AnyValue)) : Prop :=
  AliasOkFrom env [localhost] hosts

theorem parseEntries_mono {env : Env} (hnm : n ≤ m)
    {r : Except HostsError (DomainTrie HostValue)} {hosts : List (GoString × AnyValue)}
    (h : parseEntries env n t hosts = some r) : parseEntries env m t hosts = some r := by
  induction hosts generalizing t with
  | nil => exact h
  | cons e rest ih =>
    obtain ⟨key, any⟩ := e
    rw [parseEntries] at h ⊢
    split at h
    · exact h
    · exact ih h
    · rename_i d _
      cases hc : aliasCheck t key n (searchData t d) with
      | none => rw [hc] at h; cases h
      | some b =>
        rw [hc] at h
        rw [aliasCheck_mono hnm hc]
        cases b with
        | true => exact h
        | false => exact ih h

/-- The aliases of a list of entries are among its values. -/
theorem aliasOf_finite (es : List (GoString × HostValue)) :
    {b | ∃ a, aliasOf (lastValue es) a = some b}.Finite := by
  refine (List.finite_toSet (es.map fun e => e.2.domainName)).subset ?_
  rintro b ⟨a, ha⟩
  unfold aliasOf at ha
  split at ha
  · rename_i d hd
    obtain ⟨path, hpath⟩ := exists_of_lookup hd
    obtain ⟨e, he, hev⟩ := mem_of_lastValue hpath
    exact List.mem_map.mpr ⟨e, he, by rw [hev]; exact some.inj ha⟩
  · cases ha

/-- Parsing the entries from a trie on terminates, and if it gives a trie then all searches
in it terminate. -/
def Sound (env : Env) (t : DomainTrie HostValue) (hosts : List (GoString × AnyValue)) : Prop :=
  (∃ fuel, (parseEntries env fuel t hosts).isSome) ∧
    ∀ fuel t', parseEntries env fuel t hosts = some (.ok t') →
      ∀ q isDomain, ∃ fuel', (Hosts.search env t'.optimize fuel' q isDomain).isSome

variable {env : Env} {any : AnyValue} {rest : List (GoString × AnyValue)}

theorem aliasCheck_unique {r r' : Bool} (hm : aliasCheck t key m s = some r)
    (hn : aliasCheck t key n s = some r') : r = r' := by
  have h := aliasCheck_mono (le_max_left m n) hm
  rw [aliasCheck_mono (le_max_right m n) hn] at h
  exact (some.inj h).symm

section

variable (hv : hostValueOf env any = .ok (.domain d))
include hv

variable {n : Nat}

/-- An alias entry that passes its check leaves parsing to the rest. -/
theorem sound_of_check_false (hn : aliasCheck t key n (searchData t d) = some false) :
    Sound env t ((key, any) :: rest) ↔ Sound env (t.insertOrSkip (key, .domain d)) rest := by
  have hback : ∀ fuel r, parseEntries env fuel t ((key, any) :: rest) = some r →
      parseEntries env fuel (t.insertOrSkip (key, .domain d)) rest = some r := by
    intro fuel r h
    simp only [parseEntries, hv] at h
    cases hc : aliasCheck t key fuel (searchData t d) with
    | none => rw [hc] at h; cases h
    | some b =>
      rw [hc] at h
      cases b with
      | false => exact h
      | true => cases aliasCheck_unique hn hc
  have hforth : ∀ fuel r, parseEntries env fuel (t.insertOrSkip (key, .domain d)) rest = some r →
      parseEntries env (max n fuel) t ((key, any) :: rest) = some r := by
    intro fuel r h
    simp only [parseEntries, hv, aliasCheck_mono (le_max_left n fuel) hn]
    exact parseEntries_mono (le_max_right n fuel) h
  constructor
  · rintro ⟨⟨fuel, hfuel⟩, hall⟩
    obtain ⟨r, hr⟩ := isSome_iff_exists.mp hfuel
    exact ⟨⟨fuel, by rw [hback fuel r hr]; rfl⟩, fun fuel' t' h => hall _ t' (hforth fuel' _ h)⟩
  · rintro ⟨⟨fuel, hfuel⟩, hall⟩
    obtain ⟨r, hr⟩ := isSome_iff_exists.mp hfuel
    exact ⟨⟨_, by rw [hforth fuel r hr]; rfl⟩, fun fuel' t' h => hall fuel' t' (hback fuel' _ h)⟩

/-- An alias entry whose key is found is rejected. -/
theorem sound_of_check_true
    (hn : aliasCheck t key n (searchData t d) = some true) : Sound env t ((key, any) :: rest) := by
  refine ⟨⟨n, by simp only [parseEntries, hv, hn]; rfl⟩, fun fuel t' h => ?_⟩
  simp only [parseEntries, hv] at h
  cases hc : aliasCheck t key fuel (searchData t d) with
  | none => rw [hc] at h; cases h
  | some b =>
    obtain rfl := aliasCheck_unique hn hc
    rw [hc] at h
    cases h

/-- An alias entry whose check never ends. -/
theorem not_sound_of_check_none (hn : ∀ n, aliasCheck t key n (searchData t d) = none) :
    ¬ Sound env t ((key, any) :: rest) := by
  rintro ⟨⟨fuel, hfuel⟩, -⟩
  simp only [parseEntries, hv, hn fuel] at hfuel
  cases hfuel

end

theorem sound_iff (hosts : List (GoString × AnyValue)) {es : List (GoString × HostValue)}
    (ht : t.value = lastValue es) : Sound env t hosts ↔ AliasOkFrom env es hosts := by
  have hinsert : ∀ (t : DomainTrie HostValue) es e, t.value = lastValue es →
      (t.insertOrSkip e).value = lastValue (es ++ [e]) := by
    intro t es e ht
    funext path
    rw [value_insertOrSkip, lastValue_concat, ht]
  induction hosts generalizing t es with
  | nil =>
    have hchain := search_terminates_iff (t := t.optimize) env
    rw [value_optimize, ht, chain_ends_iff (aliasOf_finite es)] at hchain
    rw [AliasOkFrom, ← hchain]
    refine ⟨fun h => h.2 0 t rfl, fun h => ⟨⟨0, rfl⟩, fun fuel t' ht' => ?_⟩⟩
    cases ht'
    exact h
  | cons e rest ih =>
    obtain ⟨key, any⟩ := e
    rw [AliasOkFrom]
    split
    · rename_i err hv
      refine ⟨fun _ => trivial, fun _ => ⟨⟨0, by simp [parseEntries, hv]⟩, fun fuel t' h => ?_⟩⟩
      simp [parseEntries, hv] at h
    · rename_i ips hv
      refine Iff.trans ?_ (ih (hinsert t es (key, .ips ips) ht))
      unfold Sound
      simp only [parseEntries, hv]
    · rename_i d hv
      rw [← ht]
      by_cases htrue : ∃ n, aliasCheck t key n (searchData t d) = some true
      · have hkey := aliasCheck_true_iff.mp htrue
        obtain ⟨n, hn⟩ := htrue
        exact ⟨fun _ => .inl hkey, fun _ => sound_of_check_true hv hn⟩
      · have hkey := mt aliasCheck_true_iff.mpr htrue
        by_cases hfalse : ∃ n, aliasCheck t key n (searchData t d) = some false
        · have hends := (aliasCheck_false_iff.mp hfalse).1
          obtain ⟨n, hn⟩ := hfalse
          refine (sound_of_check_false hv hn).trans
            ((ih (hinsert t es (key, .domain d) ht)).trans ?_)
          exact ⟨fun h => .inr ⟨hends, h⟩, fun h => (h.resolve_left hkey).2⟩
        · -- the check runs forever, and so does the alias chain
          have hnone : ∀ n, aliasCheck t key n (searchData t d) = none := by
            intro n
            cases hc : aliasCheck t key n (searchData t d) with
            | none => rfl
            | some b =>
              cases b with
              | true => exact absurd ⟨n, hc⟩ htrue
              | false => exact absurd ⟨n, hc⟩ hfalse
          refine ⟨fun h => absurd h (not_sound_of_check_none hv hnone), fun h => ?_⟩
          exact absurd (aliasCheck_false_iff.mpr ⟨(h.resolve_left hkey).1, hkey⟩) hfalse

/-- Parsing a hosts mapping terminates and, if it gives a trie, so does every search in it,
exactly under the condition on its aliases. -/
theorem hosts_terminate_iff (env : Env) (hosts : List (GoString × AnyValue)) :
    ((∃ fuel, (parseHosts env fuel hosts).isSome) ∧
      ∀ fuel t, parseHosts env fuel hosts = some (.ok t) →
        ∀ q isDomain, ∃ fuel', (Hosts.search env t fuel' q isDomain).isSome) ↔
      AliasOk env hosts := by
  have hvalue : (new.insertOrSkip localhost).value = lastValue [localhost] := by
    funext path
    rw [value_insertOrSkip, value_new,
      show [localhost] = [] ++ [localhost] from rfl, lastValue_concat]
    rfl
  rw [AliasOk, ← sound_iff hosts hvalue, Sound]
  simp only [parseHosts, isSome_map]
  refine and_congr_right fun _ => ⟨fun h fuel t' ht' => ?_, fun h fuel t ht => ?_⟩
  · exact h fuel t'.optimize (by rw [ht']; rfl)
  · obtain ⟨r, hr, hmap⟩ := map_eq_some_iff.mp ht
    cases r with
    | error e => cases hmap
    | ok t' =>
      cases hmap
      exact h fuel t' hr

/-- A wildcard key with an alias that it matches is accepted, and the search for that alias
never ends. -/
theorem wildcard_alias_loops :
    let env : Env := ⟨fun _ => none, none, fun _ => [], false⟩
    let hosts := [(lit "*.a.com", AnyValue.str (lit "b.a.com"))]
    ∃ t, parseHosts env 1 hosts = some (.ok t) ∧
      ∀ fuel, Hosts.search env t fuel (lit "b.a.com") false = none := by
  intro env hosts
  let t : DomainTrie HostValue :=
    ((new.insertOrSkip localhost).insertOrSkip (lit "*.a.com", .domain (lit "b.a.com"))).optimize
  have hself : searchData t (lit "b.a.com") = some (.domain (lit "b.a.com")) := by
    decide +kernel
  have hloop : ∀ n, searchLoop t false n (.domain (lit "b.a.com")) = none := by
    intro n
    induction n with
    | zero => rfl
    | succ n ih => simpa [searchLoop, HostValue.domainName, hself] using ih
  refine ⟨t, rfl, fun fuel => ?_⟩
  simp [Hosts.search, hself, hloop]

end Hako.Resolver
