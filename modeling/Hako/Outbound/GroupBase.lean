import Hako.GoLib.Strings

/-!
# The proxies of a group

`GetProxies` reads the versions of the providers, takes the lock of the group and compares them
with the versions it has cached a list for. If they differ it computes the list anew, and reads the
proxies of the providers on the way, once for every filter. Providers may change between any two of
these reads, so a list may be cached that belongs to no moment at all. It is never served: a
provider that has changed since its version was read has another version from then on.
-/

namespace Hako.Outbound.GroupBase

open GoLib List Function

variable {P : Type}

/-! ### The computation -/

/-- A computation that calls `pd.Proxies()` on its way. -/
inductive Reads (P : Type)
  | ret (proxies : List P)
  | proxies (pd : Nat) (k : List P → Reads P)

/-- The result, if the providers stay as they are. -/
def Reads.eval (env : Nat → List P) : Reads P → List P
  | .ret l => l
  | .proxies pd k => (k (env pd)).eval env

/-- `GroupBase`, where a regular expression is the names it matches and an excluded type the names
of types it is equal to. There is a flag for each provider, whether its vehicle is `Compatible`. -/
structure Config (P : Type) where
  name : P → GoString
  type : P → GoString
  filterRegs : List (GoString → Bool)
  excludeFilterRegs : List (GoString → Bool)
  excludeTypeArray : List (GoString → Bool)
  compatible : List Bool
  emptyFallback : P

variable (gb : Config P)

/-- Appends the proxies that match and whose names are not there yet. -/
def pick (filterReg : GoString → Bool) (proxies newProxies : List P) : List P :=
  proxies.foldl (fun new p =>
    if filterReg (gb.name p) && gb.name p ∉ new.map gb.name then new ++ [p] else new) newProxies

/-- The loop over the filters, for one provider. -/
def filterLoop (pd : Nat) :
    List (GoString → Bool) → List P → (List P → Reads P) → Reads P
  | [], newProxies, k => k newProxies
  | filterReg :: filterRegs, newProxies, k => .proxies pd fun proxies =>
      filterLoop pd filterRegs (pick gb filterReg proxies newProxies) k

/-- The loop over the providers. -/
def gather : Nat → List Bool → List P → Reads P
  | _, [], proxies => .ret proxies
  | pd, compatible :: rest, proxies =>
    if gb.filterRegs.isEmpty || compatible then
      .proxies pd fun new => gather (pd + 1) rest (proxies ++ new)
    else filterLoop gb pd gb.filterRegs [] fun new => gather (pd + 1) rest (proxies ++ new)

def gathered : Reads P := gather gb 0 gb.compatible []

/-- What is done with the gathered proxies. -/
def arrange (proxies : List P) : List P :=
  let proxies := if 1 < gb.compatible.length ∧ 1 < gb.filterRegs.length then
      let newProxies := gb.filterRegs.foldl (fun new reg => pick gb reg proxies new) []
      pick gb (fun _ => true) proxies newProxies
    else proxies
  let proxies := proxies.filter fun p => !gb.excludeFilterRegs.any fun reg => reg (gb.name p)
  proxies.filter fun p => !gb.excludeTypeArray.any fun excluded => excluded (gb.type p)

def orFallback (proxies : List P) : List P :=
  if proxies.isEmpty then [gb.emptyFallback] else proxies

/-- The list that belongs to the proxies of the providers. -/
def pipeline (env : Nat → List P) : List P := orFallback gb (arrange gb ((gathered gb).eval env))

/-! ### Calls and updates -/

/-- `baseProvider`. Its version is the number of updates, as a `uint32`. -/
structure Provider (P : Type) where
  proxies : List P
  updates : Nat

/-- Where a call stands. Versions stand as numbers of updates. -/
inductive Place (P : Type)
  | away
  | reading (providerVersions : List Nat)
  | locked (providerVersions : List Nat) (rest : Reads P)

/-- `quiet`: no provider has changed since the call began. -/
structure Caller (P : Type) where
  quiet : Bool
  place : Place P

structure State (P : Type) where
  providers : Nat → Provider P
  callers : Nat → Caller P
  getProxiesMutex : Bool
  providerVersions : List Nat
  providerProxies : List P

variable {gb} {s s' : State P}

def State.init (env : Nat → List P) : State P :=
  ⟨fun pd => ⟨env pd, 0⟩, fun _ => ⟨true, .away⟩, false, [], []⟩

def env (providers : Nat → Provider P) (pd : Nat) : List P := (providers pd).proxies

def State.move (s : State P) (d : Nat) (place : Place P) : State P :=
  { s with callers := Function.update s.callers d { s.callers d with place := place } }

/-- `setProxies` -/
def State.setProxies (s : State P) (pd : Nat) (proxies : List P) : State P :=
  { s with
    providers := Function.update s.providers pd ⟨proxies, (s.providers pd).updates + 1⟩
    callers := fun d => { s.callers d with quiet := false } }

/-- The end of `GetProxies`: the list is cached unless it is empty. -/
def State.finish (s : State P) (vs : List Nat) (proxies : List P) : State P :=
  if proxies.isEmpty then { s with getProxiesMutex := false }
  else { s with
    getProxiesMutex := false, providerVersions := vs, providerProxies := proxies }

/-- `slices.Equal(providerVersions, gb.providerVersions)` -/
def State.Hit (s : State P) (providerVersions : List Nat) : Prop :=
  providerVersions.map UInt32.ofNat = s.providerVersions.map UInt32.ofNat

variable (gb) in
inductive Step (s : State P) : State P → Prop
  | call {d : Nat} (h : (s.callers d).place = .away) :
      Step s { s with callers := Function.update s.callers d ⟨true, .reading []⟩ }
  | version {d : Nat} {vs : List Nat} (h : (s.callers d).place = .reading vs)
      (hlt : vs.length < gb.compatible.length) :
      Step s (s.move d (.reading (vs ++ [(s.providers vs.length).updates])))
  | hit {d : Nat} {vs : List Nat} (h : (s.callers d).place = .reading vs)
      (hlen : vs.length = gb.compatible.length) (hlock : s.getProxiesMutex = false)
      (hhit : s.Hit vs) : Step s (s.move d .away)
  | miss {d : Nat} {vs : List Nat} (h : (s.callers d).place = .reading vs)
      (hlen : vs.length = gb.compatible.length) (hlock : s.getProxiesMutex = false)
      (hhit : ¬ s.Hit vs) :
      Step s ({ s with getProxiesMutex := true }.move d (.locked vs (gathered gb)))
  | proxies {d pd : Nat} {vs : List Nat} {k : List P → Reads P}
      (h : (s.callers d).place = .locked vs (.proxies pd k)) :
      Step s (s.move d (.locked vs (k (env s.providers pd))))
  | ret {d : Nat} {vs : List Nat} {proxies : List P}
      (h : (s.callers d).place = .locked vs (.ret proxies)) :
      Step s ((s.finish vs (arrange gb proxies)).move d .away)
  | setProxies {pd : Nat} (proxies : List P) (h : pd < gb.compatible.length)
      (hlt : (s.providers pd).updates + 1 < 2 ^ 32) : Step s (s.setProxies pd proxies)

variable (gb) in
inductive Reachable : State P → Prop
  | init (env : Nat → List P) : Reachable (.init env)
  | step {s s' : State P} (h : Reachable s) (hs : Step gb s s') : Reachable s'

variable (gb) in
/-- The next step of the call is to return this list. -/
inductive Returns (s : State P) (d : Nat) : List P → Prop
  | hit {vs : List Nat} (h : (s.callers d).place = .reading vs)
      (hlen : vs.length = gb.compatible.length) (hlock : s.getProxiesMutex = false)
      (hhit : s.Hit vs) : Returns s d s.providerProxies
  | ret {vs : List Nat} {proxies : List P}
      (h : (s.callers d).place = .locked vs (.ret proxies)) :
      Returns s d (orFallback gb (arrange gb proxies))

/-! ### The invariant -/

def versions (providers : Nat → Provider P) (n : Nat) : List Nat :=
  (List.range n).map fun pd => (providers pd).updates

/-- Versions that were read some time ago, and what holds if they are still those of the
providers. -/
structure Dated (providers : Nat → Provider P) (n : Nat) (vs : List Nat) (Q : Prop) : Prop where
  le : ∀ pd v, vs[pd]? = some v → v ≤ (providers pd).updates
  eq : vs = versions providers n → Q

variable (gb) in
/-- What is known of where a call stands. -/
def Place.Ok (providers : Nat → Provider P) (quiet : Bool) : Place P → Prop
  | .away => True
  | .reading vs => Dated providers gb.compatible.length vs True ∧
      (quiet = true → vs = versions providers vs.length)
  | .locked vs rest => Dated providers gb.compatible.length vs
        (rest.eval (env providers) = (gathered gb).eval (env providers)) ∧
      (quiet = true → vs = versions providers gb.compatible.length)

variable (gb) in
structure Inv (s : State P) : Prop where
  updates : ∀ pd, (s.providers pd).updates < 2 ^ 32
  cache : Dated s.providers gb.compatible.length s.providerVersions
    (0 < gb.compatible.length → s.providerProxies = pipeline gb (env s.providers))
  callers : ∀ d, (s.callers d).place.Ok gb s.providers (s.callers d).quiet

theorem Inv.place (h : Inv gb s) {d : Nat} {place : Place P} (hd : (s.callers d).place = place) :
    place.Ok gb s.providers (s.callers d).quiet :=
  hd ▸ h.callers d

/-- After an update of a provider, no versions from before are those of the providers. -/
theorem Dated.setProxies {n pd : Nat} {vs : List Nat} {Q Q' : Prop} (h : Dated s.providers n vs Q)
    (hpd : pd < n) (proxies : List P) : Dated (s.setProxies pd proxies).providers n vs Q' := by
  have hle : ∀ pd', (s.providers pd').updates ≤
      ((s.setProxies pd proxies).providers pd').updates := by
    intro pd'
    simp only [State.setProxies, update_apply]
    split
    · rename_i heq
      exact heq ▸ Nat.le_succ _
    · exact le_refl _
  refine ⟨fun pd' v hv => le_trans (h.le pd' v hv) (hle pd'), fun heq => ?_⟩
  have hget : vs[pd]? = some ((s.providers pd).updates + 1) := by
    rw [heq, versions]
    simp [hpd, State.setProxies]
  exact absurd (h.le pd _ hget) (by omega)

/-- There are fewer than `2 ^ 32` updates, so a version stands for one number of them. -/
theorem Inv.eq_of_hit (h : Inv gb s) {vs : List Nat} {n : Nat} {Q : Prop}
    (hvs : Dated s.providers n vs Q) (hhit : s.Hit vs) : vs = s.providerVersions := by
  have hback : ∀ l : List Nat, (∀ pd v, l[pd]? = some v → v ≤ (s.providers pd).updates) →
      (l.map UInt32.ofNat).map UInt32.toNat = l := by
    intro l hl
    conv_rhs => rw [← map_id l]
    rw [map_map]
    refine map_congr_left fun v hv => ?_
    obtain ⟨pd, hpd⟩ := mem_iff_getElem?.mp hv
    exact UInt32.toNat_ofNat_of_lt' (lt_of_le_of_lt (hl pd v hpd) (h.updates pd))
  rw [← hback vs hvs.le, hhit, hback _ h.cache.le]

/-- Only one call has moved. -/
theorem Inv.move (h : Inv gb s) {d : Nat} {place : Place P}
    (hok : place.Ok gb s.providers (s.callers d).quiet) : Inv gb (s.move d place) := by
  refine ⟨h.updates, h.cache, fun d' => ?_⟩
  rw [State.move]
  dsimp only
  rw [update_apply]
  split
  · exact hok
  · exact h.callers d'

theorem Inv.step (h : Inv gb s) (hs : Step gb s s') : Inv gb s' := by
  cases hs with
  | @call d hd =>
    refine ⟨h.updates, h.cache, fun d' => ?_⟩
    dsimp only
    rw [update_apply]
    split
    · exact ⟨⟨nofun, fun _ => trivial⟩, fun _ => rfl⟩
    · exact h.callers d'
  | @version d vs hd hlt =>
    obtain ⟨hdated, hquiet⟩ := h.place hd
    refine h.move ⟨⟨fun pd v hv => ?_, fun _ => trivial⟩, fun hq => ?_⟩
    · -- the version that is read now is current
      rw [getElem?_append] at hv
      split at hv
      · exact hdated.le pd v hv
      · rw [getElem?_singleton] at hv
        split at hv
        · obtain rfl : pd = vs.length := by omega
          cases hv
          exact le_refl _
        · cases hv
    · conv_lhs => rw [hquiet hq]
      simp [versions, range_succ]
  | hit hd hlen hlock hhit => exact h.move trivial
  | @miss d vs hd hlen hlock hhit =>
    obtain ⟨hdated, hquiet⟩ := h.place hd
    have hlocked : Inv gb { s with getProxiesMutex := true } := ⟨h.updates, h.cache, h.callers⟩
    refine hlocked.move ⟨⟨hdated.le, fun _ => rfl⟩, fun hq => ?_⟩
    rw [← hlen]
    exact hquiet hq
  | @proxies d pd vs k hd =>
    obtain ⟨hdated, hquiet⟩ := h.place hd
    -- what is read is what the rest of the gathering would read from these providers
    exact h.move ⟨⟨hdated.le, hdated.eq⟩, hquiet⟩
  | @ret d vs proxies hd =>
    obtain ⟨hdated, hquiet⟩ := h.place hd
    have hfinish : Inv gb (s.finish vs (arrange gb proxies)) := by
      rw [State.finish]
      split
      · exact ⟨h.updates, h.cache, h.callers⟩
      · rename_i hne
        refine ⟨h.updates, ⟨hdated.le, fun heq _ => ?_⟩, h.callers⟩
        -- the versions are still those of the providers, so the reads were all current
        have heval : proxies = (gathered gb).eval (env s.providers) := hdated.eq heq
        rw [pipeline, ← heval, orFallback, if_neg hne]
    exact hfinish.move trivial
  | @setProxies pd proxies hpd hlt =>
    refine ⟨fun pd' => ?_, h.cache.setProxies hpd proxies, fun d => ?_⟩
    · simp only [State.setProxies, update_apply]
      split
      · exact hlt
      · exact h.updates pd'
    · -- no call is quiet any more, and no versions are those of the providers
      change (s.callers d).place.Ok gb (s.setProxies pd proxies).providers false
      cases hplace : (s.callers d).place with
      | away => trivial
      | reading vs | locked vs rest => exact ⟨(h.place hplace).1.setProxies hpd proxies, nofun⟩

theorem Reachable.inv (h : Reachable gb s) : Inv gb s := by
  induction h with
  | init env =>
    refine ⟨fun _ => Nat.two_pow_pos 32, ⟨nofun, fun heq hpos => ?_⟩, fun _ => trivial⟩
    have := congrArg length heq
    simp [versions, State.init] at this
    omega
  | step _ hs ih => exact ih.step hs

/-- A call that no provider changes under returns the list that belongs to the proxies that the
providers have, whatever is in the cache. -/
theorem getProxies_current (h : Reachable gb s) (hpos : 0 < gb.compatible.length) {d : Nat}
    {proxies : List P} (hret : Returns gb s d proxies) (hquiet : (s.callers d).quiet = true) :
    proxies = pipeline gb (env s.providers) := by
  have hinv := h.inv
  cases hret with
  | @hit vs hd hlen hlock hhit =>
    obtain ⟨hdated, hvs⟩ := hinv.place hd
    have hvs := hvs hquiet
    rw [hlen] at hvs
    exact hinv.cache.eq (hinv.eq_of_hit hdated hhit ▸ hvs) hpos
  | @ret vs proxies hd =>
    obtain ⟨hdated, hvs⟩ := hinv.place hd
    have heval : proxies = (gathered gb).eval (env s.providers) := hdated.eq (hvs hquiet)
    rw [pipeline, ← heval]

/-- A group of two providers that excludes the proxies with a name of two bytes. -/
def excluding : Config Nat :=
  ⟨fun p => .replicate p 0, fun _ => [], [], [(·.length = 2)], [], [false, false], 0⟩

/-- The second provider changes after a call has filled the cache. -/
theorem excluding_current : ∃ s, Reachable excluding s ∧ env s.providers 1 = [3] ∧
    orFallback excluding (arrange excluding [1, 2, 3]) = pipeline excluding (env s.providers) := by
  have h₀ : Reachable excluding (.init fun _ => [1, 2]) := .init _
  have h₁ := ((h₀.step (.call (d := 0) rfl)).step (.version (d := 0) rfl (by decide))).step
    (.version (d := 0) rfl (by decide))
  have h₂ := ((h₁.step (.miss (d := 0) rfl rfl rfl nofun)).step (.proxies (d := 0) rfl)).step
    (.proxies (d := 0) rfl)
  have h₃ := (h₂.step (.ret (d := 0) rfl)).step
    (.setProxies [3] (show 1 < excluding.compatible.length by decide) (by decide))
  have h₄ := ((h₃.step (.call (d := 1) rfl)).step (.version (d := 1) rfl (by decide))).step
    (.version (d := 1) rfl (by decide))
  have hmiss : [(0 : UInt32), 1] ≠ [0, 0] := by decide
  have h₅ := ((h₄.step (.miss (d := 1) rfl rfl rfl hmiss)).step (.proxies (d := 1) rfl)).step
    (.proxies (d := 1) rfl)
  exact ⟨_, h₅, rfl, getProxies_current h₅ (by decide) (.ret (d := 1) rfl) rfl⟩

end Hako.Outbound.GroupBase
