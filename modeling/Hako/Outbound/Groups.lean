import Hako.Common.Lru
import Hako.GoLib.Strings

/-!
# Groups that choose a proxy

A `URLTest` group takes the proxy with the smallest delay, and stays with the one it took before if
that is not much slower. A `LoadBalance` group spreads connections by one of three strategies.
-/

namespace Hako.Outbound

open GoLib Common List Nat

/-- A proxy as a group sees it. `history` is the delay of its last test, zero if there was none. -/
structure Proxy where
  name : GoString
  alive : Bool
  history : UInt16
deriving DecidableEq

/-- `LastDelayForTestUrl` -/
def Proxy.lastDelay (p : Proxy) : UInt16 :=
  if ¬ p.alive ∨ p.history = 0 then 0xffff else p.history

def Proxy.delay (p : Proxy) : Nat := p.lastDelay.toNat

/-! ### The fastest proxy -/

/-- The variables of the loop of `fast`. -/
structure Scan where
  fast : Proxy
  minDelay : UInt16
  fastNotExist : Bool

def Scan.step (fastNode : Option Proxy) (s : Scan) (p : Proxy) : Scan :=
  let s := if fastNode.any (p.name = ·.name) then { s with fastNotExist := false } else s
  if ¬ p.alive then s
  else if p.lastDelay < s.minDelay then { s with fast := p, minDelay := p.lastDelay }
  else s

/-- A fresh evaluation of `URLTest.fast` over the list `first :: rest`. What it returns is also the
next `fastNode`. -/
def URLTest.fast (selected : GoString) (fastNode : Option Proxy) (tolerance : UInt16)
    (first : Proxy) (rest : List Proxy) : Proxy :=
  match if selected ≠ [] then (first :: rest).find? fun p => p.alive ∧ p.name = selected
    else none with
  | some p => p
  | none =>
    let s := rest.foldl (Scan.step fastNode) ⟨first, first.lastDelay, true⟩
    match fastNode with
    | none => s.fast
    | some node =>
      if s.fastNotExist ∨ ¬ node.alive ∨ s.fast.lastDelay + tolerance < node.lastDelay then s.fast
      else node

section Fast

variable (tolerance : UInt16) (proxies : List Proxy)

/-- A proxy of the list that is alive and not much slower than any other one. -/
def Near (tolerance : Nat) (node : Proxy) : Prop :=
  node ∈ proxies ∧ node.alive ∧ ∀ p ∈ proxies, p.alive → node.delay ≤ p.delay + tolerance

instance (tolerance : Nat) (node : Proxy) : Decidable (Near proxies tolerance node) :=
  inferInstanceAs (Decidable (_ ∧ _ ∧ _))

/-- What `fast` is for. -/
def Meets (fastNode : Option Proxy) (result : Proxy) : Prop :=
  (∀ node, fastNode = some node → Near proxies tolerance.toNat node → result = node) ∧
  ((¬ ∃ node, fastNode = some node ∧ Near proxies tolerance.toNat node) →
    (∃ p ∈ proxies, p.alive) → Near proxies 0 result)

/-- The smallest delay of a proxy that is alive. -/
def Least (m : Nat) : Prop :=
  (∃ p ∈ proxies, p.alive ∧ p.delay = m) ∧ ∀ p ∈ proxies, p.alive → m ≤ p.delay

/-- The previous node passes the tests of `fast`: it is looked for behind the first proxy only, by
its name, and the limit wraps around. -/
def Held (rest : List Proxy) (m : Nat) (node : Proxy) : Prop :=
  node.name ∈ rest.map Proxy.name ∧ node.alive ∧ node.delay ≤ (m + tolerance.toNat) % 2 ^ 16

/-- Nothing goes wrong: a node that passes the tests is in the list, one that is to be kept passes
them or comes first of the fastest ones, and unless one passes them a first proxy that is dead is
not taken for a fast one. -/
def Undisturbed (fastNode : Option Proxy) (first : Proxy) (rest : List Proxy) : Prop :=
  ∀ m, Least (first :: rest) m →
    (∀ node, fastNode = some node → Held tolerance rest m node → node ∈ first :: rest) ∧
    (∀ node, fastNode = some node → Near (first :: rest) tolerance.toNat node →
      Held tolerance rest m node ∨
        (first :: rest).find? (fun p => p.alive ∧ p.delay = m) = some node) ∧
    ((∃ node, fastNode = some node ∧ Held tolerance rest m node) ∨ first.alive ∨ m < 0xffff)

end Fast

section Scan

variable (fastNode : Option Proxy)

theorem Proxy.delay_le (p : Proxy) : p.delay ≤ 0xffff := le_of_lt_succ p.lastDelay.toNat_lt

theorem Scan.step_fast (s : Scan) (p : Proxy) (hs : s.minDelay = s.fast.lastDelay) :
    (s.step fastNode p).fast = (if p.alive ∧ p.delay < s.fast.delay then p else s.fast) ∧
      (s.step fastNode p).minDelay = (s.step fastNode p).fast.lastDelay := by
  simp only [Scan.step, Proxy.delay, ← UInt16.lt_iff_toNat_lt, ← hs]
  grind

/-- The loop looks for the node by its name. -/
theorem fastNotExist_foldl (node : Proxy) (rest : List Proxy) (s : Scan) :
    (rest.foldl (Scan.step (some node)) s).fastNotExist = true ↔
      s.fastNotExist = true ∧ node.name ∉ rest.map Proxy.name := by
  induction rest generalizing s with
  | nil => simp
  | cons p rest ih =>
    have hstep : (s.step (some node) p).fastNotExist = true ↔
        s.fastNotExist = true ∧ node.name ≠ p.name := by
      simp only [Scan.step, Option.any_some]
      grind
    rw [foldl_cons, ih, hstep, map_cons, mem_cons, not_or, and_assoc]

/-- The loop finds the first of the fastest proxies, unless what it starts from is as fast. -/
theorem fast_foldl (rest : List Proxy) (s : Scan) (hs : s.minDelay = s.fast.lastDelay) :
    (∀ p ∈ rest, p.alive → (rest.foldl (Scan.step fastNode) s).fast.delay ≤ p.delay) ∧
      ((rest.foldl (Scan.step fastNode) s).fast = s.fast ∨
        (rest.foldl (Scan.step fastNode) s).fast.delay < s.fast.delay ∧
        rest.find? (fun p => p.alive ∧ p.delay = (rest.foldl (Scan.step fastNode) s).fast.delay) =
          some (rest.foldl (Scan.step fastNode) s).fast) := by
  induction rest generalizing s with
  | nil => simp
  | cons p rest ih =>
    obtain ⟨hfast, hmin⟩ := s.step_fast fastNode p hs
    obtain ⟨hle, hfound⟩ := ih (s.step fastNode p) hmin
    rw [foldl_cons]
    set fast := (rest.foldl (Scan.step fastNode) (s.step fastNode p)).fast
    rw [hfast] at hfound
    split_ifs at hfound with htaken
    · obtain ⟨halive, hlt⟩ := htaken
      obtain heq | ⟨hless, hfind⟩ := hfound
      · refine ⟨forall_mem_cons.mpr ⟨fun _ => heq ▸ le_rfl, hle⟩, .inr ⟨heq ▸ hlt, ?_⟩⟩
        rw [heq, find?_cons_of_pos (by simp [halive])]
      · refine ⟨forall_mem_cons.mpr ⟨fun _ => hless.le, hle⟩, .inr ⟨hless.trans hlt, ?_⟩⟩
        rw [find?_cons_of_neg (by simp [hless.ne']), hfind]
    · have hp : p.alive → s.fast.delay ≤ p.delay := fun h => not_lt.mp fun hlt => htaken ⟨h, hlt⟩
      obtain heq | ⟨hless, hfind⟩ := hfound
      · exact ⟨forall_mem_cons.mpr ⟨fun h => heq ▸ hp h, hle⟩, .inl heq⟩
      · refine ⟨forall_mem_cons.mpr ⟨fun h => hless.le.trans (hp h), hle⟩, .inr ⟨hless, ?_⟩⟩
        rw [find?_cons_of_neg ?_, hfind]
        simp only [decide_eq_true_eq, not_and]
        exact fun h => (hless.trans_le (hp h)).ne'

variable {m : Nat}

/-- The proxy that the loop finds: it is as fast as the fastest one that is alive, and the first of
these unless a dead one at the head of the list is taken for it. -/
theorem scan_spec (first : Proxy) (rest : List Proxy) (hm : Least (first :: rest) m) {fast : Proxy}
    (hfast : fast = (rest.foldl (Scan.step fastNode) ⟨first, first.lastDelay, true⟩).fast) :
    fast.delay = m ∧ (if first.alive ∨ m < 0xffff then
        (first :: rest).find? (fun p => p.alive ∧ p.delay = m) = some fast
      else fast = first) := by
  obtain ⟨⟨q, hq, hqalive, hqm⟩, hmin⟩ := hm
  obtain ⟨hle, hfound⟩ := fast_foldl fastNode rest ⟨first, first.lastDelay, true⟩ rfl
  rw [← hfast] at hle hfound
  have hqle : fast.delay ≤ m := by
    obtain rfl | hq := mem_cons.mp hq
    · obtain heq | ⟨hlt, -⟩ := hfound
      · exact (congrArg Proxy.delay heq).le.trans hqm.le
      · exact hlt.le.trans hqm.le
    · exact (hle q hq hqalive).trans hqm.le
  obtain heq | ⟨hlt, hfind⟩ := hfound
  · -- The first proxy is taken, dead or alive.
    dsimp only at heq
    subst heq
    cases halive : fast.alive with
    | true =>
      have hm := le_antisymm hqle (hmin fast (by simp) halive)
      refine ⟨hm, ?_⟩
      rw [if_pos (.inl rfl), find?_cons_of_pos (by simp [halive, hm])]
    | false =>
      have hmax : fast.delay = 0xffff := by simp [Proxy.delay, Proxy.lastDelay, halive]
      have hqmax := q.delay_le
      exact ⟨by omega, by rw [if_neg (by simp; omega)]⟩
  · have hmem := mem_of_find?_eq_some hfind
    have hfound := find?_some hfind
    simp only [decide_eq_true_eq, and_true] at hfound
    have hm := le_antisymm hqle (hmin fast (mem_cons_of_mem _ hmem) hfound)
    have hmax := first.delay_le
    refine ⟨hm, ?_⟩
    dsimp only at hlt
    rw [if_pos (.inr (by omega)), find?_cons_of_neg (by simp; omega), ← hm, hfind]

/-- `fast` keeps the previous node if it passes the tests, and takes the one the loop found
otherwise. -/
theorem fast_eq (tolerance : UInt16) (first : Proxy) (rest : List Proxy)
    (hm : Least (first :: rest) m) :
    ∃ fast, (fast.delay = m ∧ (if first.alive ∨ m < 0xffff then
          (first :: rest).find? (fun p => p.alive ∧ p.delay = m) = some fast
        else fast = first)) ∧ (∀ node, fastNode = some node → Held tolerance rest m node →
        URLTest.fast [] fastNode tolerance first rest = node) ∧
      ((¬ ∃ node, fastNode = some node ∧ Held tolerance rest m node) →
        URLTest.fast [] fastNode tolerance first rest = fast) := by
  refine ⟨_, scan_spec fastNode first rest hm rfl, ?_⟩
  obtain ⟨hdelay, -⟩ := scan_spec fastNode first rest hm rfl
  cases fastNode with
  | none => exact ⟨nofun, fun _ => rfl⟩
  | some node =>
    have hlimit : ∀ d : UInt16, d.toNat = m →
        (d + tolerance < node.lastDelay ↔ ¬ node.delay ≤ (m + tolerance.toNat) % 2 ^ 16) := by
      intro d hd
      rw [UInt16.lt_iff_toNat_lt, UInt16.toNat_add, hd, not_le]
      rfl
    simp only [URLTest.fast, ne_eq, not_true_eq_false, if_false, fastNotExist_foldl, true_and,
      hlimit _ hdelay]
    constructor
    · rintro _ ⟨⟩ ⟨hname, halive, hle⟩
      rw [if_neg]
      simp_all
    · intro hheld
      rw [if_pos]
      by_contra hcon
      simp only [not_or, not_not] at hcon
      exact hheld ⟨node, rfl, hcon⟩

end Scan

variable {proxies : List Proxy} {m : Nat}

theorem exists_least (h : ∃ p ∈ proxies, p.alive) :
    ∃ m, Least proxies m := by
  classical
  have hex : ∃ m, ∃ p ∈ proxies, p.alive ∧ p.delay = m := by
    obtain ⟨p, hp, halive⟩ := h
    exact ⟨p.delay, p, hp, halive, rfl⟩
  exact ⟨Nat.find hex, Nat.find_spec hex, fun p hp halive => Nat.find_min' hex ⟨p, hp, halive, rfl⟩⟩

theorem Least.unique {m' : Nat} (h : Least proxies m) (h' : Least proxies m') : m = m' := by
  obtain ⟨⟨p, hp, halive, rfl⟩, hmin⟩ := h
  obtain ⟨⟨p', hp', halive', rfl⟩, hmin'⟩ := h'
  exact le_antisymm (hmin p' hp' halive') (hmin' p hp halive)

/-- A node of the list that passes the tests is to be kept. -/
theorem Held.near {tolerance : UInt16} {first node : Proxy} {rest : List Proxy}
    (h : Held tolerance rest m node) (hm : Least (first :: rest) m) (hmem : node ∈ first :: rest) :
    Near (first :: rest) tolerance.toNat node := by
  refine ⟨hmem, h.2.1, fun p hp halive => ?_⟩
  calc node.delay ≤ (m + tolerance.toNat) % 2 ^ 16 := h.2.2
    _ ≤ m + tolerance.toNat := mod_le _ _
    _ ≤ p.delay + tolerance.toNat := Nat.add_le_add_right (hm.2 p hp halive) _

/-- `fast` does what it is for exactly if nothing of that kind goes wrong. -/
theorem fast_meets_iff (fastNode : Option Proxy) (tolerance : UInt16) (first : Proxy)
    (rest : List Proxy) :
    Meets tolerance (first :: rest) fastNode (URLTest.fast [] fastNode tolerance first rest) ↔
      Undisturbed tolerance fastNode first rest := by
  by_cases halive : ∃ p ∈ first :: rest, p.alive
  swap
  · -- Nothing is asked for if no proxy is alive.
    refine iff_of_true ⟨?_, fun _ h => absurd h halive⟩ ?_
    · exact fun node _ hnear => absurd ⟨node, hnear.1, hnear.2.1⟩ halive
    · exact fun m hm => absurd (hm.1.imp fun _ h => ⟨h.1, h.2.1⟩) halive
  obtain ⟨m, hm⟩ := exists_least halive
  have hall : Undisturbed tolerance fastNode first rest ↔ _ :=
    ⟨fun h => h m hm, fun h m' hm' => hm.unique hm' ▸ h⟩
  rw [hall]
  obtain ⟨fast, ⟨-, hfast⟩, hheld, hother⟩ := fast_eq fastNode tolerance first rest hm
  by_cases hh : ∃ node, fastNode = some node ∧ Held tolerance rest m node
  · -- The previous node passes the tests and is kept, also if the list has lost it.
    obtain ⟨node, rfl, hpass⟩ := hh
    rw [hheld node rfl hpass]
    constructor
    · intro hmeets
      have hmem : node ∈ first :: rest := by
        by_contra hmem
        refine hmem (hmeets.2 ?_ halive).1
        rintro ⟨_, ⟨⟩, hnear⟩
        exact hmem hnear.1
      exact ⟨by rintro _ ⟨⟩ _; exact hmem, by rintro _ ⟨⟩ _; exact .inl hpass,
        .inl ⟨node, rfl, hpass⟩⟩
    · rintro ⟨hmem, -, -⟩
      have hnear := hpass.near hm (hmem node rfl hpass)
      exact ⟨by rintro _ ⟨⟩ _; rfl, fun hnone => absurd ⟨node, rfl, hnear⟩ hnone⟩
  · rw [hother hh]
    by_cases hc : first.alive ∨ m < 0xffff
    · rw [if_pos hc] at hfast
      have hfound := find?_some hfast
      simp only [decide_eq_true_eq] at hfound
      have hnear : Near (first :: rest) 0 fast :=
        ⟨mem_of_find?_eq_some hfast, hfound.1, fun p hp h => hfound.2 ▸ hm.2 p hp h⟩
      rw [hfast]
      constructor
      · intro hmeets
        refine ⟨fun node hnode hpass => absurd ⟨node, hnode, hpass⟩ hh, ?_, .inr hc⟩
        exact fun node hnode h => .inr (congrArg some (hmeets.1 node hnode h))
      · rintro ⟨-, hkept, -⟩
        refine ⟨fun node hnode h => ?_, fun _ _ => hnear⟩
        obtain hpass | hsome := hkept node hnode h
        · exact absurd ⟨node, hnode, hpass⟩ hh
        · exact Option.some.inj hsome
    · -- The first proxy is dead, and no better than those that have not been tested.
      rw [if_neg hc] at hfast
      subst hfast
      refine iff_of_false (fun hmeets => hc (.inl ?_)) ?_
      · by_cases hnear : ∃ node, fastNode = some node ∧ Near (fast :: rest) tolerance.toNat node
        · obtain ⟨node, hnode, hnear⟩ := hnear
          rw [hmeets.1 node hnode hnear]
          exact hnear.2.1
        · exact (hmeets.2 hnear halive).2.1
      · rintro ⟨-, -, hpass | hfirst⟩
        · exact hh hpass
        · exact hc hfirst

/-- The previous node is the first of the list and well within the tolerance; or the limit wraps
around; or a dead proxy comes before one that has not been tested. -/
theorem fast_misses :
    ¬ Meets 50 [⟨[1], true, 20⟩, ⟨[2], true, 10⟩] (some ⟨[1], true, 20⟩)
        (URLTest.fast [] (some ⟨[1], true, 20⟩) 50 ⟨[1], true, 20⟩ [⟨[2], true, 10⟩]) ∧
      ¬ Meets 60000 [⟨[1], true, 10000⟩, ⟨[2], true, 20000⟩] (some ⟨[2], true, 20000⟩)
        (URLTest.fast [] (some ⟨[2], true, 20000⟩) 60000 ⟨[1], true, 10000⟩ [⟨[2], true, 20000⟩]) ∧
      ¬ Meets 50 [⟨[1], false, 0⟩, ⟨[2], true, 0⟩] none
        (URLTest.fast [] none 50 ⟨[1], false, 0⟩ [⟨[2], true, 0⟩]) := by
  refine ⟨fun h => ?_, fun h => ?_, fun h => ?_⟩
  · exact absurd (h.1 _ rfl (by decide)) (by decide)
  · exact absurd (h.1 _ rfl (by decide)) (by decide)
  · exact absurd (h.2 nofun (by decide)) (by decide)

/-! ### Load balancing -/

/-- Some hash into `n` buckets. -/
structure JumpHash where
  hash : UInt64 → Nat → Nat
  lt : ∀ key n, 0 < n → hash key n < n

/-- The proxy at an index is alive. -/
def aliveAt (proxies : List Proxy) (i : Nat) : Bool := proxies[i]?.any (·.alive)

/-- `strategyRoundRobin`, with the index that it keeps between calls. -/
def roundRobin (idx : Nat) (touch : Bool) (proxies : List Proxy) : Option Proxy × Nat :=
  let length := proxies.length
  match (List.range length).find? fun i => aliveAt proxies ((idx + i) % length) with
  | some i => (proxies[(idx + i) % length]?, if touch then (idx + (i + 1)) % length else idx)
  | none => (proxies[0]?, if touch then (idx + length) % length else idx)

/-- `strategyConsistentHashing` -/
def consistentHashing (jump : JumpHash) (key : UInt64) (proxies : List Proxy) : Option Proxy :=
  let tries := (List.range 5).map fun i => jump.hash (key + UInt64.ofNat i) proxies.length
  match tries.find? (aliveAt proxies) with
  | some idx => proxies[idx]?
  | none => (proxies.find? (·.alive)).or proxies[0]?

/-- The indices that `strategyStickySessions` tries: the one it has for the key, if the list still
has it, and three more that depend on the clock. -/
def stickyTries (jump : JumpHash) (cached : Option Nat) (nano : Nat → UInt64) (key : UInt64)
    (length : Nat) : List Nat :=
  let next i := jump.hash (key + nano i) length
  ((cached.filter (· < length)).getD (next 0)) :: [next 1, next 2, next 3]

/-- `strategyStickySessions`, with its cache; `nano` are the readings of the clock. -/
def stickySessions (jump : JumpHash) (cache : LruCache UInt64 Nat) (now : Int)
    (nano : Nat → UInt64) (key : UInt64) (proxies : List Proxy) :
    Option Proxy × LruCache UInt64 Nat :=
  let (cached, cache) := cache.get now key
  let tries := stickyTries jump cached nano key proxies.length
  match tries.find? (aliveAt proxies) with
  | some idx =>
    (proxies[idx]?,
      if cached.isNone ∨ tries.head? ≠ some idx then cache.set now key idx else cache)
  | none => (proxies[0]?, cache.set now key 0)

section Strategies

variable {proxies : List Proxy} {idx : Nat}

theorem exists_of_aliveAt {i : Nat} (h : aliveAt proxies i) :
    ∃ p, proxies[i]? = some p ∧ p.alive := by
  obtain ⟨p, hp, halive⟩ := (Option.any_eq_true _ _).mp h
  exact ⟨p, hp, halive⟩

/-- Seen from the index, a call takes the first proxy that is alive; if it touches, it puts it
last. -/
theorem roundRobin_rotate {p : Proxy} {rest : List Proxy} (touch : Bool)
    (h : (proxies.rotate idx).filter (·.alive) = p :: rest) :
    ∃ next, roundRobin idx touch proxies = (some p, if touch then next else idx) ∧
      (proxies.rotate next).filter (·.alive) = rest ++ [p] := by
  obtain ⟨dead, behind, hrotate, hdead, halive, hrest⟩ := filter_eq_cons_iff.mp h
  have hlength : dead.length < proxies.length := by
    rw [← length_rotate proxies idx, hrotate]
    simp
  have hget : ∀ i ≤ dead.length, proxies[(idx + i) % proxies.length]? =
      (dead ++ p :: behind)[i]? := by
    intro i hi
    rw [← hrotate, getElem?_rotate (lt_of_le_of_lt hi hlength), add_comm]
  have hfind : (range proxies.length).find?
      (fun i => aliveAt proxies ((idx + i) % proxies.length)) = some dead.length := by
    rw [find?_range_eq_some]
    refine ⟨?_, mem_range.mpr hlength, fun i hi => ?_⟩
    · rw [aliveAt, hget _ le_rfl]
      simp [halive]
    · rw [aliveAt, hget _ (le_of_lt hi), getElem?_append_left hi, getElem?_eq_getElem hi]
      simpa using hdead _ (getElem_mem hi)
  refine ⟨(idx + (dead.length + 1)) % proxies.length, ?_, ?_⟩
  · simp only [roundRobin, hfind, hget _ le_rfl]
    simp
  · have hnext : (dead ++ p :: behind).rotate (dead.length + 1) = behind ++ (dead ++ [p]) := by
      rw [append_cons dead p behind, ← rotate_append_length_eq (dead ++ [p]) behind]
      simp
    have hnone : dead.filter (·.alive) = [] := filter_eq_nil_iff.mpr hdead
    rw [rotate_mod, ← rotate_rotate, hrotate, hnext, filter_append, filter_append, hrest, hnone]
    simp [halive]

theorem roundRobin_alive (idx : Nat) (touch : Bool) (h : ∃ p ∈ proxies, p.alive) :
    ∃ p, (roundRobin idx touch proxies).1 = some p ∧ p.alive := by
  cases hq : (proxies.rotate idx).filter (·.alive) with
  | nil =>
    obtain ⟨p, hp, halive⟩ := h
    exact absurd halive (filter_eq_nil_iff.mp hq p (mem_rotate.mpr hp))
  | cons q rest =>
    obtain ⟨next, hcall, -⟩ := roundRobin_rotate touch hq
    exact ⟨q, congrArg Prod.fst hcall, of_mem_filter (hq ▸ mem_cons_self)⟩

theorem consistentHashing_alive (jump : JumpHash) (key : UInt64) (h : ∃ p ∈ proxies, p.alive) :
    ∃ p, consistentHashing jump key proxies = some p ∧ p.alive := by
  rw [consistentHashing]
  split
  · next hfind => exact exists_of_aliveAt (find?_some hfind)
  · cases hfind : proxies.find? (·.alive) with
    | some p => exact ⟨p, rfl, find?_some hfind⟩
    | none =>
      obtain ⟨p, hp, halive⟩ := h
      exact absurd halive (find?_eq_none.mp hfind p hp)

/-- Round robin and consistent hashing find a proxy that is alive. Sticky sessions do exactly if one
of the four indices that are tried is that of such a proxy, or if the first one is. -/
theorem strategies_alive_iff (jump : JumpHash) (proxies : List Proxy) :
    ((∃ p ∈ proxies, p.alive) →
      (∀ idx touch, ∃ p, (roundRobin idx touch proxies).1 = some p ∧ p.alive) ∧
      ∀ key, ∃ p, consistentHashing jump key proxies = some p ∧ p.alive) ∧ ∀ cache now nano key,
      ((∃ p ∈ proxies, p.alive) →
        ∃ p, (stickySessions jump cache now nano key proxies).1 = some p ∧ p.alive) ↔
      ((∃ p ∈ proxies, p.alive) →
        (∃ i ∈ stickyTries jump (cache.get now key).1 nano key proxies.length,
          aliveAt proxies i) ∨ aliveAt proxies 0) := by
  refine ⟨fun h => ⟨fun idx touch => roundRobin_alive idx touch h,
    fun key => consistentHashing_alive jump key h⟩, fun cache now nano key => ?_⟩
  refine imp_congr_right fun _ => ?_
  rw [stickySessions]
  dsimp only
  split
  · next idx hfind =>
    have halive := find?_some hfind
    exact iff_of_true (exists_of_aliveAt halive) (.inl ⟨idx, mem_of_find?_eq_some hfind, halive⟩)
  · next hfind =>
    -- all four tries are dead, so the first proxy of the list is returned
    have hdead := find?_eq_none.mp hfind
    constructor
    · rintro ⟨p, hp, halive⟩
      exact .inr ((Option.any_eq_true _ _).mpr ⟨p, hp, halive⟩)
    · rintro (⟨i, hi, halive⟩ | hfirst)
      · exact absurd halive (hdead i hi)
      · exact exists_of_aliveAt hfirst

/-! ### Rounds -/

/-- What the touching calls return, with other calls between them. -/
def roundRobinCalls (proxies : List Proxy) : Nat → List Bool → List Proxy
  | _, [] => []
  | idx, touch :: touches =>
    let (p, next) := roundRobin idx touch proxies
    (if touch then p.toList else []) ++ roundRobinCalls proxies next touches

/-- Calls without touch change nothing. -/
theorem roundRobinCalls_eq (proxies : List Proxy) (idx : Nat) (touches : List Bool) :
    roundRobinCalls proxies idx touches =
      roundRobinCalls proxies idx (replicate (touches.count true) true) := by
  induction touches generalizing idx with
  | nil => rfl
  | cons touch touches ih =>
    cases touch with
    | false =>
      have hidx : (roundRobin idx false proxies).2 = idx := by
        rw [roundRobin]
        split <;> rfl
      simpa [roundRobinCalls, hidx] using ih idx
    | true => simp [roundRobinCalls, replicate_succ, ih]

/-- As many calls as there are proxies in `xs` return these. -/
theorem roundRobinCalls_round {xs ys : List Proxy}
    (h : (proxies.rotate idx).filter (·.alive) = xs ++ ys) (touches : List Bool) :
    ∃ next, (proxies.rotate next).filter (·.alive) = ys ++ xs ∧
      roundRobinCalls proxies idx (replicate xs.length true ++ touches) =
        xs ++ roundRobinCalls proxies next touches := by
  induction xs generalizing idx ys with
  | nil => exact ⟨idx, by simpa using h, rfl⟩
  | cons p xs ih =>
    obtain ⟨next, hcall, hnext⟩ := roundRobin_rotate true h
    obtain ⟨last, hlast, hcalls⟩ := ih (hnext.trans (append_assoc ..))
    refine ⟨last, by simpa using hlast, ?_⟩
    simp [roundRobinCalls, replicate_succ, hcall, hcalls]

/-- In `k` rounds of touching calls every proxy that is alive is returned `k` times for each
place it has in the list. -/
theorem roundRobin_fair (proxies : List Proxy) (idx k : Nat) (touches : List Bool)
    (h : touches.count true = k * proxies.countP (·.alive)) (p : Proxy) (hp : p.alive) :
    (roundRobinCalls proxies idx touches).count p = k * proxies.count p := by
  rw [roundRobinCalls_eq, h]
  clear h
  induction k generalizing idx with
  | zero => simp [roundRobinCalls]
  | succ k ih =>
    obtain ⟨next, -, hcalls⟩ := roundRobinCalls_round (append_nil _).symm
      (replicate (k * proxies.countP (·.alive)) true)
    have hperm := rotate_perm proxies idx
    rw [← countP_eq_length_filter, hperm.countP_eq, replicate_append_replicate, add_comm,
      ← succ_mul] at hcalls
    rw [hcalls, count_append, ih, count_filter hp, hperm.count_eq, succ_mul, add_comm]

theorem roundRobin_fair_two :
    (roundRobinCalls [⟨[1], true, 0⟩, ⟨[2], false, 0⟩, ⟨[3], true, 0⟩] 7
      [true, false, true, true, true]).count ⟨[3], true, 0⟩ = 2 :=
  roundRobin_fair _ 7 2 _ (by decide) _ rfl

end Strategies

/-- A hash that always gives the first index, and a first proxy that is dead. -/
theorem sticky_stays_dead :
    (stickySessions ⟨fun _ _ => 0, fun _ _ h => h⟩ (.new 600 1000 false false) 0 (fun _ => 0) 7
      [⟨[1], false, 0⟩, ⟨[2], true, 10⟩]).1 = some ⟨[1], false, 0⟩ := by
  decide

end Hako.Outbound
