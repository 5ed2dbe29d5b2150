import Hako.FakeIP.Cachefile

/-!
# Sessions of a persistent fake-IP pool

Sessions of pools over one cache file: a process makes calls on its pool, a new pool is built
over the same store, or a new process opens the database that the last one has left. The
bucket may be cut off between the two writes of a mapping, so what every bucket satisfies is
one-sided: the address of a host leads back to that host.
-/

namespace Hako.FakeIP

open GoLib WriteBehind Option Function FakeIpStore Store Pool

/-- The names in use, among them the keys of a pool's stored state. -/
structure SessionNames extends Names where
  offsetKey_mem : offsetKey ∈ hosts
  cycleKey_mem : cycleKey ∈ hosts

/-- The hosts a pool is asked for: not the keys of its stored state. -/
def UserHost (N : SessionNames) (host : GoString) : Prop :=
  host ∈ N.hosts ∧ host ≠ offsetKey ∧ host ≠ cycleKey

/-- What holds of every bucket the database may be left with. -/
structure Consistent (N : SessionNames) (b : Bucket) : Prop where
  stored : ∀ a ∈ N.addrs, ∀ host, b a.asSlice = some host → UserHost N host
  back : ∀ host, UserHost N host → ∀ v, b host = some v →
    ∃ ip ∈ N.addrs, ip.isValid ∧ v = ip.asSlice ∧ b v = some host
  offset : ∀ ip, getByHost b offsetKey = some ip → ip.val + 1 < 2 ^ ip.bitLen
  nil : b [] = none

namespace Consistent

variable {N : SessionNames} {b : Bucket} {host : GoString} {ip : Addr}

theorem empty : Consistent N .empty := ⟨nofun, nofun, nofun, rfl⟩

variable (h : Consistent N b)
include h

theorem storedIn : N.StoredIn b := fun a ha host hb => (h.stored a ha host hb).1

/-- A host with an address is the host of that address. -/
theorem getByIP_of_getByHost (hhost : UserHost N host) (hip : getByHost b host = some ip) :
    ip ∈ N.addrs ∧ b host = some ip.asSlice ∧ getByIP b ip = some host := by
  obtain ⟨v, hv, hslice⟩ := bind_eq_some_iff.mp hip
  obtain ⟨ip', hip', hvalid, rfl, hback⟩ := h.back host hhost v hv
  rw [Addr.addrFromSlice_asSlice hvalid (N.zone ip' hip')] at hslice
  obtain rfl := some.inj hslice
  exact ⟨hip', hv, hback⟩

/-- A state key is none of the other keys. -/
theorem putState {key v : GoString} (hkey : key ∈ N.hosts)
    (hstate : key = offsetKey ∨ key = cycleKey)
    (hoff : key = offsetKey → ∀ ip, addrFromSlice v = some ip → ip.val + 1 < 2 ^ ip.bitLen) :
    Consistent N (update b key (some v)) := by
  have haddr : ∀ a ∈ N.addrs, a.asSlice ≠ key := fun a ha => (N.ne_asSlice key hkey a ha).symm
  have huser : ∀ host, UserHost N host → host ≠ key := by
    rintro host ⟨-, ho, hc⟩ rfl
    exact hstate.elim ho hc
  refine ⟨fun a ha host hb => ?_, fun host hhost w hb => ?_, fun ip hip => ?_, ?_⟩
  · rw [update_of_ne (haddr a ha)] at hb
    exact h.stored a ha host hb
  · rw [update_of_ne (huser host hhost)] at hb
    obtain ⟨ip, hip, hvalid, rfl, hback⟩ := h.back host hhost w hb
    exact ⟨ip, hip, hvalid, rfl, by rwa [update_of_ne (haddr ip hip)]⟩
  · by_cases hk : offsetKey = key
    · subst hk
      exact hoff rfl ip hip
    · rw [FakeIpStore.getByHost, update_of_ne hk] at hip
      exact h.offset ip hip
  · have hne : [] ≠ key := by
      rintro rfl
      rcases hstate with hs | hs <;> cases hs
    rw [update_of_ne hne]
    exact h.nil

variable (hip : ip ∈ N.addrs)
include hip

/-- Freeing an address removes its host's mapping with it. -/
theorem delByIP : Consistent N (delByIP b ip) := by
  refine ⟨fun a ha host hb => h.stored a ha host (delByIP_eq_some hb),
    fun host hhost v hb => ?_, fun ip' hip' => ?_, ?_⟩
  · obtain ⟨a, ha, hvalid, rfl, hback⟩ := h.back host hhost v (delByIP_eq_some hb)
    refine ⟨a, ha, hvalid, rfl, ?_⟩
    rw [delByIP_of_ne ?_ fun hc => ?_, hback]
    · -- the freed address itself would lead to this host, which is then deleted too
      intro heq
      rw [heq] at hback
      have hne : host ≠ [] := by
        rintro rfl
        exact absurd ((delByIP_eq_some hb).symm.trans h.nil) nofun
      rw [delByIP_apply, if_pos (.inr ⟨hback, hne⟩)] at hb
      cases hb
    · exact absurd rfl (N.ne_asSlice _ (h.stored ip hip _ hc).1 a ha)
  · obtain ⟨v, hv, hslice⟩ := bind_eq_some_iff.mp hip'
    refine h.offset ip' ?_
    rw [FakeIpStore.getByHost, FakeIpStore.delByIP_eq_some hv]
    exact hslice
  · rw [delByIP_apply]
    split
    · rfl
    · exact h.nil

/-- After freeing an address no host is left with it. -/
theorem delByIP_free :
    FakeIpStore.delByIP b ip ip.asSlice = none ∧
      ∀ host, UserHost N host → FakeIpStore.delByIP b ip host ≠ some ip.asSlice := by
  refine ⟨by rw [delByIP_apply, if_pos (.inl rfl)], fun host hhost hb => ?_⟩
  obtain ⟨a, ha, -, heq, hback⟩ := (h.delByIP hip).back host hhost _ hb
  rw [delByIP_apply, if_pos (.inl rfl)] at hback
  cases hback

omit hip in
/-- An address that leads nowhere is the address of no host. -/
theorem free_of_eq_none (hnone : b ip.asSlice = none) :
    ∀ host, UserHost N host → b host ≠ some ip.asSlice := by
  intro host hhost hb
  obtain ⟨a, -, -, -, hback⟩ := h.back host hhost _ hb
  exact absurd (hnone.symm.trans hback) nofun

/-- Giving a free address to a host, first direction. -/
theorem putByIP (hvalid : ip.isValid)
    (hfree : ∀ host, UserHost N host → b host ≠ some ip.asSlice) (hhost : UserHost N host) :
    Consistent N (update b ip.asSlice (some host)) := by
  refine ⟨fun a ha host' hb => ?_, fun host' hhost' v hb => ?_, fun ip' hip' => ?_, ?_⟩
  · by_cases heq : a.asSlice = ip.asSlice
    · rw [heq, update_self] at hb
      exact some.inj hb ▸ hhost
    · rw [update_of_ne heq] at hb
      exact h.stored a ha host' hb
  · rw [update_of_ne (N.ne_asSlice host' hhost'.1 ip hip)] at hb
    obtain ⟨a, ha, hva, rfl, hback⟩ := h.back host' hhost' v hb
    refine ⟨a, ha, hva, rfl, ?_⟩
    rw [update_of_ne ?_, hback]
    intro heq
    rw [heq] at hb
    exact hfree host' hhost' hb
  · rw [FakeIpStore.getByHost, update_of_ne (N.ne_asSlice _ N.offsetKey_mem ip hip)] at hip'
    exact h.offset ip' hip'
  · rw [update_of_ne (Ne.symm (Addr.asSlice_ne_nil hvalid))]
    exact h.nil

/-- Giving a free address to a host, second direction. -/
theorem putByHost (hvalid : ip.isValid)
    (hhost : UserHost N host) (hne : host ≠ []) (hback : b ip.asSlice = some host) :
    Consistent N (update b host (some ip.asSlice)) := by
  have haddr : ∀ a ∈ N.addrs, a.asSlice ≠ host := fun a ha =>
    (N.ne_asSlice host hhost.1 a ha).symm
  refine ⟨fun a ha host' hb => ?_, fun host' hhost' v hb => ?_, fun ip' hip' => ?_, ?_⟩
  · rw [update_of_ne (haddr a ha)] at hb
    exact h.stored a ha host' hb
  · by_cases heq : host' = host
    · subst heq
      rw [update_self] at hb
      obtain rfl := some.inj hb
      exact ⟨ip, hip, hvalid, rfl, by rw [update_of_ne (haddr ip hip), hback]⟩
    · rw [update_of_ne heq] at hb
      obtain ⟨a, ha, hva, rfl, hb'⟩ := h.back host' hhost' v hb
      exact ⟨a, ha, hva, rfl, by rw [update_of_ne (haddr a ha), hb']⟩
  · rw [FakeIpStore.getByHost, update_of_ne hhost.2.1.symm] at hip'
    exact h.offset ip' hip'
  · rw [update_of_ne (Ne.symm hne)]
    exact h.nil

end Consistent

/-! ### Sessions -/

/-- What happens to a pool and its store. -/
inductive SessionOp where
  | call (op : PoolOp)
  | storeState
  /-- `New` on the same cache file, by the same process or by a new one. -/
  | new (ipnet : Prefix) (restart : Bool)

/-- The store a new pool gets: the shared write-behind store, or a fresh one over the
database. -/
def CachefileStore.reopen (c : CachefileStore) (restart : Bool) : CachefileStore :=
  if restart then { c with wb := init c.wb.db } else c

def SessionOp.apply (p : Pool CachefileStore) : SessionOp → Pool CachefileStore
  | call op => op.apply p
  | storeState => p.storeState
  | new ipnet restart =>
    match Pool.new ipnet (p.store.reopen restart) with
    | .ok q => q
    | .error _ => p

/-- `restoreState` keeps the bucket it finds. -/
def Keeps (q : Pool CachefileStore) (b : Bucket) : Prop :=
  match getByHost b offsetKey with
  | some offset => q.ipnet.contains offset
  | none => getByIP b q.first = none

/-- The hosts of a bucket have their addresses in the range of a pool. -/
def HostsInRange (N : SessionNames) (p : Pool CachefileStore) (b : Bucket) : Prop :=
  ∀ host ip, UserHost N host → getByHost b host = some ip → p.InRange ip

namespace HostsInRange

variable {N : SessionNames} {p : Pool CachefileStore} {b b' : Bucket} {ip : Addr}
  {host : GoString}

theorem empty : HostsInRange N p .empty := fun _ _ _ h => by cases h

variable (h : HostsInRange N p b)
include h

theorem mono (hsub : ∀ key v, b' key = some v → b key = some v) : HostsInRange N p b' := by
  intro host ip hhost hget
  obtain ⟨v, hv, hslice⟩ := bind_eq_some_iff.mp hget
  refine h host ip hhost ?_
  rw [FakeIpStore.getByHost, hsub host v hv]
  exact hslice

theorem update_asSlice (hip : ip ∈ N.addrs) (v : Option GoString) :
    HostsInRange N p (update b ip.asSlice v) := by
  intro host ip' hhost hget
  rw [FakeIpStore.getByHost, update_of_ne (N.ne_asSlice host hhost.1 ip hip)] at hget
  exact h host ip' hhost hget

theorem update_host (hr : p.InRange ip) (hv : ip.isValid) :
    HostsInRange N p (update b host (some ip.asSlice)) := by
  intro host' ip' hhost' hget
  by_cases heq : host' = host
  · subst heq
    rw [FakeIpStore.getByHost, update_self, bind_some, Addr.addrFromSlice_asSlice hv hr.2.1] at hget
    exact some.inj hget ▸ hr
  · rw [FakeIpStore.getByHost, update_of_ne heq] at hget
    exact h host' ip' hhost' hget

end HostsInRange

/-- A bucket that is kept has its hosts in the range of the new pool and its cursor at or
after the address before the first one. -/
def Restorable (N : SessionNames) (q : Pool CachefileStore) (b : Bucket) : Prop :=
  Keeps q b →
    HostsInRange N q b ∧
    ∀ offset, getByHost b offsetKey = some offset → q.first.val ≤ offset.val + 1

/-- The range of a new pool consists of addresses in use. -/
def Covers (N : SessionNames) (q : Pool CachefileStore) : Prop := ∀ ip, q.InRange ip → ip ∈ N.addrs

/-- The steps for which the range is respected: lookups of hosts other than the state keys,
and new pools of the same family that find a store they can take over or drop it. -/
def Allowed (N : SessionNames) (p : Pool CachefileStore) : SessionOp → Prop
  | .call (.lookup host) => UserHost N (toLower host)
  | .call _ => True
  | .storeState => True
  | .new ipnet restart => ipnet.addr.bitLen = p.ipnet.addr.bitLen ∧
      ∀ q, init ipnet (p.store.reopen restart) = .ok q →
        Covers N q ∧ Restorable N q (p.store.reopen restart).wb.direct

/-- The pools that sequences of sessions lead to, from an empty cache file. -/
inductive Sessions (N : SessionNames) : Pool CachefileStore → Prop
  | start {ipnet : Prefix} {ticks : List Nat} {p : Pool CachefileStore}
      (hcovers : ∀ q, init ipnet ⟨init .empty, ticks⟩ = .ok q → Covers N q)
      (hnew : new ipnet ⟨init .empty, ticks⟩ = .ok p) : Sessions N p
  | step {p : Pool CachefileStore} {op : SessionOp} (hp : Sessions N p)
      (hop : Allowed N p op) : Sessions N (op.apply p)

/-- What holds of a pool between calls. -/
structure SessionInv (N : SessionNames) (p : Pool CachefileStore) : Prop extends p.Ranged where
  good : Good N.toNames (Consistent N) p.store
  inRange : HostsInRange N p p.store.wb.direct
  covers : Covers N p

namespace SessionInv

variable {N : SessionNames} {p : Pool CachefileStore}

section

variable (h : SessionInv N p)
include h

theorem consistent : Consistent N p.store.wb.direct := Quiet.direct h.good

theorem valid_of_inRange {ip : Addr} (hip : p.InRange ip) : ip.isValid := by
  rw [Addr.isValid_iff, hip.1]
  exact h.bitLen_ne_zero

/-- Reads of the store change nothing the pool can see. -/
theorem withStore {c : CachefileStore}
    (hgood : Good N.toNames (Consistent N) c) (hd : c.wb.direct = p.store.wb.direct) :
    SessionInv N { p with store := c } :=
  { h.toRanged with
    good := hgood
    inRange := by
      rw [hd]
      exact h.inRange
    covers := h.covers }

/-- Before `get` writes the new mapping, no host has the cursor's address. -/
theorem freed (hoff : p.InRange p.offset) :
    Good N.toNames (Consistent N) p.freed ∧
      (∀ host, UserHost N host → p.freed.wb.direct host ≠ some p.offset.asSlice) ∧
      ∀ key v, p.freed.wb.direct key = some v → p.store.wb.direct key = some v := by
  have hip := h.covers _ hoff
  have hcons := h.consistent
  -- the bucket after a deletion, from a store with the same direct bucket
  have hdel : ∀ c : CachefileStore, Good N.toNames (Consistent N) c →
      c.wb.direct = p.store.wb.direct →
      Good N.toNames (Consistent N) (Store.delByIP c p.offset) ∧
        (∀ host, UserHost N host →
          (Store.delByIP c p.offset).wb.direct host ≠ some p.offset.asSlice) ∧
        ∀ key v, (Store.delByIP c p.offset).wb.direct key = some v →
          p.store.wb.direct key = some v := by
    intro c hc hd
    obtain ⟨hg, hdirect⟩ := hc.delByIP hip (hd ▸ hcons.delByIP hip)
    refine ⟨hg, fun host hhost => ?_, fun key v hv => ?_⟩
    · rw [show (Store.delByIP c p.offset).wb.direct = _ from hdirect, hd]
      exact (hcons.delByIP_free hip).2 host hhost
    · rw [show (Store.delByIP c p.offset).wb.direct = _ from hdirect, hd] at hv
      exact FakeIpStore.delByIP_eq_some hv
  obtain ⟨hg, hd, hres⟩ := h.good.getByIP p.offset
  unfold Pool.freed
  split
  · exact hdel _ h.good rfl
  · split <;> rename_i s hs <;> obtain ⟨he, rfl⟩ := Prod.mk.inj hs
    · exact hdel _ hg hd
    · have hnone : p.store.wb.direct p.offset.asSlice = none := by
        rw [hres hip] at he
        simpa [FakeIpStore.getByIP] using he
      refine ⟨hg, fun host hhost => ?_, fun key v hv => hd ▸ hv⟩
      rw [hd]
      exact hcons.free_of_eq_none hnone host hhost

theorem advance :
    SessionInv N p.advance ∧ p.advance.InRange p.advance.offset := by
  obtain ⟨hr, hin, hfirst, hlast, -, hstore⟩ := h.toRanged.advance
  have hrange : ∀ ip, p.advance.InRange ip ↔ p.InRange ip := fun ip => by
    rw [InRange, InRange, hfirst, hlast]
  refine ⟨{ hr with good := hstore ▸ h.good, inRange := ?_, covers := ?_ }, hin⟩
  · rw [hstore]
    exact fun host ip hhost hip => (hrange ip).mpr (h.inRange host ip hhost hip)
  · exact fun ip hip => h.covers ip ((hrange ip).mp hip)

variable {host : GoString}

/-- A new mapping from `host` to the next address, written in both directions. -/
theorem get_put (hhost : UserHost N host) :
    let q := (p.get host).2
    let c := putByHost q.store host (p.get host).1
    SessionInv N { q with store := c } ∧ q.InRange (p.get host).1 ∧
      c.wb.direct (p.get host).1.asSlice = some host := by
  obtain ⟨hadv, hin⟩ := h.advance
  obtain ⟨hfree, hnohost, hsub⟩ := hadv.freed hin
  have hip := hadv.covers _ hin
  have hvalid := hadv.valid_of_inRange hin
  have hne := Addr.asSlice_ne_nil hvalid
  have hzone := N.zone _ hip
  have hcons : Consistent N p.advance.freed.wb.direct := Quiet.direct hfree
  obtain ⟨hg₁, hd₁⟩ := hfree.putByIP hhost.1 hip hne (hcons.putByIP hip hvalid hnohost hhost)
  have hback : (p.advance.freed.write (.putByIP p.advance.offset host)).wb.direct
      p.advance.offset.asSlice = some host := by rw [hd₁, update_self]
  have hrange : HostsInRange N p.advance
      (p.advance.freed.write (.putByIP p.advance.offset host)).wb.direct := by
    rw [hd₁]
    exact (hadv.inRange.mono hsub).update_asSlice hip _
  -- the second direction is not written for the empty host
  by_cases hnil : host = []
  · subst hnil
    obtain ⟨hg₂, hd₂⟩ := hg₁.putByHost_nil hhost.1 ⟨hvalid, hzone⟩
    refine ⟨{ hadv.toRanged with good := hg₂, inRange := ?_, covers := hadv.covers }, hin, ?_⟩
    · exact fun host' ip hh hget => hrange host' ip hh (hd₂ ▸ hget)
    · exact (congrFun hd₂ _).trans hback
  · obtain ⟨hg₂, hd₂⟩ := hg₁.putByHost hhost.1 hnil ⟨hvalid, hzone⟩
      ((Quiet.direct hg₁).putByHost hip hvalid hhost hnil hback)
    refine ⟨{ hadv.toRanged with good := hg₂, inRange := ?_, covers := hadv.covers }, hin, ?_⟩
    · exact fun host' ip hh hget => hrange.update_host hin hvalid host' ip hh (hd₂ ▸ hget)
    · refine (congrFun hd₂ _).trans ?_
      exact (update_of_ne (N.ne_asSlice host hhost.1 _ hip).symm _ _).trans hback

/-- `Lookup` answers with an address of the range that leads back to the host. -/
theorem lookup (hhost : UserHost N (toLower host)) :
    SessionInv N (p.lookup host).2 ∧ (p.lookup host).2.InRange (p.lookup host).1 ∧
      (p.lookup host).2.store.wb.direct (p.lookup host).1.asSlice = some (toLower host) := by
  obtain ⟨hg, hd, hres⟩ := h.good.getByHost hhost.1
  have hstore := h.withStore hg hd
  have hget : getByHost p.store (toLower host) = p.store.getByHost (toLower host) := rfl
  rw [Pool.lookup, hget]
  revert hg hd hres hstore
  rcases p.store.getByHost (toLower host) with ⟨_ | ip, c⟩
  · intro hg hd hres hstore
    exact hstore.get_put hhost
  · intro hg hd hres hstore
    refine ⟨hstore, h.inRange _ ip hhost hres.symm, ?_⟩
    rw [hd]
    exact (h.consistent.getByIP_of_getByHost hhost hres.symm).2.2

theorem lookBack (ip : Addr) :
    SessionInv N (p.lookBack ip).2 ∧
      (ip ∈ N.addrs → (p.lookBack ip).1 = p.store.wb.direct ip.asSlice) := by
  obtain ⟨hg, hd, hres⟩ := h.good.getByIP ip
  exact ⟨h.withStore hg hd, hres⟩

end

/-- A flush leaves a pool in order whatever its store held. -/
theorem of_flush (hr : p.Range) (hgood : Good N.toNames (Consistent N) p.store)
    (hcovers : Covers N p) : SessionInv N p.flushFakeIP.2 := by
  obtain ⟨hg, hd⟩ := hgood.flushFakeIP Consistent.empty
  exact {
    hr.reset _ with
    good := hg
    inRange := by
      change HostsInRange N _ (flushFakeIP p.store).2.wb.direct
      rw [hd]
      exact HostsInRange.empty
    covers := hcovers }

variable {c : CachefileStore}

/-- `StoreState` writes the cursor under a state key. -/
theorem putState (h : SessionInv N p) (hg : Good N.toNames (Consistent N) c)
    (hrange : HostsInRange N p c.wb.direct) {key : GoString} (hmem : key ∈ N.hosts)
    (hkey : key = offsetKey ∨ key = cycleKey) :
    Good N.toNames (Consistent N) (Store.putByHost c key p.offset) ∧
      HostsInRange N p (Store.putByHost c key p.offset).wb.direct := by
  have hvalid : p.offset.isValid := by
    rw [Addr.isValid_iff, h.offsetLen]
    exact h.bitLen_ne_zero
  have hslice := Addr.addrFromSlice_asSlice hvalid h.offsetZone
  have hne : key ≠ [] := by rcases hkey with rfl | rfl <;> decide
  have hcons := (Quiet.direct hg).putState hmem hkey (v := p.offset.asSlice) fun _ ip hip =>
    some.inj (hslice.symm.trans hip) ▸ h.offset_lt
  obtain ⟨hg', hd⟩ := hg.putByHost hmem hne ⟨hvalid, h.offsetZone⟩ hcons
  refine ⟨hg', fun host ip hhost hget => hrange host ip hhost ?_⟩
  rw [show (Store.putByHost c key p.offset).wb.direct = _ from hd, FakeIpStore.getByHost,
    update_of_ne] at hget
  · exact hget
  · rintro rfl
    exact hkey.elim hhost.2.1 hhost.2.2

theorem storeState (h : SessionInv N p) : SessionInv N p.storeState := by
  obtain ⟨hg₁, hr₁⟩ := h.putState h.good h.inRange N.offsetKey_mem (.inl rfl)
  have hsync : ∀ c : CachefileStore, Good N.toNames (Consistent N) c →
      HostsInRange N p c.wb.direct → SessionInv N { p with store := sync c } := by
    intro c hg hr
    obtain ⟨hg', hd⟩ := hg.sync
    refine { h.toRanged with good := hg', inRange := ?_, covers := h.covers }
    rw [hd]
    exact hr
  have hcycle : Good N.toNames (Consistent N)
        (if p.cycle then putByHost (putByHost p.store offsetKey p.offset) cycleKey
          p.offset else putByHost p.store offsetKey p.offset) ∧
      HostsInRange N p
        (if p.cycle then putByHost (putByHost p.store offsetKey p.offset) cycleKey
          p.offset else putByHost p.store offsetKey p.offset).wb.direct := by
    split
    · exact h.putState hg₁ hr₁ N.cycleKey_mem (.inr rfl)
    · exact ⟨hg₁, hr₁⟩
  exact hsync _ hcycle.1 hcycle.2

/-- The cursor of a kept bucket. -/
theorem of_restored (hr : p.Ranged) (hcovers : Covers N p)
    (hgood : Good N.toNames (Consistent N) p.store)
    (hrange : HostsInRange N p p.store.wb.direct) {offset : Addr}
    (hoff : getByHost p.store.wb.direct offsetKey = some offset)
    (hle : p.first.val ≤ offset.val + 1) (hin : p.ipnet.contains offset) :
    SessionInv N { p with offset := offset } := by
  simp only [Prefix.contains, decide_eq_true_eq] at hin
  have hcons : Consistent N p.store.wb.direct := Quiet.direct hgood
  exact {
    hr.toRange with
    offsetLen := hin.2.2.1.trans hr.bitLen.symm
    offsetZone := hin.2.1
    le_offset := hle
    offset_lt := hcons.offset offset hoff
    good := hgood
    inRange := hrange
    covers := hcovers }

/-- `restoreState` takes over a store that the pool can take over, or flushes it. -/
theorem restoreState (hr : p.Ranged) (hcovers : Covers N p)
    (hgood : Good N.toNames (Consistent N) p.store)
    (hrest : Restorable N p p.store.wb.direct) : SessionInv N p.restoreState := by
  obtain ⟨hg₁, hd₁, -⟩ := hgood.getByHost N.cycleKey_mem
  unfold Pool.restoreState
  rw [if_pos (show isCachefile CachefileStore = true from rfl)]
  have hcycle : getByHost p.store cycleKey = p.store.getByHost cycleKey := rfl
  rw [hcycle]
  revert hg₁ hd₁
  rcases p.store.getByHost cycleKey with ⟨c, s₁⟩
  intro hg₁ hd₁
  obtain ⟨hg₂, hd₂, hoff⟩ := hg₁.getByHost N.offsetKey_mem
  have hoffset : getByHost s₁ offsetKey = s₁.getByHost offsetKey := rfl
  simp only [hoffset]
  revert hg₂ hd₂ hoff
  rcases s₁.getByHost offsetKey with ⟨_ | off, s₂⟩
  · intro hg₂ hd₂ hoff
    have hdirect : s₂.wb.direct = p.store.wb.direct := hd₂.trans hd₁
    rw [hd₁] at hoff
    -- no stored cursor: the bucket is kept if the first address is free
    have hfirst : p.first ∈ N.addrs := hcovers _ ⟨rfl, hr.zone, le_refl _, hr.lt⟩
    obtain ⟨hg₃, hd₃, hres⟩ := hg₂.getByIP p.first
    dsimp only
    have hexist : exist s₂ p.first = ((s₂.getByIP p.first).1.isSome, (s₂.getByIP p.first).2) :=
      rfl
    rw [hexist]
    split
    · exact of_flush { hr.toRange with } hg₃ hcovers
    · rename_i hnone
      have hkeeps : Keeps p p.store.wb.direct := by
        rw [Keeps, ← hoff, ← hdirect, ← hres hfirst]
        simpa using hnone
      refine { hr with good := hg₃, inRange := ?_, covers := hcovers }
      change HostsInRange N _ (s₂.getByIP p.first).2.wb.direct
      rw [hd₃, hdirect]
      exact (hrest hkeeps).1
  · intro hg₂ hd₂ hoff
    have hdirect : s₂.wb.direct = p.store.wb.direct := hd₂.trans hd₁
    rw [hd₁] at hoff
    dsimp only
    split
    · rename_i hin
      have hkeeps : Keeps p p.store.wb.direct := by
        rw [Keeps, ← hoff]
        exact hin
      obtain ⟨hrange, hle⟩ := hrest hkeeps
      have hr' : Ranged { p with store := s₂, cycle := p.cycle || c.isSome } := { hr with }
      refine of_restored hr' hcovers hg₂ ?_ ?_ (hle off hoff.symm) hin
      · change HostsInRange N _ s₂.wb.direct
        rw [hdirect]
        exact hrange
      · change getByHost s₂.wb.direct offsetKey = some off
        rw [hdirect]
        exact hoff.symm
    · exact of_flush { hr.toRange with } hg₂ hcovers

/-- `New` on a store. -/
theorem new {ipnet : Prefix} {q : Pool CachefileStore} (hgood : Good N.toNames (Consistent N) c)
    (hok : ∀ q, init ipnet c = .ok q → Covers N q ∧ Restorable N q c.wb.direct)
    (hnew : new ipnet c = .ok q) : SessionInv N q := by
  unfold Pool.new at hnew
  cases hinit : init ipnet c with
  | error e => rw [hinit] at hnew; cases hnew
  | ok q₀ =>
    rw [hinit] at hnew
    cases hnew
    obtain ⟨hr, -, hstore, -⟩ := init_ranged hinit
    obtain ⟨hcovers, hrest⟩ := hok q₀ hinit
    exact restoreState hr hcovers (hstore ▸ hgood) (hstore ▸ hrest)

/-- Every allowed step keeps the invariant. -/
theorem apply (h : SessionInv N p) {op : SessionOp} (hop : Allowed N p op) :
    SessionInv N (op.apply p) := by
  match op with
  | .call (.lookup host) => exact (h.lookup hop).1
  | .call (.lookBack ip) | .call (.exist ip) => exact (h.lookBack ip).1
  | .call .flushFakeIP => exact of_flush h.toRange h.good h.covers
  | .storeState => exact h.storeState
  | .new ipnet restart =>
    have hgood : Good N.toNames (Consistent N) (p.store.reopen restart) := by
      unfold CachefileStore.reopen
      split
      · exact (h.good.restart Consistent.storedIn).1
      · exact h.good
    simp only [SessionOp.apply]
    split
    · exact new hgood hop.2 ‹_›
    · exact h

end SessionInv

/-- Sequences of allowed sessions keep the invariant. -/
theorem Sessions.inv {N : SessionNames} {p : Pool CachefileStore} (h : Sessions N p) :
    SessionInv N p := by
  induction h with
  | start hcovers hnew =>
    have hgood : ∀ ticks, Good N.toNames (Consistent N) ⟨init .empty, ticks⟩ := fun _ =>
      Quiet.init Consistent.empty.storedIn Consistent.empty
    refine SessionInv.new (hgood _) (fun q hq => ⟨hcovers q hq, fun _ => ?_⟩) hnew
    exact ⟨HostsInRange.empty, nofun⟩
  | step _ hop ih => exact ih.apply hop

/-- In every sequence of allowed sessions, `Lookup` answers with an address of the range, not
with one of the reserved addresses, and `LookBack` maps it to the lower-cased host; and no two
hosts have one address. -/
theorem persistentPool_ranged {N : SessionNames} {p : Pool CachefileStore} (hrun : Sessions N p) :
    (∀ host, UserHost N (toLower host) →
      (¬ (p.lookup host).1.less p.first ∧ (p.lookup host).1.less p.last) ∧
      (p.lookup host).1 ≠ p.ipnet.maskedAddr ∧ (p.lookup host).1 ≠ p.gateway ∧
      (p.lookup host).1 ≠ p.last ∧
      ((p.lookup host).2.lookBack (p.lookup host).1).1 = some (toLower host)) ∧
    ∀ host host' ip, UserHost N host → UserHost N host' → (getByHost p.store host).1 = some ip →
      (getByHost p.store host').1 = some ip → host = host' := by
  have h := hrun.inv
  refine ⟨fun host hhost => ?_, fun host host' ip hhost hhost' hip hip' => ?_⟩
  · obtain ⟨hl, hin, hback⟩ := h.lookup hhost
    obtain ⟨hfirst, hlast, -⟩ := p.sameRange_lookup host
    have hr : p.InRange (p.lookup host).1 := by
      rw [InRange, hfirst, hlast] at hin
      exact hin
    have hval := hr.2.2
    have hbase := h.first
    refine ⟨h.toRange.between hr, fun heq => ?_, fun heq => ?_, fun heq => ?_, ?_⟩
    · rw [heq, Prefix.maskedAddr, if_pos h.valid] at hval
      simp only [Addr.withVal] at hval
      omega
    · rw [heq, h.gateway] at hval
      omega
    · rw [heq] at hval
      omega
    · rw [(hl.lookBack _).2 (hl.covers _ hin)]
      exact hback
  · have hget := (h.good.getByHost hhost.1).2.2.symm.trans hip
    have hget' := (h.good.getByHost hhost'.1).2.2.symm.trans hip'
    have hback := (h.consistent.getByIP_of_getByHost hhost hget).2.2
    have hback' := (h.consistent.getByIP_of_getByHost hhost' hget').2.2
    exact some.inj (hback.symm.trans hback')

/-- The state keys, one host, and the three addresses of a small pool. -/
def smallNames : SessionNames where
  hosts := {offsetKey, cycleKey, lit "a"}
  addrs := {.v4 198 18 0 4, .v4 198 18 0 5, .v4 198 18 0 6}
  zone := by
    rintro a (rfl | rfl | rfl) <;> rfl
  ne_asSlice := by
    rintro h (rfl | rfl | rfl) a (rfl | rfl | rfl) <;> decide
  offsetKey_mem := .inl rfl
  cycleKey_mem := .inr (.inl rfl)

def smallNet : Prefix := ⟨.v4 198 18 0 0, 29⟩

/-- A host is looked up, the state is stored, and a new process looks it up again. -/
theorem persistentPool_ranged_example :
    ∃ p₀ : Pool CachefileStore, new smallNet ⟨init .empty, [2, 1]⟩ = .ok p₀ ∧
      let p := SessionOp.apply (p₀.lookup (lit "A")).2.storeState (.new smallNet true)
      ((p.lookup (lit "A")).2.lookBack (p.lookup (lit "A")).1).1 = some (toLower (lit "A")) := by
  have hnew : new smallNet (⟨init .empty, [2, 1]⟩ : CachefileStore) = .ok _ := rfl
  have hcovers : ∀ store q, init smallNet store = .ok q → Covers smallNames q := by
    rintro store q ⟨⟩ ip ⟨hlen, hzone, hle, hlt⟩
    have hle' : 3323068420 ≤ ip.val := hle
    have hlt' : ip.val < 3323068423 := hlt
    obtain hv | hv | hv :
        ip.val = 3323068420 ∨ ip.val = 3323068421 ∨ ip.val = 3323068422 := by omega
    · exact .inl (Addr.ext hlen hv hzone)
    · exact .inr (.inl (Addr.ext hlen hv hzone))
    · exact .inr (.inr (Addr.ext hlen hv hzone))
  have hhost : UserHost smallNames (toLower (lit "A")) := by
    have heq : toLower (lit "A") = lit "a" := by decide +kernel
    rw [heq]
    exact ⟨.inr (.inr rfl), by decide, by decide⟩
  have hlooked := (Sessions.start (hcovers _) hnew).step
    (show Allowed smallNames _ (.call (.lookup (lit "A"))) from hhost)
  have hstored := hlooked.step (show Allowed smallNames _ .storeState from trivial)
  refine ⟨_, hnew, ((persistentPool_ranged (hstored.step (show Allowed smallNames _
    (.new smallNet true) from ⟨rfl, fun q hq => ⟨hcovers _ q hq, fun _ =>
      ⟨fun host ip huser hip => ?_, fun offset ho => ?_⟩⟩⟩))).1 (lit "A") hhost).2.2.2.2⟩
  · obtain ⟨rfl | rfl | rfl, hoffset, hcycle⟩ := huser
    · exact absurd rfl hoffset
    · exact absurd rfl hcycle
    · cases hq
      cases hip
      exact ⟨rfl, rfl, by decide +kernel, by decide +kernel⟩
  · cases hq
    cases ho
    decide

/-- A host named like the key of the stored cursor gets the address of another host. And a
new pool whose prefix contains the stored cursor keeps mappings outside its range, and hands
out its own gateway. -/
theorem reserved_key_shares_address :
    (∃ p₀ : Pool CachefileStore,
      Pool.new ⟨.v4 198 18 0 0, 29⟩ ⟨init .empty, []⟩ = .ok p₀ ∧
      let p := (p₀.lookup (lit "a")).2.storeState
      (p.lookup (lit "a")).1 = .v4 198 18 0 4 ∧ (p.lookup offsetKey).1 = .v4 198 18 0 4 ∧
      ((p.lookup offsetKey).2.lookBack (p.lookup offsetKey).1).1 ≠ some (toLower offsetKey)) ∧
    ∃ p₀ : Pool CachefileStore,
      Pool.new ⟨.v4 198 18 0 0, 28⟩ ⟨init .empty, []⟩ = .ok p₀ ∧
      let hosts := ["a", "b", "c", "d", "e"].map fun host => PoolOp.lookup (lit host)
      let p := SessionOp.apply (p₀.runOps hosts).storeState (.new ⟨.v4 198 18 0 8, 29⟩ true)
      p.first = .v4 198 18 0 12 ∧ (p.lookup (lit "a")).1 = .v4 198 18 0 4 ∧
      p.gateway = .v4 198 18 0 9 ∧ (p.lookup (lit "f")).1 = .v4 198 18 0 9 := by
  refine ⟨⟨_, rfl, ?_, ?_, ?_⟩, _, rfl, ?_, ?_, ?_, ?_⟩
  all_goals decide +kernel

end Hako.FakeIP
