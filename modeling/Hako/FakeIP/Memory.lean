import Hako.Common.Lru
import Hako.FakeIP.Pool

/-!
# The memory-backed fake-IP pool

The memory store keeps the two directions of the mapping in two LRU caches that evict on
their own. They hold the same pairs in the same order of use, so that each eviction removes
both halves of one mapping.
-/

namespace Hako.FakeIP

open GoLib Common List

/-- `memoryStore`. -/
structure MemoryStore where
  cacheIP : LruCache GoString Addr
  cacheHost : LruCache Addr GoString

/-- `newMemoryStore`: two caches of one size, without a maximum age. -/
def newMemoryStore (size : Int) : MemoryStore :=
  ⟨LruCache.new 0 size false false, LruCache.new 0 size false false⟩

namespace MemoryStore

/-- `GetByHost`; a hit moves the address to the end of the other cache too. -/
def getByHost (m : MemoryStore) (host : GoString) : Option Addr × MemoryStore :=
  match m.cacheIP.get 0 host with
  | (some ip, cacheIP) => (some ip, ⟨cacheIP, (m.cacheHost.get 0 ip).2⟩)
  | (none, cacheIP) => (none, { m with cacheIP })

def putByHost (m : MemoryStore) (host : GoString) (ip : Addr) : MemoryStore :=
  { m with cacheIP := m.cacheIP.set 0 host ip }

/-- `GetByIP`; a hit moves the host to the end of the other cache too. -/
def getByIP (m : MemoryStore) (ip : Addr) : Option GoString × MemoryStore :=
  match m.cacheHost.get 0 ip with
  | (some host, cacheHost) => (some host, ⟨(m.cacheIP.get 0 host).2, cacheHost⟩)
  | (none, cacheHost) => (none, { m with cacheHost })

def putByIP (m : MemoryStore) (ip : Addr) (host : GoString) : MemoryStore :=
  { m with cacheHost := m.cacheHost.set 0 ip host }

def delByIP (m : MemoryStore) (ip : Addr) : MemoryStore :=
  match m.cacheHost.get 0 ip with
  | (some host, cacheHost) => ⟨m.cacheIP.delete host, cacheHost.delete ip⟩
  | (none, cacheHost) => { m with cacheHost := cacheHost.delete ip }

def flushFakeIP (m : MemoryStore) : MemoryStore := ⟨m.cacheIP.clear, m.cacheHost.clear⟩

end MemoryStore

instance : Store MemoryStore where
  getByHost := MemoryStore.getByHost
  putByHost := MemoryStore.putByHost
  getByIP := MemoryStore.getByIP
  putByIP := MemoryStore.putByIP
  delByIP := MemoryStore.delByIP
  exist m ip := (m.cacheHost.exist ip, m)
  flushFakeIP m := (true, m.flushFakeIP)
  isCachefile := false
  sync := id

/-! ### The two caches in lock-step -/

open LruCache (without without_swap without_touch without_of_not_mem)

/-- Both caches hold the same mappings in the same order of use. -/
structure LockStep (size : Int) (m : MemoryStore) : Prop where
  ip : m.cacheIP.Sized size
  host : m.cacheHost.Sized size
  swap : m.cacheHost.pairs = m.cacheIP.pairs.map Prod.swap

theorem LockStep.new (size : Int) : LockStep size (newMemoryStore size) :=
  ⟨LruCache.Sized.new size false false, LruCache.Sized.new size false false, rfl⟩

theorem LockStep.flush {size : Int} {m : MemoryStore} (h : LockStep size m) :
    LockStep size m.flushFakeIP :=
  ⟨h.ip.clear, h.host.clear, rfl⟩

namespace LockStep

variable {size : Int} {m : MemoryStore} {host : GoString} {ip : Addr} (h : LockStep size m)
include h

theorem nodup_hosts : (m.cacheIP.pairs.map Prod.fst).Nodup := h.ip.toWF.nodup_pairs

theorem nodup_addrs : (m.cacheIP.pairs.map Prod.snd).Nodup := by
  have := h.host.toWF.nodup_pairs
  rwa [h.swap, map_map, show Prod.fst ∘ Prod.swap = (Prod.snd : GoString × Addr → Addr)
    from rfl] at this

theorem mem_host_iff :
    (ip, host) ∈ m.cacheHost.pairs ↔ (host, ip) ∈ m.cacheIP.pairs := by
  rw [h.swap, mem_map]
  constructor
  · rintro ⟨⟨h', i'⟩, hmem, heq⟩
    cases heq
    exact hmem
  · exact fun hmem => ⟨_, hmem, rfl⟩

/-- An address without host in the store. -/
theorem not_mem_addr :
    ip ∉ m.cacheHost.pairs.map Prod.fst ↔ ∀ p ∈ m.cacheIP.pairs, p.2 ≠ ip := by
  rw [h.swap, map_map, mem_map]
  exact ⟨fun hn p hp hpi => hn ⟨p, hp, hpi⟩, fun hall ⟨p, hp, hpi⟩ => hall p hp hpi⟩

section

variable (hmem : (host, ip) ∈ m.cacheIP.pairs)
include hmem

/-- Both caches after a mapping has been used: it is the most recent one in each. -/
theorem touch :
    let m' : MemoryStore := ⟨(m.cacheIP.get 0 host).2, (m.cacheHost.get 0 ip).2⟩
    LockStep size m' ∧ ∀ p, p ∈ m'.cacheIP.pairs ↔ p ∈ m.cacheIP.pairs := by
  obtain ⟨-, hip, hp⟩ := h.ip.get_of_mem 0 hmem
  obtain ⟨-, hhost, hp'⟩ := h.host.get_of_mem 0 (h.mem_host_iff.mpr hmem)
  refine ⟨⟨hip, hhost, ?_⟩, fun p => ?_⟩
  · simp only [hp, hp', h.swap, map_append]
    rw [without_swap h.nodup_hosts h.nodup_addrs hmem]
    rfl
  · simp only [hp, without, mem_append, mem_filter, mem_singleton, ne_eq, decide_eq_true_eq]
    constructor
    · rintro (⟨hpm, -⟩ | rfl)
      · exact hpm
      · exact hmem
    · intro hpm
      by_cases hk : p.1 = host
      · exact .inr (inj_on_of_nodup_map h.nodup_hosts hpm hmem hk)
      · exact .inl ⟨hpm, hk⟩

theorem getByHost_of_mem :
    m.getByHost host = (some ip, ⟨(m.cacheIP.get 0 host).2, (m.cacheHost.get 0 ip).2⟩) := by
  have hget := (h.ip.get_of_mem 0 hmem).1
  rw [MemoryStore.getByHost]
  split <;> simp_all

omit hmem in
theorem getByHost_of_not_mem
    (hmem : host ∉ m.cacheIP.pairs.map Prod.fst) : m.getByHost host = (none, m) := by
  rw [MemoryStore.getByHost, LruCache.get_of_not_mem h.ip.toWF 0 hmem]

theorem getByIP_of_mem :
    m.getByIP ip = (some host, ⟨(m.cacheIP.get 0 host).2, (m.cacheHost.get 0 ip).2⟩) := by
  have hget := (h.host.get_of_mem 0 (h.mem_host_iff.mpr hmem)).1
  rw [MemoryStore.getByIP]
  split <;> simp_all

end

theorem getByIP_of_not_mem
    (hmem : ip ∉ m.cacheHost.pairs.map Prod.fst) : m.getByIP ip = (none, m) := by
  rw [MemoryStore.getByIP, LruCache.get_of_not_mem h.host.toWF 0 hmem]

/-- `GetByHost` keeps the mappings and answers from them. -/
theorem getByHost (host : GoString) :
    LockStep size (m.getByHost host).2 ∧
      (∀ p, p ∈ (m.getByHost host).2.cacheIP.pairs ↔ p ∈ m.cacheIP.pairs) ∧
      ∀ ip, (m.getByHost host).1 = some ip ↔ (host, ip) ∈ m.cacheIP.pairs := by
  by_cases hmem : host ∈ m.cacheIP.pairs.map Prod.fst
  · obtain ⟨⟨host, ip⟩, hkv, rfl⟩ := mem_map.mp hmem
    rw [h.getByHost_of_mem hkv]
    refine ⟨(h.touch hkv).1, (h.touch hkv).2, fun ip' => ⟨?_, fun hmem' => ?_⟩⟩
    · rintro ⟨⟩
      exact hkv
    · exact congrArg (some ∘ Prod.snd) (inj_on_of_nodup_map h.nodup_hosts hkv hmem' rfl)
  · rw [h.getByHost_of_not_mem hmem]
    refine ⟨h, fun _ => Iff.rfl, fun ip => ⟨nofun, fun hmem' => ?_⟩⟩
    exact absurd (mem_map.mpr ⟨_, hmem', rfl⟩) hmem

/-- `GetByIP` keeps the mappings and answers from them. -/
theorem getByIP (ip : Addr) :
    LockStep size (m.getByIP ip).2 ∧
      (∀ p, p ∈ (m.getByIP ip).2.cacheIP.pairs ↔ p ∈ m.cacheIP.pairs) ∧
      ∀ host, (m.getByIP ip).1 = some host ↔ (host, ip) ∈ m.cacheIP.pairs := by
  by_cases hmem : ip ∈ m.cacheHost.pairs.map Prod.fst
  · obtain ⟨⟨ip, host⟩, hkv, rfl⟩ := mem_map.mp hmem
    replace hkv := h.mem_host_iff.mp hkv
    rw [h.getByIP_of_mem hkv]
    refine ⟨(h.touch hkv).1, (h.touch hkv).2, fun host' => ⟨?_, fun hmem' => ?_⟩⟩
    · rintro ⟨⟩
      exact hkv
    · exact congrArg (some ∘ Prod.fst) (inj_on_of_nodup_map h.nodup_addrs hkv hmem' rfl)
  · rw [h.getByIP_of_not_mem hmem]
    refine ⟨h, fun _ => Iff.rfl, fun host => ⟨nofun, fun hmem' => ?_⟩⟩
    exact absurd (mem_map.mpr ⟨_, h.mem_host_iff.mpr hmem', rfl⟩) hmem

theorem exist_iff :
    m.cacheHost.exist ip = true ↔ ip ∈ m.cacheHost.pairs.map Prod.fst :=
  h.host.toWF.exist_iff

/-- `DelByIP` removes the mapping of an address from both caches. -/
theorem delByIP (ip : Addr) :
    LockStep size (m.delByIP ip) ∧
      ∀ p, p ∈ (m.delByIP ip).cacheIP.pairs ↔ p ∈ m.cacheIP.pairs ∧ p.2 ≠ ip := by
  by_cases hmem : ip ∈ m.cacheHost.pairs.map Prod.fst
  · obtain ⟨⟨ip, host⟩, hkv, rfl⟩ := mem_map.mp hmem
    obtain ⟨hget, hsized, hpairs⟩ := h.host.get_of_mem 0 hkv
    replace hkv := h.mem_host_iff.mp hkv
    have hdel : m.delByIP ip = ⟨m.cacheIP.delete host, (m.cacheHost.get 0 ip).2.delete ip⟩ := by
      rw [MemoryStore.delByIP]
      split <;> simp_all
    obtain ⟨hip, hp⟩ := h.ip.delete host
    obtain ⟨hhost, hp'⟩ := hsized.delete ip
    rw [hdel]
    refine ⟨⟨hip, hhost, ?_⟩, fun p => ?_⟩
    · rw [hp, hp', hpairs, without_touch, h.swap, without_swap h.nodup_hosts h.nodup_addrs hkv]
    · rw [hp, without, mem_filter]
      refine and_congr_right fun hpm => ?_
      have hiff : p.1 = host ↔ p.2 = ip :=
        ⟨fun h1 => congrArg Prod.snd (inj_on_of_nodup_map h.nodup_hosts hpm hkv h1),
          fun h2 => congrArg Prod.fst (inj_on_of_nodup_map h.nodup_addrs hpm hkv h2)⟩
      simp [hiff]
  · have hdel : m.delByIP ip = { m with cacheHost := m.cacheHost.delete ip } := by
      rw [MemoryStore.delByIP, LruCache.get_of_not_mem h.host.toWF 0 hmem]
    obtain ⟨hhost, hp'⟩ := h.host.delete ip
    rw [without_of_not_mem hmem] at hp'
    rw [hdel]
    refine ⟨⟨h.ip, hhost, hp'.trans h.swap⟩, fun p => ?_⟩
    exact ⟨fun hpm => ⟨hpm, h.not_mem_addr.mp hmem p hpm⟩, fun hpm => hpm.1⟩

/-- Storing a new mapping in both directions appends it to both caches; if the size is
exceeded, both drop the same oldest mapping. -/
theorem put (hip : ∀ p ∈ m.cacheIP.pairs, p.2 ≠ ip) (hhost : ∀ p ∈ m.cacheIP.pairs, p.1 ≠ host) :
    LockStep size ((m.putByIP ip host).putByHost host ip) ∧
      ((m.putByIP ip host).putByHost host ip).cacheIP.pairs =
        LruCache.trim size (m.cacheIP.pairs ++ [(host, ip)]) := by
  have hnot : host ∉ m.cacheIP.pairs.map Prod.fst := by
    rintro hmem
    obtain ⟨p, hp, hpk⟩ := mem_map.mp hmem
    exact hhost p hp hpk
  obtain ⟨hsip, hp⟩ := h.ip.set_of_not_mem 0 hnot ip
  obtain ⟨hshost, hp'⟩ := h.host.set_of_not_mem 0 (h.not_mem_addr.mpr hip) host
  refine ⟨⟨hsip, hshost, ?_⟩, hp⟩
  refine hp'.trans ?_
  rw [h.swap]
  refine Eq.trans ?_ (congrArg (List.map Prod.swap) hp).symm
  rw [← LruCache.trim_swap, map_append]
  rfl

end LockStep

/-! ### Runs of the pool -/

/-- What holds of a memory-backed pool between calls. -/
structure MemoryPool (size : Int) (p : Pool MemoryStore) : Prop extends p.Ranged where
  lock : LockStep size p.store
  inRange : ∀ q ∈ p.store.cacheIP.pairs, p.InRange q.2

theorem MemoryPool.new {ipnet : Prefix} {size : Int} {p : Pool MemoryStore}
    (h : Pool.new ipnet (newMemoryStore size) = .ok p) : MemoryPool size p := by
  have hinit : Pool.init ipnet (newMemoryStore size) = .ok p := by
    unfold Pool.new at h
    cases hi : Pool.init ipnet (newMemoryStore size) with
    | error e => rw [hi] at h; cases h
    | ok q => rw [hi] at h; exact h
  obtain ⟨hr, -, hs, -⟩ := Pool.init_ranged hinit
  refine { hr with lock := hs ▸ LockStep.new size, inRange := ?_ }
  rw [hs]
  exact fun q hq => absurd hq not_mem_nil

namespace MemoryPool

variable {size : Int} {p : Pool MemoryStore} (h : MemoryPool size p)
include h

/-- Replacing the store by one with the same mappings. -/
theorem withStore {m : MemoryStore} (hm : LockStep size m)
    (hsub : ∀ q ∈ m.cacheIP.pairs, q ∈ p.store.cacheIP.pairs) :
    MemoryPool size { p with store := m } :=
  { h.toRanged with
    lock := hm
    inRange := fun q hq => h.inRange q (hsub q hq) }

/-- Before `get` writes the new mapping, the cursor's address is free. -/
theorem freed :
    LockStep size p.freed ∧
      ∀ q, q ∈ p.freed.cacheIP.pairs ↔ q ∈ p.store.cacheIP.pairs ∧ q.2 ≠ p.offset := by
  unfold Pool.freed
  split
  · exact h.lock.delByIP p.offset
  · split <;> rename_i s hs <;> obtain ⟨he, rfl⟩ := Prod.mk.inj hs
    · exact h.lock.delByIP p.offset
    · have hne : p.offset ∉ p.store.cacheHost.pairs.map Prod.fst := by
        rw [← h.lock.exist_iff, he]
        exact Bool.false_ne_true
      exact ⟨h.lock, fun q => ⟨fun hq => ⟨hq, h.lock.not_mem_addr.mp hne q hq⟩, And.left⟩⟩

/-- A new mapping from `host`, which has none, to the next address. -/
theorem get_put {host : GoString} (hhost : ∀ q ∈ p.store.cacheIP.pairs, q.1 ≠ host) :
    MemoryPool size
        { (p.get host).2 with store := (p.get host).2.store.putByHost host (p.get host).1 } ∧
      (host, (p.get host).1) ∈
        ((p.get host).2.store.putByHost host (p.get host).1).cacheIP.pairs := by
  obtain ⟨hr, hin, hfirst, hlast, -, hstore⟩ := h.toRanged.advance
  have hadv : MemoryPool size p.advance := by
    refine { hr with lock := hstore ▸ h.lock, inRange := fun q hq => ?_ }
    rw [hstore] at hq
    rw [Pool.InRange, hfirst, hlast]
    exact h.inRange q hq
  obtain ⟨hfree, hmem⟩ := hadv.freed
  obtain ⟨hlock, hpairs⟩ := hfree.put (fun q hq => ((hmem q).mp hq).2)
    (fun q hq => hhost q (hstore ▸ ((hmem q).mp hq).1))
  refine ⟨{ hr with lock := hlock, inRange := fun q hq => ?_ }, ?_⟩
  · have hq := LruCache.trim_subset _ _ (hpairs ▸ hq)
    rcases mem_append.mp hq with hq | hq
    · exact hadv.inRange q ((hmem q).mp hq).1
    · rw [mem_singleton.mp hq]
      exact hin
  · exact hpairs ▸ LruCache.mem_trim_append _ _ _

/-- `Lookup` answers with an address that the store then maps the host to. -/
theorem lookup (host : GoString) :
    MemoryPool size (p.lookup host).2 ∧
      (toLower host, (p.lookup host).1) ∈ (p.lookup host).2.store.cacheIP.pairs := by
  obtain ⟨hl, hsame, hans⟩ := h.lock.getByHost (toLower host)
  have hstore := h.withStore hl fun q => (hsame q).mp
  have hget : Store.getByHost p.store (toLower host) = p.store.getByHost (toLower host) := rfl
  rw [Pool.lookup, hget]
  revert hl hsame hans hstore
  rcases p.store.getByHost (toLower host) with ⟨_ | ip, m⟩
  · intro hl hsame hans hstore
    refine hstore.get_put fun q hq hk => ?_
    cases (hans q.2).mpr (hk ▸ (hsame q).mp hq)
  · intro hl hsame hans hstore
    exact ⟨hstore, (hsame _).mpr ((hans ip).mp rfl)⟩

/-- Every call keeps the invariant. -/
theorem apply (op : PoolOp) : MemoryPool size (op.apply p) := by
  cases op with
  | lookup host => exact (h.lookup host).1
  | lookBack ip =>
    obtain ⟨hl, hsame, -⟩ := h.lock.getByIP ip
    exact h.withStore hl fun q => (hsame q).mp
  | exist ip => exact h
  | flushFakeIP =>
    exact {
      h.toRange.reset _ with
      lock := h.lock.flush
      inRange := fun q hq => absurd hq not_mem_nil }

theorem runOps (ops : List PoolOp) : MemoryPool size (p.runOps ops) := by
  induction ops generalizing p with
  | nil => exact h
  | cons op ops ih => exact ih (h.apply op)

end MemoryPool

/-- What a cache holds under a key, without marking it as used. -/
def peek {K V : Type*} (c : LruCache K V) (key : K) : Option V := (c.lookup? key).map (·.value)

theorem peek_eq_some {K V : Type*} {c : LruCache K V} (h : c.WF) {key : K} {value : V} :
    peek c key = some value ↔ (key, value) ∈ c.pairs := by
  constructor
  · intro hp
    obtain ⟨e, he, rfl⟩ := Option.map_eq_some_iff.mp hp
    obtain ⟨hmem, rfl⟩ := h.lookup?_eq_some.mp he
    exact mem_map.mpr ⟨e, hmem, rfl⟩
  · intro hp
    obtain ⟨e, -, he, -, rfl⟩ := h.lookup?_of_mem_pairs hp
    exact Option.map_eq_some_iff.mpr ⟨e, he, rfl⟩

/-- After any sequence of calls on a memory-backed pool the two stores are inverse to each
other, and the next `Lookup` answers with an address of the range which `LookBack` maps to
the lower-cased host. -/
theorem memoryPool_bijective {ipnet : Prefix} {size : Int} {p₀ : Pool MemoryStore}
    (hnew : Pool.new ipnet (newMemoryStore size) = .ok p₀) (ops : List PoolOp) :
    let p := p₀.runOps ops
    (∀ host ip, peek p.store.cacheIP host = some ip ↔ peek p.store.cacheHost ip = some host) ∧
      (∀ host host' ip, peek p.store.cacheIP host = some ip →
        peek p.store.cacheIP host' = some ip → host = host') ∧
      ∀ host, (¬ (p.lookup host).1.less p₀.first ∧ (p.lookup host).1.less p₀.last) ∧
        ((p.lookup host).2.lookBack (p.lookup host).1).1 = some (toLower host) := by
  intro p
  have hp : MemoryPool size p := (MemoryPool.new hnew).runOps ops
  refine ⟨fun host ip => ?_, fun host host' ip h h' => ?_, fun host => ⟨?_, ?_⟩⟩
  · rw [peek_eq_some hp.lock.ip.toWF, peek_eq_some hp.lock.host.toWF, hp.lock.mem_host_iff]
  · rw [peek_eq_some hp.lock.ip.toWF] at h h'
    exact congrArg Prod.fst (inj_on_of_nodup_map hp.lock.nodup_addrs h h' rfl)
  · obtain ⟨hfirst, hlast, -⟩ := (p₀.sameRange_runOps ops).trans (p.sameRange_lookup host)
    obtain ⟨hl, hmem⟩ := hp.lookup host
    rw [← hfirst, ← hlast]
    exact hl.toRange.between (hl.inRange _ hmem)
  · obtain ⟨hl, hmem⟩ := hp.lookup host
    exact ((hl.lock.getByIP _).2.2 _).mpr hmem

/-- A pool of three addresses over a store of one entry. -/
theorem memoryPool_bijective_example :
    let ipnet : Prefix := ⟨.v4 198 18 0 0, 29⟩
    ∃ p₀, Pool.new ipnet (newMemoryStore 1) = .ok p₀ ∧
      ∀ host, (((p₀.runOps [.lookup (lit "A"), .lookup (lit "b")]).lookup host).2.lookBack
        ((p₀.runOps [.lookup (lit "A"), .lookup (lit "b")]).lookup host).1).1 =
          some (toLower host) := by
  have hnew : Pool.new (⟨.v4 198 18 0 0, 29⟩ : Prefix) (newMemoryStore 1) = .ok _ := rfl
  exact ⟨_, hnew, fun host => ((memoryPool_bijective hnew _).2.2 host).2⟩

end Hako.FakeIP
