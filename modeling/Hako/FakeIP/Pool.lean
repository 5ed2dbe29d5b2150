import Hako.GoLib.Netip
import Hako.GoLib.Strings

/-!
# The fake-IP pool

`Pool` hands out the addresses of a prefix to hosts in turn, and remembers which host holds
which address in a store. The pool is the same for the memory store and for the store in the
cache file, so it is modelled over the source's `store` interface.
-/

namespace Hako.FakeIP

open GoLib Addr

/-- The `store` interface. Operations that only read may still reorder the store. -/
class Store (S : Type*) where
  getByHost : S → GoString → Option Addr × S
  putByHost : S → GoString → Addr → S
  getByIP : S → Addr → Option GoString × S
  putByIP : S → Addr → GoString → S
  delByIP : S → Addr → S
  exist : S → Addr → Bool × S
  /-- `FlushFakeIP`; the flag says that no error was returned. -/
  flushFakeIP : S → Bool × S
  /-- Whether the store is a `cachefileStore`; only its state is kept across runs. -/
  isCachefile : Bool
  /-- `Sync` of a `cachefileStore`. -/
  sync : S → S

/-- The key under which `StoreState` keeps the cursor. -/
def offsetKey : GoString := lit "key-offset-fake-ip"

/-- The key under which `StoreState` keeps the cycle flag. -/
def cycleKey : GoString := lit "key-cycle-fake-ip"

structure Pool (S : Type*) where
  gateway : Addr
  first : Addr
  last : Addr
  offset : Addr
  cycle : Bool
  ipnet : Prefix
  store : S

namespace Pool

variable {S : Type*}

/-- The cursor step of `get`: the next address, or the first one with the cycle flag set. -/
def advance (p : Pool S) : Pool S :=
  let p := { p with offset := p.offset.next }
  if p.offset.less p.last then p else { p with cycle := true, offset := p.first }

variable [Store S]

/-- The store after `get` has freed the cursor's address where needed. -/
def freed (p : Pool S) : S :=
  if p.cycle then Store.delByIP p.store p.offset
  else
    match Store.exist p.store p.offset with
    | (true, s) => Store.delByIP s p.offset
    | (false, s) => s

/-- `get`: take the next address, free it where needed, and give it to `host`. -/
def get (p : Pool S) (host : GoString) : Addr × Pool S :=
  let p := p.advance
  (p.offset, { p with store := Store.putByIP p.freed p.offset host })

/-- `Lookup`: the address of a host, a new one if it has none. -/
def lookup (p : Pool S) (host : GoString) : Addr × Pool S :=
  let host := toLower host
  match Store.getByHost p.store host with
  | (some ip, s) => (ip, { p with store := s })
  | (none, s) =>
    let (ip, p) := { p with store := s }.get host
    (ip, { p with store := Store.putByHost p.store host ip })

/-- `LookBack`: the host of an address. -/
def lookBack (p : Pool S) (ip : Addr) : Option GoString × Pool S :=
  let (host, s) := Store.getByIP p.store ip
  (host, { p with store := s })

def exist (p : Pool S) (ip : Addr) : Bool × Pool S :=
  let (e, s) := Store.exist p.store ip
  (e, { p with store := s })

def flushFakeIP (p : Pool S) : Bool × Pool S :=
  match Store.flushFakeIP p.store with
  | (true, s) => (true, { p with store := s, cycle := false, offset := p.first.prev })
  | (false, s) => (false, { p with store := s })

/-- `StoreState`: keep the cursor, and the cycle flag as the presence of its key. -/
def storeState (p : Pool S) : Pool S :=
  if Store.isCachefile S then
    let s := Store.putByHost p.store offsetKey p.offset
    let s := if p.cycle then Store.putByHost s cycleKey p.offset else s
    { p with store := Store.sync s }
  else p

/-- `restoreState`: take the cursor over from the store if it lies in the prefix. -/
def restoreState (p : Pool S) : Pool S :=
  if Store.isCachefile S then
    let (c, s) := Store.getByHost p.store cycleKey
    let p := { p with store := s, cycle := p.cycle || c.isSome }
    match Store.getByHost p.store offsetKey with
    | (some offset, s) =>
      if p.ipnet.contains offset then { p with store := s, offset := offset }
      else ({ p with store := s }.flushFakeIP).2
    | (none, s) =>
      let (e, s) := Store.exist s p.first
      if e then ({ p with store := s }.flushFakeIP).2 else { p with store := s }
  else p

omit [Store S] in
/-- The pool `New` builds over a store, before the state is restored. -/
def init (ipnet : Prefix) (store : S) : Except String (Pool S) :=
  let hostAddr := ipnet.maskedAddr
  let gateway := hostAddr.next
  let first := gateway.next.next.next
  let last := prefixLastIP ipnet
  if ¬ ipnet.isValid ∨ ¬ first.isValid ∨ ¬ first.less last then
    .error "ipnet don't have valid ip"
  else
    .ok { gateway, first, last, offset := first.prev, cycle := false, ipnet, store }

/-- `New`. -/
def new (ipnet : Prefix) (store : S) : Except String (Pool S) := (init ipnet store).map restoreState

/-! ### The range and the cursor -/

omit [Store S]

/-- The addresses of the pool's range: `[first, last)`, in the family and without zone. -/
def InRange (p : Pool S) (ip : Addr) : Prop :=
  ip.bitLen = p.first.bitLen ∧ ip.zone = [] ∧ p.first.val ≤ ip.val ∧ ip.val < p.last.val

/-- The shape of the range: the fourth address after the network address up to the last. -/
structure Range (p : Pool S) : Prop where
  valid : p.ipnet.isValid
  gateway : p.gateway.val = p.ipnet.base + 1
  bitLen : p.first.bitLen = p.ipnet.addr.bitLen
  lastLen : p.last.bitLen = p.ipnet.addr.bitLen
  zone : p.first.zone = []
  lastZone : p.last.zone = []
  first : p.first.val = p.ipnet.base + 4
  last : p.last.val = p.ipnet.base + (p.ipnet.card - 1)
  lt : p.first.val < p.last.val

/-- A range with the cursor at least on `first.Prev()`, and not on the last address there is. -/
structure Ranged (p : Pool S) : Prop extends p.Range where
  offsetLen : p.offset.bitLen = p.first.bitLen
  offsetZone : p.offset.zone = []
  le_offset : p.first.val ≤ p.offset.val + 1
  offset_lt : p.offset.val + 1 < 2 ^ p.offset.bitLen

variable {p : Pool S} {ip : Addr}

/-- `New` accepts a prefix only if it leaves an address to hand out. -/
theorem init_ranged {ipnet : Prefix} {store : S} (h : init ipnet store = .ok p) :
    p.Ranged ∧ p.ipnet = ipnet ∧ p.store = store ∧ p.cycle = false := by
  simp only [init] at h
  split at h
  · cases h
  · rename_i hok
    obtain ⟨hv, hfirst, hless⟩ : ipnet.isValid ∧ ipnet.maskedAddr.next.next.next.next.isValid ∧
        ipnet.maskedAddr.next.next.next.next.less (prefixLastIP ipnet) := by
      simpa using hok
    cases h
    have h3 := valid_of_next_valid hfirst
    have h2 := valid_of_next_valid h3
    have h1 := valid_of_next_valid h2
    obtain ⟨l4, v4, z4⟩ := next_valid hfirst
    obtain ⟨l3, v3, z3⟩ := next_valid h3
    obtain ⟨l2, v2, z2⟩ := next_valid h2
    obtain ⟨l1, v1, z1⟩ := next_valid h1
    have hmask : ipnet.maskedAddr.bitLen = ipnet.addr.bitLen ∧
        ipnet.maskedAddr.val = ipnet.base ∧ ipnet.maskedAddr.zone = ipnet.addr.zone := by
      rw [Prefix.maskedAddr, if_pos hv]
      exact ⟨rfl, rfl, rfl⟩
    have hlast : (prefixLastIP ipnet).bitLen = ipnet.addr.bitLen ∧
        (prefixLastIP ipnet).val = ipnet.base + (ipnet.card - 1) ∧
        (prefixLastIP ipnet).zone = ipnet.addr.zone := by
      rw [prefixLastIP, dif_pos hv]
      exact ⟨rfl, rfl, rfl⟩
    obtain ⟨lm, vm, zm⟩ := hmask
    obtain ⟨ll, vl, zl⟩ := hlast
    have hz : ipnet.addr.zone = [] := by
      simp only [Prefix.isValid, decide_eq_true_eq] at hv
      exact hv.2.1
    have hlt := (less_iff_val_lt (by omega) (zl.trans hz)).mp hless
    obtain ⟨lp, vp, zp⟩ := prev_of_pos (a := ipnet.maskedAddr.next.next.next.next) (by omega)
    have hz4 : ipnet.maskedAddr.next.next.next.next.zone = [] := by
      rw [z4, z3, z2, z1, zm, hz]
    have hmax : ipnet.maskedAddr.next.next.next.next.val < 2 ^ ipnet.addr.bitLen := by
      have := (prefixLastIP ipnet).val_lt
      rw [ll] at this
      omega
    have hlen : ipnet.maskedAddr.next.next.next.next.prev.bitLen = ipnet.addr.bitLen := by omega
    refine ⟨⟨⟨hv, ?_, ?_, ll, hz4, zl.trans hz, ?_, vl, hlt⟩, lp, zp.trans hz4, ?_, ?_⟩,
      rfl, rfl, rfl⟩
    all_goals simp only [hlen]
    all_goals omega

theorem Range.bitLen_ne_zero (h : p.Range) : p.first.bitLen ≠ 0 := by
  have hv := h.valid
  simp only [Prefix.isValid, decide_eq_true_eq] at hv
  rw [h.bitLen]
  exact isValid_iff.mp hv.1

/-- The addresses of the range are valid ones between `first` and `last` in Go's order. -/
theorem Range.inRange_iff (h : p.Range) (hz : ip.zone = []) (hlen : ip.bitLen = p.first.bitLen) :
    p.InRange ip ↔ ¬ ip.less p.first ∧ ip.less p.last := by
  rw [less_iff_val_lt hlen h.zone,
    less_iff_val_lt (hlen.trans (h.bitLen.trans h.lastLen.symm)) h.lastZone, InRange]
  simp [hz, hlen]

theorem Range.between (h : p.Range) (hr : p.InRange ip) : ¬ ip.less p.first ∧ ip.less p.last :=
  (h.inRange_iff hr.2.1 hr.1).mp hr

/-- The cursor moves to an address of the range. -/
theorem Ranged.advance (h : p.Ranged) :
    p.advance.Ranged ∧ p.advance.InRange p.advance.offset ∧ p.advance.first = p.first ∧
      p.advance.last = p.last ∧ p.advance.ipnet = p.ipnet ∧ p.advance.store = p.store := by
  have hlast : ∀ ip : Addr, ip.bitLen = p.first.bitLen → ip.val < p.last.val →
      ip.val + 1 < 2 ^ ip.bitLen := by
    intro ip hlen hlt
    have := p.last.val_lt
    rw [hlen, h.bitLen, ← h.lastLen]
    omega
  have hnext := next_of_lt h.offset_lt
  have hle := h.le_offset
  have hoff := h.lt
  simp only [Pool.advance]
  split
  · rename_i hless
    have hval : p.offset.next.val < p.last.val := by
      refine (less_iff_val_lt ?_ h.lastZone).mp hless
      rw [hnext]
      exact h.offsetLen.trans (h.bitLen.trans h.lastLen.symm)
    rw [hnext] at hval ⊢
    refine ⟨{ h.toRange with
        offsetLen := h.offsetLen
        offsetZone := h.offsetZone
        le_offset := ?_
        offset_lt := hlast _ h.offsetLen hval }, ⟨h.offsetLen, h.offsetZone, ?_, hval⟩,
      rfl, rfl, rfl, rfl⟩
    · change p.first.val ≤ p.offset.val + 1 + 1
      omega
    · exact hle
  · exact ⟨{ h.toRange with
        offsetLen := rfl
        offsetZone := h.zone
        le_offset := Nat.le_succ _
        offset_lt := hlast _ rfl h.lt }, ⟨rfl, h.zone, Nat.le_refl _, h.lt⟩, rfl, rfl, rfl, rfl⟩

/-- The cursor of a pool that has just been flushed. -/
theorem Range.reset (h : p.Range) (store : S) :
    Ranged { p with store, cycle := false, offset := p.first.prev } := by
  have hlt := h.lt
  have hfirst := h.first
  obtain ⟨lp, vp, zp⟩ := prev_of_pos (a := p.first) (by omega)
  have := p.first.val_lt
  refine { h with
    offsetLen := lp
    offsetZone := zp.trans h.zone
    le_offset := ?_
    offset_lt := ?_ }
  · change p.first.val ≤ p.first.prev.val + 1
    omega
  · change p.first.prev.val + 1 < 2 ^ p.first.prev.bitLen
    rw [lp]
    omega

/-! ### Calls keep the range -/

/-- Two states of one pool: the fields `New` sets once. -/
def SameRange (p q : Pool S) : Prop := q.first = p.first ∧ q.last = p.last ∧ q.ipnet = p.ipnet

theorem SameRange.trans {q r : Pool S} (h : SameRange p q) (h' : SameRange q r) : SameRange p r :=
  ⟨h'.1.trans h.1, h'.2.1.trans h.2.1, h'.2.2.trans h.2.2⟩

theorem sameRange_advance (p : Pool S) : SameRange p p.advance := by
  simp only [advance]
  split <;> exact ⟨rfl, rfl, rfl⟩

variable [Store S]

theorem sameRange_lookup (p : Pool S) (host : GoString) : SameRange p (p.lookup host).2 := by
  simp only [lookup]
  split
  · exact ⟨rfl, rfl, rfl⟩
  · exact sameRange_advance { p with store := _ }

theorem sameRange_flushFakeIP (p : Pool S) : SameRange p p.flushFakeIP.2 := by
  simp only [flushFakeIP]
  split <;> exact ⟨rfl, rfl, rfl⟩

end Pool

/-- The calls on a pool. -/
inductive PoolOp where
  | lookup (host : GoString)
  | lookBack (ip : Addr)
  | exist (ip : Addr)
  | flushFakeIP

variable {S : Type*} [Store S]

/-- The pool after a call. -/
def PoolOp.apply (p : Pool S) : PoolOp → Pool S
  | lookup host => (p.lookup host).2
  | lookBack ip => (p.lookBack ip).2
  | exist ip => (p.exist ip).2
  | flushFakeIP => p.flushFakeIP.2

/-- The pool after a sequence of calls. -/
def Pool.runOps (p : Pool S) (ops : List PoolOp) : Pool S := ops.foldl PoolOp.apply p

theorem Pool.sameRange_runOps (p : Pool S) (ops : List PoolOp) : p.SameRange (p.runOps ops) := by
  induction ops generalizing p with
  | nil => exact ⟨rfl, rfl, rfl⟩
  | cons op ops ih =>
    refine SameRange.trans ?_ (ih (op.apply p))
    cases op with
    | lookup host => exact p.sameRange_lookup host
    | lookBack ip | exist ip => exact ⟨rfl, rfl, rfl⟩
    | flushFakeIP => exact p.sameRange_flushFakeIP

end Hako.FakeIP
