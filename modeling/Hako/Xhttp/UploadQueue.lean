import Mathlib

/-!
# The upload queue

The server of the packet-up mode gets its upload as numbered packets, each in a request of its
own, and `UploadQueue` puts them in order. `Push` stores a packet under its number and waits while
there are too many of them; `Read` takes the packet that is next and serves its bytes. Both run
under one mutex and wait on condition variables, so a call is a sequence of atomic sections: from
its start, or from where it was woken, to where it waits or returns.

`Push` does not ask whether the number of a packet is already behind. A packet that comes again
after it was read is stored and never taken, and counts against the limit for good.
-/

namespace Hako.Xhttp

open List Option Nat

variable {R : Type}

/-- What `Push` is given. A packet with a reader stands for the whole upload. -/
structure Packet (R : Type) where
  seq : UInt64
  payload : List UInt8
  reader : Option R

/-- The queue. A condition variable holds the calls that wait on it, and whether they have been
woken. The last two fields are not in the source: how many packets were taken, and what `Read` has
returned of them. -/
structure UploadQueue (R : Type) where
  condPushed : List (Nat × Bool)
  condPopped : List (Packet R × Bool)
  packets : AList fun _ : UInt64 => List UInt8
  nextSeq : UInt64
  buf : List UInt8
  closed : Bool
  maxPackets : Int
  reader : Option R
  taken : Nat
  returned : List UInt8

def newUploadQueue (maxPackets : Int) : UploadQueue R :=
  ⟨[], [], ∅, 0, [], false, maxPackets, none, 0, []⟩

/-- `Cond.Broadcast` -/
def broadcast {α : Type} (cond : List (α × Bool)) : List (α × Bool) :=
  cond.map fun call => (call.1, true)

/-- How a section ends: the call returns, or waits. -/
inductive Outcome (R : Type)
  | waits
  | pushed
  | closedPipe
  | readerExists
  | bytes (b : List UInt8)
  | delegated (reader : R)
  | eof
  | tooLarge
  | closed (reader : Option R)

namespace UploadQueue

variable (q : UploadQueue R)

/-- `len(q.packets)` -/
def size : Nat := q.packets.keys.length

/-! ### Push -/

/-- The loop of `Push` and what follows it. -/
def pushLoop (p : Packet R) : UploadQueue R × Outcome R :=
  if q.maxPackets < q.size then
    ({ q with condPopped := q.condPopped ++ [(p, false)] }, .waits)
  else
    ({ q with
        packets := q.packets.insert p.seq p.payload
        condPushed := broadcast q.condPushed }, .pushed)

def push (p : Packet R) : UploadQueue R × Outcome R :=
  if q.closed then (q, .closedPipe)
  else if q.reader.isSome then (q, .readerExists)
  else
    match p.reader with
    | some reader =>
      ({ q with reader := some reader, condPushed := broadcast q.condPushed }, .pushed)
    | none => q.pushLoop p

/-- `Push` after it was woken. -/
def pushWoken (p : Packet R) : UploadQueue R × Outcome R :=
  if q.closed then (q, .closedPipe) else q.pushLoop p

/-! ### Read -/

/-- The packet that is next becomes the buffer. -/
def pop (payload : List UInt8) : UploadQueue R :=
  { q with
    packets := q.packets.erase q.nextSeq
    nextSeq := q.nextSeq + 1
    buf := payload
    condPopped := broadcast q.condPopped
    taken := q.taken + 1 }

theorem size_pop_lt {payload : List UInt8} (h : q.packets.lookup q.nextSeq = some payload) :
    (q.pop payload).size < q.size := by
  have hmem : q.nextSeq ∈ q.packets.keys := AList.lookup_isSome.mp (by rw [h]; rfl)
  rw [size, size, pop, AList.keys_erase, length_erase_of_mem hmem]
  exact sub_lt (length_pos_of_mem hmem) one_pos

/-- The loop of `Read` for a buffer of `n` bytes. -/
def readLoop (n : Nat) (q : UploadQueue R) : UploadQueue R × Outcome R :=
  if q.buf ≠ [] then
    ({ q with buf := q.buf.drop n, returned := q.returned ++ q.buf.take n }, .bytes (q.buf.take n))
  else
    match _ : q.packets.lookup q.nextSeq with
    | some payload => readLoop n (q.pop payload)
    | none =>
      match q.reader with
      | some reader => (q, .delegated reader)
      | none =>
        if q.closed then (q, .eof)
        else if q.maxPackets < q.size then (q, .tooLarge)
        else ({ q with condPushed := q.condPushed ++ [(n, false)] }, .waits)
termination_by q.size
decreasing_by exact q.size_pop_lt ‹_›

/-! ### Close and the sections of all calls -/

def close : UploadQueue R × Outcome R :=
  ({ q with
      closed := true
      condPushed := broadcast q.condPushed
      condPopped := broadcast q.condPopped }, .closed q.reader)

end UploadQueue

/-- Which section runs: that of a new call, or that of a call which was woken. -/
inductive Event (R : Type)
  | push (p : Packet R)
  | pushWoken (i : Nat)
  | read (n : Nat)
  | readWoken (i : Nat)
  | close

/-- A call that waits goes on only after it was woken. -/
def UploadQueue.step (q : UploadQueue R) : Event R → Option (UploadQueue R × Outcome R)
  | .push p => some (q.push p)
  | .pushWoken i =>
    match q.condPopped[i]? with
    | some (p, true) => some ({ q with condPopped := q.condPopped.eraseIdx i }.pushWoken p)
    | _ => none
  | .read n => some (q.readLoop n)
  | .readWoken i =>
    match q.condPushed[i]? with
    | some (n, true) => some ({ q with condPushed := q.condPushed.eraseIdx i }.readLoop n)
    | _ => none
  | .close => some q.close

/-- The packet with which `Push` is about to go on, if it is not a reader. -/
def Event.packet (q : UploadQueue R) : Event R → Option (Packet R)
  | .push p => if p.reader.isNone then some p else none
  | .pushWoken i => q.condPopped[i]?.map Prod.fst
  | _ => none

/-! ### What the queue promises -/

section Promise

variable (payload : UInt64 → List UInt8)

/-- The payloads of the first `n` packets, one after the other. -/
def inOrder (n : Nat) : List UInt8 := (List.range n).flatMap fun seq => payload (.ofNat seq)

/-- A number is consumed if a packet was taken under it. -/
def Consumed (q : UploadQueue R) (seq : UInt64) : Prop := seq.toNat < q.taken

instance (q : UploadQueue R) (seq : UInt64) : Decidable (Consumed q seq) :=
  inferInstanceAs (Decidable (_ < _))

/-- The numbers of the packets that are stored and not consumed. -/
def UploadQueue.awaited (q : UploadQueue R) : List UInt64 :=
  q.packets.keys.filter fun seq => ¬ Consumed q seq

/-- One section, where each packet is pushed with its own payload and `allowed` tells which packets
may be pushed at all. -/
def Step (allowed : UploadQueue R → UInt64 → Prop) (q q' : UploadQueue R) : Prop :=
  ∃ event outcome, q.step event = some (q', outcome) ∧
    ∀ p ∈ event.packet q, p.payload = payload p.seq ∧ allowed q p.seq

/-- What was returned is the upload so far, what is stored is still to come, and the queue is found
too large only if too much is to come. -/
structure Ordered (q : UploadQueue R) : Prop where
  returned : q.returned <+: inOrder payload (2 ^ 64)
  stored : ∀ seq ∈ q.packets.keys, ¬ Consumed q seq
  tooLarge : ∀ event q', q.step event = some (q', .tooLarge) → q'.maxPackets < q'.awaited.length

/-! ### The invariant -/

structure Inv (q : UploadQueue R) : Prop where
  next : q.nextSeq = .ofNat q.taken
  bound : q.taken ≤ 2 ^ 64
  stored : ∀ seq, ∀ bytes ∈ q.packets.lookup seq, bytes = payload seq ∧ q.taken ≤ seq.toNat
  waiting : ∀ call ∈ q.condPopped, call.1.payload = payload call.1.seq
  handed : q.returned ++ q.buf = inOrder payload q.taken

variable {payload} {q q' : UploadQueue R}

theorem inOrder_succ (n : Nat) :
    inOrder payload (n + 1) = inOrder payload n ++ payload (.ofNat n) := by
  rw [inOrder, range_succ, flatMap_append, flatMap_singleton, inOrder]

theorem inOrder_mono {m n : Nat} (h : m ≤ n) : inOrder payload m <+: inOrder payload n := by
  induction h with
  | refl => exact prefix_rfl
  | step _ ih =>
    rw [inOrder_succ]
    exact ih.trans (prefix_append _ _)

namespace Inv

theorem start (maxPackets : Int) : Inv payload (newUploadQueue maxPackets : UploadQueue R) where
  next := rfl
  bound := zero_le _
  stored seq bytes h := by
    have hnone : (∅ : AList fun _ : UInt64 => List UInt8).lookup seq = none :=
      AList.lookup_empty seq
    rw [newUploadQueue, hnone] at h
    cases h
  waiting := nofun
  handed := rfl

variable (h : Inv payload q)
include h

/-- Which calls wait on `condPopped` matters only by their packets. -/
theorem of_waiting {cond : List (Packet R × Bool)}
    (hcond : ∀ call ∈ cond, call.1.payload = payload call.1.seq) :
    Inv payload { q with condPopped := cond } :=
  { h with waiting := hcond }

theorem waiting_broadcast :
    ∀ call ∈ broadcast q.condPopped, call.1.payload = payload call.1.seq := by
  intro call hcall
  obtain ⟨call, hmem, rfl⟩ := mem_map.mp hcall
  exact h.waiting call hmem

/-- The packet that is next is the one after those that were taken. -/
theorem toNat_nextSeq {bytes : List UInt8} (hlookup : q.packets.lookup q.nextSeq = some bytes) :
    q.nextSeq.toNat = q.taken ∧ q.taken < 2 ^ 64 := by
  have hle := (h.stored _ bytes hlookup).2
  have hlt := lt_of_le_of_lt hle q.nextSeq.toNat_lt
  refine ⟨?_, hlt⟩
  rw [h.next, UInt64.toNat_ofNat', mod_eq_of_lt hlt]

open UploadQueue

theorem pop (hbuf : q.buf = []) {bytes : List UInt8}
    (hlookup : q.packets.lookup q.nextSeq = some bytes) : Inv payload (q.pop bytes) := by
  obtain ⟨hnext, hlt⟩ := h.toNat_nextSeq hlookup
  refine ⟨?_, hlt, fun seq bytes' hbytes' => ?_, h.waiting_broadcast, ?_⟩
  · change q.nextSeq + 1 = .ofNat (q.taken + 1)
    rw [UInt64.ofNat_add, ← h.next]
    rfl
  · -- the erased number is the only one that is consumed now
    by_cases hseq : seq = q.nextSeq
    · rw [UploadQueue.pop, hseq, AList.lookup_erase] at hbytes'
      cases hbytes'
    · rw [UploadQueue.pop, AList.lookup_erase_ne hseq] at hbytes'
      obtain ⟨hbytes, hle⟩ := h.stored seq bytes' hbytes'
      refine ⟨hbytes, lt_of_le_of_ne hle fun heq => hseq ?_⟩
      exact UInt64.toNat_inj.mp (heq.symm.trans hnext.symm)
  · have hhanded := h.handed
    rw [hbuf, append_nil] at hhanded
    change q.returned ++ bytes = inOrder payload (q.taken + 1)
    rw [inOrder_succ, hhanded, (h.stored _ bytes hlookup).1, ← h.next]

theorem readLoop (n : Nat) : Inv payload (q.readLoop n).1 := by
  fun_induction UploadQueue.readLoop n q with
  | case1 q hbuf =>
    refine { h with handed := ?_ }
    rw [append_assoc, take_append_drop]
    exact h.handed
  | case2 q hbuf bytes hlookup ih => exact ih (h.pop (not_not.mp hbuf) hlookup)
  | case3 | case4 | case5 => exact h
  | case6 => exact { h with }

theorem pushLoop {p : Packet R} (hpayload : p.payload = payload p.seq)
    (htimely : ¬ Consumed q p.seq) : Inv payload (q.pushLoop p).1 := by
  rw [UploadQueue.pushLoop]
  split
  · exact h.of_waiting (forall_mem_append.mpr ⟨h.waiting, forall_mem_singleton.mpr hpayload⟩)
  · refine { h with stored := fun seq bytes hbytes => ?_ }
    by_cases hseq : seq = p.seq
    · rw [hseq, AList.lookup_insert] at hbytes
      cases hbytes
      rw [hseq]
      exact ⟨hpayload, Nat.le_of_not_lt htimely⟩
    · rw [AList.lookup_insert_ne hseq] at hbytes
      exact h.stored seq bytes hbytes

theorem push {p : Packet R}
    (hp : p.reader = none → p.payload = payload p.seq ∧ ¬ Consumed q p.seq) :
    Inv payload (q.push p).1 := by
  rw [UploadQueue.push]
  split
  · exact h
  · split
    · exact h
    · split
      · exact { h with }
      · rename_i hnone
        exact h.pushLoop (hp hnone).1 (hp hnone).2

theorem pushWoken {p : Packet R} (hpayload : p.payload = payload p.seq)
    (htimely : ¬ Consumed q p.seq) : Inv payload (q.pushWoken p).1 := by
  rw [UploadQueue.pushWoken]
  split
  · exact h
  · exact h.pushLoop hpayload htimely

/-- A call of `Read` that goes on no longer waits. -/
theorem of_condPushed (cond : List (Nat × Bool)) :
    Inv payload { q with condPushed := cond } :=
  { h with }

theorem step (hstep : Step payload (fun q seq => ¬ Consumed q seq) q q') :
    Inv payload q' := by
  obtain ⟨event, outcome, hstep, hpacket⟩ := hstep
  cases event with
  | push p =>
    obtain rfl := congrArg Prod.fst (some.inj hstep)
    refine h.push fun hnone => hpacket p ?_
    rw [Event.packet, hnone]
    rfl
  | pushWoken i =>
    rw [UploadQueue.step] at hstep
    split at hstep
    · rename_i p hcall
      obtain rfl := congrArg Prod.fst (some.inj hstep)
      obtain ⟨hpayload, htimely⟩ := hpacket p (by rw [Event.packet, hcall]; rfl)
      refine (h.of_waiting fun call hmem => ?_).pushWoken hpayload htimely
      exact h.waiting call (mem_of_mem_eraseIdx hmem)
    · cases hstep
  | read n =>
    obtain rfl := congrArg Prod.fst (some.inj hstep)
    exact h.readLoop n
  | readWoken i =>
    rw [UploadQueue.step] at hstep
    split at hstep
    · obtain rfl := congrArg Prod.fst (some.inj hstep)
      exact (h.of_condPushed _).readLoop _
    · cases hstep
  | close =>
    obtain rfl := congrArg Prod.fst (some.inj hstep)
    exact { h with waiting := h.waiting_broadcast }

end Inv

/-! ### The promise, kept and broken -/

theorem UploadQueue.pushLoop_ne_tooLarge (q : UploadQueue R) (p : Packet R) :
    (q.pushLoop p).2 ≠ .tooLarge := by
  rw [pushLoop]
  split <;> exact nofun

theorem UploadQueue.readLoop_tooLarge {n : Nat} (h : (q.readLoop n).2 = .tooLarge) :
    (q.readLoop n).1.maxPackets < (q.readLoop n).1.size := by
  fun_induction readLoop n q with
  | case1 | case3 | case4 | case6 => cases h
  | case2 _ _ _ _ ih => exact ih h
  | case5 _ _ _ _ _ hsize => exact hsize

theorem UploadQueue.step_tooLarge {event : Event R} (h : q.step event = some (q', .tooLarge)) :
    (∃ cond n, q' = ({ q with condPushed := cond }.readLoop n).1) ∧ q'.maxPackets < q'.size := by
  cases event with
  | push p =>
    have hpush := congrArg Prod.snd (some.inj h)
    rw [push] at hpush
    split at hpush
    · cases hpush
    · split at hpush
      · cases hpush
      · split at hpush
        · cases hpush
        · exact (q.pushLoop_ne_tooLarge p hpush).elim
  | pushWoken i =>
    rw [step] at h
    split at h
    · have hpush := congrArg Prod.snd (some.inj h)
      rw [pushWoken] at hpush
      split at hpush
      · cases hpush
      · exact (pushLoop_ne_tooLarge _ _ hpush).elim
    · cases h
  | read n =>
    have hread := some.inj h
    obtain rfl := congrArg Prod.fst hread
    exact ⟨⟨q.condPushed, n, rfl⟩, readLoop_tooLarge (congrArg Prod.snd hread)⟩
  | readWoken i =>
    rw [step] at h
    split at h
    · have hread := some.inj h
      obtain rfl := congrArg Prod.fst hread
      exact ⟨⟨_, _, rfl⟩, readLoop_tooLarge (congrArg Prod.snd hread)⟩
    · cases h
  | close => cases congrArg Prod.snd (some.inj h)

theorem Inv.not_consumed (h : Inv payload q) {seq : UInt64} (hseq : seq ∈ q.packets.keys) :
    ¬ Consumed q seq := by
  obtain ⟨bytes, hbytes⟩ := isSome_iff_exists.mp (AList.lookup_isSome.mpr hseq)
  exact Nat.not_lt_of_le (h.stored seq bytes hbytes).2

theorem Inv.awaited (h : Inv payload q) : q.awaited.length = q.size := by
  rw [UploadQueue.awaited, UploadQueue.size, filter_eq_self.mpr]
  exact fun seq hseq => decide_eq_true (h.not_consumed hseq)

theorem Inv.ordered (h : Inv payload q) : Ordered payload q where
  returned := by
    have hprefix : q.returned <+: inOrder payload q.taken := ⟨q.buf, h.handed⟩
    exact hprefix.trans (inOrder_mono h.bound)
  stored _ hseq := h.not_consumed hseq
  tooLarge event q' hstep := by
    obtain ⟨⟨cond, n, rfl⟩, hsize⟩ := UploadQueue.step_tooLarge hstep
    rwa [((h.of_condPushed cond).readLoop n).awaited]

/-- While no `Push` goes on with a packet that was already read, the bytes that `Read` returns are
those of the upload in order, every packet that is stored is still to come, and the queue is found
too large only if more packets than its limit are. -/
theorem ordered_of_timely {R : Type} (maxPackets : Int) (payload : UInt64 → List UInt8)
    {q : UploadQueue R} (h : Relation.ReflTransGen (Step payload fun q seq => ¬ Consumed q seq)
      (newUploadQueue maxPackets) q) : Ordered payload q := by
  refine Inv.ordered ?_
  induction h with
  | refl => exact .start maxPackets
  | tail _ hstep ih => exact ih.step hstep

/-- Two packets that come the wrong way round, and a `Read`. -/
theorem ordered_swapped :
    Ordered (fun seq => [seq.toUInt8]) ((((newUploadQueue 1 : UploadQueue Unit).push
      ⟨1, [1], none⟩).1.push ⟨0, [0], none⟩).1.readLoop 2).1 :=
  ordered_of_timely 1 _ (.tail (.tail (.tail .refl ⟨.push ⟨1, [1], none⟩, _, rfl, by
    rintro _ ⟨⟩; exact ⟨rfl, not_lt_zero _⟩⟩) ⟨.push ⟨0, [0], none⟩, _, rfl, by
    rintro _ ⟨⟩; exact ⟨rfl, not_lt_zero _⟩⟩) ⟨.read 2, _, rfl, nofun⟩)

/-- The first packet is pushed, read and pushed again. -/
def stale : UploadQueue Unit :=
  ((((newUploadQueue 0).push ⟨0, [0], none⟩).1.readLoop 1).1.push ⟨0, [0], none⟩).1

theorem stale_eq : stale = ⟨[], [], (∅ : AList _).insert 0 [0], 1, [], false, 0, none, 1, [0]⟩ := by
  have hread : ((newUploadQueue 0 : UploadQueue Unit).push ⟨0, [0], none⟩).1.readLoop 1 =
      (⟨[], [], ∅, 1, [], false, 0, none, 1, [0]⟩, .bytes [0]) := by
    rw [UploadQueue.readLoop, if_neg (by decide)]
    change UploadQueue.readLoop 1 (UploadQueue.pop _ [0]) = _
    rw [UploadQueue.readLoop, if_pos (by decide)]
    rfl
  rw [stale, hread]
  rfl

/-- A packet that is pushed again after it was read stays in the queue, and makes it too large
although no packet is to come. -/
theorem stale_not_ordered :
    Relation.ReflTransGen (Step (fun _ => [0]) fun _ _ => True) (newUploadQueue 0) stale ∧
      (∃ seq ∈ stale.packets.keys, Consumed stale seq) ∧
      ∃ q', stale.step (.read 1) = some (q', .tooLarge) ∧ ¬ q'.maxPackets < q'.awaited.length := by
  have hpush : ∀ p ∈ some (⟨0, [0], none⟩ : Packet Unit), p.payload = [0] ∧ True := by
    rintro _ ⟨⟩
    exact ⟨rfl, trivial⟩
  have hread : stale.readLoop 1 = (stale, .tooLarge) := by
    rw [stale_eq, UploadQueue.readLoop, if_neg (by decide)]
    rfl
  refine ⟨.tail (.tail (.tail .refl ⟨.push ⟨0, [0], none⟩, _, rfl, hpush⟩)
    ⟨.read 1, _, rfl, nofun⟩) ⟨.push ⟨0, [0], none⟩, _, rfl, hpush⟩, ⟨0, ?_, ?_⟩, stale, ?_, ?_⟩
  · rw [stale_eq]
    decide
  · rw [stale_eq]
    decide
  · exact congrArg some hread
  · rw [stale_eq]
    decide

end Promise

end Hako.Xhttp
