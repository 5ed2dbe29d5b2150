import Hako.GoLib.Utf8

/-!
# The OpenVPN control channel

`ControlChannel` carries reliable messages over datagrams. Every method is a sequence of
sections that hold the channel's mutex; here each section is a function on the channel, so that
a system can interleave them. `read` has four: it takes a buffered packet, or it receives a
datagram, learns the peer's session from it, admits it, and commits it. The packet of a section
that emits one is its result. Deadlines, wake-up channels and the parked TLS payloads, which
only `waitForSoftReset` fills, are left out.
-/

namespace Hako.OpenVPN

open GoLib

inductive Opcode where
  | controlHardResetClientV1
  | controlHardResetServerV1
  | controlSoftResetV1
  | controlV1
  | ackV1
  | dataV1
  | controlHardResetClientV2
  | controlHardResetServerV2
  | dataV2
  | controlHardResetClientV3
  | controlWKCV1
deriving DecidableEq

namespace Opcode

def isControl : Opcode → Bool
  | dataV1 | dataV2 => false
  | _ => true

def hasMessageID (o : Opcode) : Bool := o.isControl && o != ackV1

end Opcode

abbrev SessionID := Vector UInt8 8

/-- The session id of a peer that is not known yet. -/
def SessionID.zero : SessionID := Vector.replicate 8 0

structure ControlPacket where
  opcode : Opcode
  keyID : UInt8
  localSession : SessionID
  ackIDs : List UInt32
  ackRemoteSession : SessionID
  messageID : UInt32
  payload : GoString
deriving DecidableEq

/-- What decoding an encoded packet gives: the acknowledged session only with
acknowledgements, message id and payload only if the opcode has them. -/
def ControlPacket.onWire (p : ControlPacket) : ControlPacket :=
  { p with
    keyID := p.keyID &&& 7
    ackRemoteSession := if p.ackIDs = [] then .zero else p.ackRemoteSession
    messageID := if p.opcode.hasMessageID then p.messageID else 0
    payload := if p.opcode.hasMessageID then p.payload else [] }

/-- A decoded control datagram with the packet id and time of its protection. -/
structure Datagram where
  packet : ControlPacket
  packetID : UInt32
  unixTime : UInt32
deriving DecidableEq

def nextKeyID (current : UInt8) : UInt8 :=
  if (current + 1) &&& 7 = 0 then 1 else (current + 1) &&& 7

variable {id : UInt32} {p q : ControlPacket} {m : List ControlPacket}

/-- The next epoch has another key id. -/
theorem nextKeyID_ne (k : UInt8) : nextKeyID k ≠ k := by
  obtain ⟨⟨k⟩⟩ := k
  revert k
  decide +kernel

/-! ### The anti-replay window -/

def controlReplayWindow : Nat := 64

/-- In nanoseconds. -/
def controlReplayTimeBacktrack : Int := 15 * 1000000000

structure ReplayState where
  time : UInt32
  highID : UInt32
  /-- By distance behind `highID`: 0 unseen, 1 expired, else the time of acceptance. -/
  slots : List Int
  seen : Bool
deriving DecidableEq

namespace ReplayState

def empty : ReplayState := ⟨0, 0, List.replicate controlReplayWindow 0, false⟩

/-- The loop of `reap`: from the first slot that is too old, every slot expires, up to the
slots that an earlier call has expired. -/
def reapFrom (now : Int) (expire : Bool) : List Int → List Int
  | [] => []
  | accepted :: rest =>
    if accepted = 1 then accepted :: rest
    else
      let expire := expire || (1 < accepted && accepted + controlReplayTimeBacktrack < now)
      (if expire then 1 else accepted) :: reapFrom now expire rest

def reap (r : ReplayState) (now : Int) : ReplayState :=
  { r with slots := reapFrom now false r.slots }

/-- Move the window so that `packetID` is its highest id. -/
def advance (r : ReplayState) (now : Int) (packetID : UInt32) : ReplayState :=
  let shift := (packetID - r.highID).toNat
  let slots :=
    if controlReplayWindow ≤ shift then List.replicate controlReplayWindow 0
    else List.replicate shift 0 ++ r.slots.take (controlReplayWindow - shift)
  { r with highID := packetID, slots := slots.set 0 now }

/-- `checkReplayLocked`: the new window and whether the packet is accepted. -/
def check (r : ReplayState) (now : Int) (packetID unixTime : UInt32) : ReplayState × Bool :=
  if packetID = 0 then (r, false)
  else if !r.seen || r.time < unixTime then
    ({ time := unixTime, highID := packetID, seen := true,
       slots := (List.replicate controlReplayWindow 0).set 0 now }, true)
  else if unixTime < r.time then (r, false)
  else
    let r := r.reap now
    if r.highID < packetID then (r.advance now packetID, true)
    else
      let diff := (r.highID - packetID).toNat
      if controlReplayWindow ≤ diff then (r, false)
      else if r.slots.getD diff 0 ≠ 0 then (r, false)
      else ({ r with slots := r.slots.set diff now }, true)

/-! ### What the window remembers -/

/-- The packets accepted, as id and time, out of packets that come with the clock. -/
def accepted (r : ReplayState) : List (Int × UInt32 × UInt32) → List (UInt32 × UInt32)
  | [] => []
  | (now, packetID, unixTime) :: packets =>
    let c := r.check now packetID unixTime
    if c.2 then (packetID, unixTime) :: c.1.accepted packets else c.1.accepted packets

/-- The packet `p` may be accepted before `q`. -/
def Precedes (p q : UInt32 × UInt32) : Prop :=
  p ≠ q ∧ p.2 ≤ q.2 ∧ (p.2 = q.2 → p.1.toNat < q.1.toNat + controlReplayWindow)

/-- A packet of the window's time has a slot in use, unless it is too far behind for one. -/
structure Remembers (r : ReplayState) (p : UInt32 × UInt32) : Prop where
  seen : r.seen = true
  time_le : p.2 ≤ r.time
  le_highID : p.2 = r.time → p.1.toNat ≤ r.highID.toNat
  slot : p.2 = r.time → r.highID.toNat - p.1.toNat < controlReplayWindow →
    r.slots.getD (r.highID.toNat - p.1.toNat) 0 ≠ 0

variable {r : ReplayState} {p : UInt32 × UInt32} {now : Int} {packetID unixTime : UInt32}
  {slots : List Int} {expire : Bool}

theorem length_reapFrom : (reapFrom now expire slots).length = slots.length := by
  induction slots generalizing expire with
  | nil => rfl
  | cons a slots ih => grind [reapFrom]

/-- A slot in use stays in use. -/
theorem reapFrom_ne_zero {d : Nat} (h : slots.getD d 0 ≠ 0) :
    (reapFrom now expire slots).getD d 0 ≠ 0 := by
  induction slots generalizing expire d with
  | nil => exact h
  | cons a slots ih =>
    rw [reapFrom]
    cases d with
    | zero => grind
    | succ d =>
      split
      · exact h
      · exact ih h

theorem length_check (h : r.slots.length = controlReplayWindow) :
    (r.check now packetID unixTime).1.slots.length = controlReplayWindow := by
  grind [check, reap, advance, length_reapFrom]

theorem Remembers.check (h : r.Remembers p) (hnow : now ≠ 0) :
    (r.check now packetID unixTime).1.Remembers p := by
  obtain ⟨hseen, htime, hle, hslot⟩ := h
  have hreap : (r.reap now).Remembers p :=
    ⟨hseen, htime, hle, fun heq hlt => reapFrom_ne_zero (hslot heq hlt)⟩
  simp only [ReplayState.check]
  split_ifs with hzero hnew hold hhigh hstale hfree
  · exact ⟨hseen, htime, hle, hslot⟩
  · constructor <;> grind
  · exact ⟨hseen, htime, hle, hslot⟩
  · -- the slots move by the difference of the highest ids
    have hshift := UInt32.toNat_sub_of_le _ _ (UInt32.le_of_lt hhigh)
    have hlt : r.highID.toNat < packetID.toNat := hhigh
    constructor <;> grind [advance, reap, Remembers]
  · exact hreap
  · exact hreap
  · constructor <;> grind [reap, Remembers]

/-- A packet is accepted only behind all that are remembered, and is then remembered. -/
theorem Remembers.accept (hnow : now ≠ 0) (hlen : r.slots.length = controlReplayWindow)
    (hok : (r.check now packetID unixTime).2 = true) :
    (r.check now packetID unixTime).1.Remembers (packetID, unixTime) ∧
      ∀ p, r.Remembers p → Precedes p (packetID, unixTime) := by
  simp only [ReplayState.check] at hok ⊢
  split_ifs at hok ⊢ with hzero hnew hold hhigh hstale hfree
  · refine ⟨by constructor <;> grind, fun p ⟨hseen, htime, hle, hslot⟩ => ?_⟩
    grind [Precedes]
  · have hshift := UInt32.toNat_sub_of_le _ _ (UInt32.le_of_lt hhigh)
    have hlt : r.highID.toNat < packetID.toNat := hhigh
    refine ⟨by constructor <;> grind [advance, reap], fun p ⟨hseen, htime, hle, hslot⟩ => ?_⟩
    grind [Precedes]
  · have hle' : packetID.toNat ≤ r.highID.toNat := UInt32.not_lt.mp hhigh
    have hdiff := UInt32.toNat_sub_of_le _ _ (UInt32.not_lt.mp hhigh)
    have hlen' := @length_reapFrom now r.slots false
    refine ⟨by constructor <;> grind [reap], fun p ⟨hseen, htime, hle, hslot⟩ => ?_⟩
    -- the slot of a packet accepted before is in use
    have hused := @reapFrom_ne_zero now r.slots false (r.highID.toNat - p.1.toNat)
    grind [Precedes, reap]

/-- Whatever packets come in, and whenever: of those accepted no two are the same, their times
never decrease, and within one time none is a whole window below an earlier one. -/
theorem accepted_pairwise (packets : List (Int × UInt32 × UInt32))
    (hclock : ∀ p ∈ packets, 1 < p.1) : (empty.accepted packets).Pairwise Precedes := by
  suffices h : ∀ r : ReplayState, r.slots.length = controlReplayWindow →
      (r.accepted packets).Pairwise Precedes ∧
        ∀ p, r.Remembers p → ∀ q ∈ r.accepted packets, Precedes p q from (h empty rfl).1
  induction packets with
  | nil => exact fun r _ => ⟨.nil, nofun⟩
  | cons packet packets ih =>
    intro r hlen
    obtain ⟨now, packetID, unixTime⟩ := packet
    obtain ⟨hnow, hclock⟩ := List.forall_mem_cons.mp hclock
    have hne : now ≠ 0 := fun heq => absurd hnow (by simp [heq])
    obtain ⟨hpairs, hlater⟩ := ih hclock _ (length_check hlen)
    rw [accepted]
    split
    · obtain ⟨hnew, hbefore⟩ := Remembers.accept hne hlen ‹_›
      exact ⟨List.pairwise_cons.mpr ⟨hlater _ hnew, hpairs⟩, fun p hp =>
        List.forall_mem_cons.mpr ⟨hbefore p hp, hlater p (hp.check hne)⟩⟩
    · exact ⟨hpairs, fun p hp => hlater p (hp.check hne)⟩

/-- A packet, one behind it, and both of them again. -/
theorem accepted_pairwise_example :
    empty.accepted [(2, 7, 1), (3, 5, 1), (4, 7, 1), (5, 5, 1)] = [(7, 1), (5, 1)] ∧
      [(7, 1), (5, 1)].Pairwise Precedes :=
  ⟨by decide, accepted_pairwise [(2, 7, 1), (3, 5, 1), (4, 7, 1), (5, 5, 1)] (by decide)⟩

end ReplayState

/-! ### Acknowledgements -/

def reliableAckSize : Nat := 8

def reliableCapacity : UInt32 := 12

def controlSendAckMax : Nat := 4

def recvWindowOK (recvMessage messageID : UInt32) (buffered : Nat) : Bool :=
  messageID - recvMessage < reliableCapacity && buffered < reliableCapacity.toNat

def reliableMessageBefore (messageID recvMessage : UInt32) : Bool :=
  0x80000000 ≤ messageID - recvMessage

def appendAck (acks : List UInt32) (ack : UInt32) : List UInt32 :=
  if ack ∈ acks then acks else acks ++ [ack]

theorem mem_appendAck {acks : List UInt32} {ack a : UInt32} :
    a ∈ appendAck acks ack ↔ a ∈ acks ∨ a = ack := by
  unfold appendAck
  split
  · exact ⟨.inl, fun h => h.elim id fun h => h ▸ ‹_›⟩
  · simp

/-- The inner loop of `takeAcksLocked`: every entry moves one place to the right, up to the
entry `id` itself. The second result is the entry that found no place. -/
def moveToFront (id : UInt32) : UInt32 → List UInt32 → List UInt32 × Option UInt32
  | move, [] => ([], some move)
  | move, entry :: rest =>
    if entry = id then (move :: rest, none)
    else
      let (moved, last) := moveToFront id entry rest
      (move :: moved, last)

/-- One round of the outer loop: `id` comes to the front of the most recently used ids. -/
def touchAck (lruAcks : List UInt32) (id : UInt32) : List UInt32 :=
  match moveToFront id id lruAcks with
  | (moved, none) => moved
  | (moved, some last) => if moved.length < reliableAckSize then moved ++ [last] else moved

theorem moveToFront_eq (id move : UInt32) (acks : List UInt32) :
    (moveToFront id move acks).1 ++ (moveToFront id move acks).2.toList = move :: acks.erase id ∧
      (moveToFront id move acks).1.length = acks.length := by
  induction acks generalizing move with
  | nil => exact ⟨rfl, rfl⟩
  | cons entry rest ih =>
    rw [moveToFront, List.erase_cons]
    by_cases hid : entry = id
    · simp [hid]
    · simp [hid, ih entry]

/-- The id leaves its place and comes to the front; without room the last one is lost. -/
theorem touchAck_eq (lruAcks : List UInt32) (id : UInt32) : touchAck lruAcks id =
    (id :: lruAcks.erase id).take (max lruAcks.length reliableAckSize) := by
  obtain ⟨heq, hlength⟩ := moveToFront_eq id id lruAcks
  rw [touchAck, ← heq, ← hlength]
  rcases moveToFront id id lruAcks with ⟨moved, _ | last⟩
  · simp
  · dsimp only
    split
    · simp_all
    · rw [max_eq_left (by omega)]
      exact List.take_left.symm

theorem mem_touchAck {lruAcks : List UInt32} {a : UInt32} (h : a ∈ touchAck lruAcks id) :
    a = id ∨ a ∈ lruAcks := by
  rw [touchAck_eq] at h
  exact (List.mem_cons.mp (List.mem_of_mem_take h)).imp_right List.mem_of_mem_erase

/-! ### The channel -/

/-- The fields of the channel that its mutex guards. Of `crypt` only matters whether there is
one; the maps `pending` and `recvPending` are lists of packets with distinct message ids. -/
structure ControlChannel where
  crypt : Bool
  keyID : UInt8
  localSession : SessionID
  remote : SessionID
  sendPacketID : UInt32
  sendPacketTime : UInt32
  sendMessage : UInt32
  recvMessage : UInt32
  ackPending : List UInt32
  lruAcks : List UInt32
  pending : List ControlPacket
  recvPending : List ControlPacket
  pendingSoftReset : Option ControlPacket
  recReplay : ReplayState
deriving DecidableEq

/-- `m[p.messageID] = p` -/
def putPacket (m : List ControlPacket) (p : ControlPacket) : List ControlPacket :=
  m.filter (·.messageID ≠ p.messageID) ++ [p]

/-- `m[id]` -/
def getPacket (m : List ControlPacket) (id : UInt32) : Option ControlPacket :=
  m.find? (·.messageID = id)

/-- `delete(m, id)` -/
def deletePacket (m : List ControlPacket) (id : UInt32) : List ControlPacket :=
  m.filter (·.messageID ≠ id)

theorem mem_putPacket (h : p ∈ putPacket m q) : p ∈ m ∨ p = q := by
  rcases List.mem_append.mp h with h | h
  · exact .inl (List.mem_of_mem_filter h)
  · exact .inr (List.mem_singleton.mp h)

theorem self_mem_putPacket (m : List ControlPacket) (q : ControlPacket) : q ∈ putPacket m q :=
  List.mem_append_right _ (List.mem_singleton_self q)

/-- The message ids of a map after a packet is put into it. -/
theorem exists_mem_putPacket :
    (∃ p ∈ putPacket m q, p.messageID = id) ↔ (∃ p ∈ m, p.messageID = id) ∨ q.messageID = id := by
  constructor
  · rintro ⟨p, hp, rfl⟩
    rcases mem_putPacket hp with hp | rfl
    · exact .inl ⟨p, hp, rfl⟩
    · exact .inr rfl
  · rintro (⟨p, hp, rfl⟩ | rfl)
    · by_cases hq : p.messageID = q.messageID
      · exact ⟨q, self_mem_putPacket m q, hq.symm⟩
      · exact ⟨p, List.mem_append_left _ (List.mem_filter.mpr ⟨hp, by simpa using hq⟩), rfl⟩
    · exact ⟨q, self_mem_putPacket m q, rfl⟩

theorem mem_deletePacket : p ∈ deletePacket m id ↔ p ∈ m ∧ p.messageID ≠ id := by
  simp [deletePacket]

theorem getPacket_eq_some (h : getPacket m id = some p) : p ∈ m ∧ p.messageID = id :=
  ⟨List.mem_of_find?_eq_some h, by simpa using List.find?_some h⟩

theorem exists_of_isSome_getPacket (h : (getPacket m id).isSome) : ∃ p ∈ m, p.messageID = id := by
  obtain ⟨p, hp⟩ := Option.isSome_iff_exists.mp h
  exact ⟨p, getPacket_eq_some hp⟩

namespace ControlChannel

def new (crypt : Bool) (localSession : SessionID) : ControlChannel :=
  { crypt, keyID := 0, localSession, remote := .zero, sendPacketID := 0, sendPacketTime := 0,
    sendMessage := 0, recvMessage := 0, ackPending := [], lruAcks := [], pending := [],
    recvPending := [], pendingSoftReset := none, recReplay := .empty }

def beginEpoch (c : ControlChannel) (keyID : UInt8) : ControlChannel :=
  { c with
    keyID := keyID &&& 7, sendMessage := 0, recvMessage := 0, ackPending := [], lruAcks := [],
    pending := [], recvPending := [] }

def takeAcks (c : ControlChannel) (max : Nat) : ControlChannel × List UInt32 :=
  let n := min c.ackPending.length max
  -- the source runs through the first `n` queued ids backwards
  let lruAcks := ((c.ackPending.take n).foldr (fun id acks => touchAck acks id) c.lruAcks).take
    reliableAckSize
  ({ c with lruAcks, ackPending := c.ackPending.drop n }, lruAcks.take max)

variable {c : ControlChannel} {d : Datagram}

theorem mem_foldr_touchAck {queued lruAcks : List UInt32} {a : UInt32}
    (h : a ∈ queued.foldr (fun id acks => touchAck acks id) lruAcks) :
    a ∈ queued ∨ a ∈ lruAcks := by
  induction queued with
  | nil => exact .inr h
  | cons id queued ih =>
    rcases mem_touchAck h with rfl | h
    · exact .inl (List.mem_cons_self ..)
    · exact (ih h).imp_left (List.mem_cons_of_mem _)

/-- The acknowledgements of a packet, and those left in the channel, were queued or repeated. -/
theorem mem_takeAcks {max : Nat} {a : UInt32}
    (h : a ∈ (c.takeAcks max).2 ∨ a ∈ (c.takeAcks max).1.ackPending ∨ a ∈ (c.takeAcks max).1.lruAcks) :
    a ∈ c.ackPending ∨ a ∈ c.lruAcks := by
  rcases h with h | h | h
  · exact (mem_foldr_touchAck (List.mem_of_mem_take (List.mem_of_mem_take h))).imp_left
      List.mem_of_mem_take
  · exact .inl (List.mem_of_mem_drop h)
  · exact (mem_foldr_touchAck (List.mem_of_mem_take h)).imp_left List.mem_of_mem_take

section Acks

open List

/-- `QueueAck`, without the wake-up. -/
def queueAck (c : ControlChannel) (messageID : UInt32) : ControlChannel :=
  { c with ackPending := appendAck c.ackPending messageID }

/-- What `QueueAck` and `takeAcksLocked` with the limits of packets make of a new epoch. -/
inductive AcksRun : ControlChannel → Prop
  | start {c : ControlChannel} (hpending : c.ackPending = []) (hlru : c.lruAcks = []) : AcksRun c
  | queue {c : ControlChannel} (h : AcksRun c) (messageID : UInt32) : AcksRun (c.queueAck messageID)
  | take {c : ControlChannel} (h : AcksRun c) {max : Nat} (hmin : 1 ≤ max) (hmax : max ≤ 8) :
    AcksRun (c.takeAcks max).1

structure AcksOk (c : ControlChannel) : Prop where
  pending : c.ackPending.Nodup
  lru : c.lruAcks.Nodup
  length : c.lruAcks.length ≤ reliableAckSize

/-- Ids that are touched from the last to the first stand in front in their order. -/
theorem foldr_touchAck {queued lruAcks acks : List UInt32} (hqueued : queued.Nodup)
    (hsize : queued.length ≤ reliableAckSize) (hlru : lruAcks.Nodup)
    (hlength : lruAcks.length ≤ reliableAckSize)
    (hacks : queued.foldr (fun id acks => touchAck acks id) lruAcks = acks) :
    queued <+: acks ∧ acks.Nodup ∧ acks.length ≤ reliableAckSize := by
  induction queued generalizing acks with
  | nil => exact hacks ▸ ⟨ nil_prefix, hlru, hlength⟩
  | cons id queued ih =>
    obtain ⟨hid, hqueued⟩ := nodup_cons.mp hqueued
    obtain ⟨⟨rest, hrest⟩, hnodup, hle⟩ := ih hqueued (Nat.le_of_succ_le hsize) rfl
    rw [foldr_cons, touchAck_eq, max_eq_right hle] at hacks
    subst hacks
    refine ⟨prefix_take_iff.mpr ⟨?_, hsize⟩, ?_, length_take_le ..⟩
    · rw [← hrest, erase_append_right _ hid]
      exact prefix_append ..
    · exact (nodup_cons.mpr ⟨hnodup.not_mem_erase, hnodup.erase id⟩).sublist (take_sublist ..)

/-- The ids that a call removes from the queue are the first of its result. -/
theorem AcksOk.takeAcks (h : AcksOk c) {max : Nat} (hmax : max ≤ 8) :
    (∃ removed, c.ackPending = removed ++ (c.takeAcks max).1.ackPending ∧ removed.length ≤ max ∧
      removed <+: (c.takeAcks max).2) ∧ AcksOk (c.takeAcks max).1 := by
  have hn : (c.ackPending.take (min c.ackPending.length max)).length ≤ max := by simp
  obtain ⟨hfirst, hnodup, -⟩ := foldr_touchAck (h.pending.sublist (take_sublist ..))
    (hn.trans hmax) h.lru h.length rfl
  refine ⟨⟨_, (take_append_drop ..).symm, hn, ?_⟩, h.pending.sublist (drop_sublist ..),
    hnodup.sublist (take_sublist ..), length_take_le ..⟩
  exact prefix_take_iff.mpr ⟨prefix_take_iff.mpr ⟨hfirst, hn.trans hmax⟩, hn⟩

theorem AcksRun.ok (h : AcksRun c) : AcksOk c := by
  induction h with
  | start hpending hlru => exact ⟨by simp [hpending], by simp [hlru], by simp [hlru]⟩
  | queue _ messageID ih =>
    refine { ih with pending := ?_ }
    rw [queueAck, appendAck]
    split
    · exact ih.pending
    · next hnew => exact concat_eq_append ▸ ih.pending.concat hnew
  | take _ hmin hmax ih => exact (ih.takeAcks hmax).2

/-- The most recently used ids are at most eight and all different; a call removes ids from the
queue in their order, at most as many as it may, and puts them first in its result. -/
theorem takeAcks_exact (h : AcksRun c) :
    c.lruAcks.Nodup ∧ c.lruAcks.length ≤ 8 ∧ (∀ id, id ∈ (c.queueAck id).ackPending) ∧
      ∀ max, 1 ≤ max → max ≤ 8 → ∃ removed,
        c.ackPending = removed ++ (c.takeAcks max).1.ackPending ∧ removed.length ≤ max ∧
          removed <+: (c.takeAcks max).2 :=
  ⟨h.ok.lru, h.ok.length, fun _ => mem_appendAck.mpr (.inr rfl), fun _ _ hmax =>
    (h.ok.takeAcks hmax).1⟩

/-- One of two ids is taken, and then the other, with the first behind it. -/
theorem takeAcks_exact_two :
    let c := ((((new true .zero).queueAck 5).queueAck 6).takeAcks 1).1
    (c.takeAcks 2).2 = [6, 5] ∧ ∃ removed, [6] = removed ++ (c.takeAcks 2).1.ackPending ∧
      removed.length ≤ 2 ∧ removed <+: (c.takeAcks 2).2 :=
  ⟨rfl, (takeAcks_exact (.take (.queue (.queue (.start (c := new true .zero) rfl rfl) 5) 6)
    (le_refl 1) (by decide))).2.2.2 2 (by decide) (by decide)⟩

end Acks

def dedicatedAckMax (c : ControlChannel) : Nat :=
  if c.crypt then reliableAckSize else controlSendAckMax

/-- The section of `Send`. The opcode must carry a message. -/
def send (c : ControlChannel) (opcode : Opcode) (payload : GoString) :
    Option (ControlChannel × ControlPacket) :=
  if opcode.hasMessageID then
    let messageID := c.sendMessage
    let (c, ackIDs) := takeAcks { c with sendMessage := c.sendMessage + 1 } controlSendAckMax
    let packet : ControlPacket :=
      { opcode, keyID := c.keyID, localSession := c.localSession, ackIDs,
        ackRemoteSession := c.remote, messageID, payload }
    some ({ c with pending := putPacket c.pending packet }, packet)
  else none

/-- The section of `SendAck`, if there is something to acknowledge. -/
def sendAck (c : ControlChannel) : Option (ControlChannel × ControlPacket) :=
  if c.ackPending = [] then none
  else
    let (c, ackIDs) := c.takeAcks c.dedicatedAckMax
    some (c, { opcode := .ackV1, keyID := c.keyID, localSession := c.localSession, ackIDs,
               ackRemoteSession := c.remote, messageID := 0, payload := [] })

/-- The section of `RetransmitPending`: the packets to be written, in any order. -/
def retransmitPending (c : ControlChannel) : ControlChannel × List ControlPacket :=
  if c.pending = [] then (c, [])
  else
    let (c, ackIDs) := c.takeAcks controlSendAckMax
    (c, c.pending.map fun packet => { packet with ackIDs, ackRemoteSession := c.remote })

/-- The section of `writeControlPacketGranted`, and the datagram that arrives if it is not
lost. `clock` is the Unix time. -/
def writeControlPacket (c : ControlChannel) (clock : UInt32) (packet : ControlPacket) :
    Option (ControlChannel × Datagram) :=
  if c.crypt && c.sendPacketID = 0xFFFFFFFF then none
  else
    let sendPacketTime := if c.crypt && c.sendPacketTime = 0 then clock else c.sendPacketTime
    let sendPacketID := c.sendPacketID + 1
    some ({ c with sendPacketID, sendPacketTime },
      if c.crypt then ⟨packet.onWire, sendPacketID, sendPacketTime⟩ else ⟨packet.onWire, 0, 0⟩)

/-! ### The sections of `read` -/

/-- `classifyWatchPacketLocked`: soft reset, valid. -/
def classifyWatchPacket (c : ControlChannel) (packet : ControlPacket) : Bool × Bool :=
  if c.remote = .zero ∨ packet.localSession ≠ c.remote then (false, false)
  else if packet.opcode = .controlSoftResetV1 then
    let next : Bool := packet.keyID = nextKeyID c.keyID ∧ packet.messageID = 0
    (next, next)
  else (false, packet.keyID = c.keyID)

/-- The first section: the next message may be buffered already. The second result is the
packet that `read` returns. -/
def takeBuffered (c : ControlChannel) (watchSoftReset : Bool) :
    ControlChannel × Option ControlPacket :=
  match getPacket c.recvPending c.recvMessage with
  | none => (c, none)
  | some packet =>
    let rest := { c with recvPending := deletePacket c.recvPending c.recvMessage }
    if watchSoftReset && !(c.classifyWatchPacket packet).2 then (rest, none)
    else if watchSoftReset && (c.classifyWatchPacket packet).1 then (rest, some packet)
    else ({ rest with recvMessage := c.recvMessage + 1 }, some packet)

/-- The checks before the second section. `local` never changes, so they need no mutex. -/
def addressed (c : ControlChannel) (packet : ControlPacket) : Bool :=
  packet.localSession ≠ .zero && (packet.ackIDs = [] || packet.ackRemoteSession = c.localSession)

/-- `checkReplayLocked`, or nothing without protection. -/
def checkReplay (c : ControlChannel) (now : Int) (d : Datagram) : ControlChannel × Bool :=
  if c.crypt then
    let (recReplay, ok) := c.recReplay.check now d.packetID d.unixTime
    ({ c with recReplay }, ok)
  else (c, true)

theorem checkReplay_eq (c : ControlChannel) (now : Int) (d : Datagram) :
    ∃ recReplay ok, c.checkReplay now d = ({ c with recReplay }, ok) := by
  unfold checkReplay
  split
  · exact ⟨_, _, rfl⟩
  · exact ⟨c.recReplay, true, rfl⟩

def initialReset (c : ControlChannel) (packet : ControlPacket) : Bool :=
  (packet.opcode = .controlHardResetServerV2 || packet.opcode = .controlHardResetServerV1) &&
    packet.keyID = c.keyID && packet.messageID = 0

/-- The second section: learn the session of the peer. If the packet goes on, the second
result tells whether its packet id has been checked. -/
def learnRemote (c : ControlChannel) (now : Int) (d : Datagram) : ControlChannel × Option Bool :=
  if c.remote = .zero then
    if c.initialReset d.packet then
      match c.checkReplay now d with
      | (c, false) => (c, none)
      | (c, true) => ({ c with remote := d.packet.localSession }, some c.crypt)
    else (c, none)
  else if d.packet.localSession = c.remote then (c, some false)
  else (c, none)

/-- A packet goes on only from the session that the channel then knows. -/
theorem learnRemote_cases (c : ControlChannel) (now : Int) (d : Datagram) :
    ∃ recReplay, c.learnRemote now d = ({ c with recReplay }, none) ∨
      ∃ checked, c.learnRemote now d =
        ({ c with recReplay, remote := d.packet.localSession }, some checked) := by
  unfold learnRemote
  split
  · split
    · obtain ⟨recReplay, _ | _, hr⟩ := c.checkReplay_eq now d <;> rw [hr]
      · exact ⟨recReplay, .inl rfl⟩
      · exact ⟨recReplay, .inr ⟨c.crypt, rfl⟩⟩
    · exact ⟨c.recReplay, .inl rfl⟩
  · split
    · exact ⟨c.recReplay, .inr ⟨false, by rw [‹d.packet.localSession = c.remote›]⟩⟩
    · exact ⟨c.recReplay, .inl rfl⟩

/-- What becomes of a packet in the third section. -/
inductive Verdict where
  | drop
  /-- `read` returns the packet, a soft reset. -/
  | softReset
  | accept
deriving DecidableEq

/-- Delete acknowledged messages. -/
def deleteAcked (c : ControlChannel) (acks : List UInt32) : ControlChannel :=
  { c with pending := acks.foldl deletePacket c.pending }

theorem mem_deleteAcked {acks : List UInt32} :
    p ∈ (c.deleteAcked acks).pending ↔ p ∈ c.pending ∧ p.messageID ∉ acks := by
  unfold deleteAcked
  dsimp only
  induction acks generalizing c with
  | nil => simp
  | cons a acks ih =>
    rw [List.foldl_cons, @ih { c with pending := deletePacket c.pending a }]
    simp only [mem_deletePacket, List.mem_cons, not_or]
    tauto

/-- The third section for a reader that does not wait for a soft reset: park one for the next
epoch, drop packets of another epoch, check the packet id. -/
def admitData (c : ControlChannel) (now : Int) (replayChecked : Bool) (d : Datagram) :
    ControlChannel × Verdict :=
  if d.packet.opcode = .controlSoftResetV1 then
    let sameSession : Bool := c.remote = .zero ∨ d.packet.localSession = c.remote
    if d.packet.keyID = nextKeyID c.keyID ∧ d.packet.messageID = 0 ∧ sameSession then
      match c.checkReplay now d with
      | (c, false) => (c, .drop)
      | (c, true) =>
        ({ c with pendingSoftReset := c.pendingSoftReset.or (some d.packet) }.deleteAcked
          d.packet.ackIDs, .drop)
    else (c, .drop)
  else if d.packet.keyID ≠ c.keyID then (c, .drop)
  else if replayChecked then (c, .accept)
  else
    match c.checkReplay now d with
    | (c, false) => (c, .drop)
    | (c, true) => (c, .accept)

/-- The third section for a reader that waits for a soft reset. -/
def admitWatch (c : ControlChannel) (now : Int) (d : Datagram) : ControlChannel × Verdict :=
  match c.classifyWatchPacket d.packet with
  | (_, false) => (c, .drop)
  | (softReset, true) =>
    match c.checkReplay now d with
    | (c, false) => (c, .drop)
    | (c, true) => (c, if softReset then .softReset else .accept)

def admitDatagram (c : ControlChannel) (now : Int) (watchSoftReset replayChecked : Bool)
    (d : Datagram) : ControlChannel × Verdict :=
  if watchSoftReset then c.admitWatch now d else c.admitData now replayChecked d

/-- A valid packet that does not belong to the next epoch belongs to this one. -/
theorem classifyWatchPacket_valid {packet : ControlPacket}
    (hkey : packet.keyID ≠ nextKeyID c.keyID) {softReset : Bool}
    (h : c.classifyWatchPacket packet = (softReset, true)) :
    softReset = false ∧ packet.opcode ≠ .controlSoftResetV1 ∧ packet.keyID = c.keyID := by
  unfold classifyWatchPacket at h
  split at h
  · cases h
  · split at h
    · simp [hkey] at h
    · rename_i hsoft
      simp only [Prod.mk.injEq, decide_eq_true_eq] at h
      exact ⟨h.1.symm, hsoft, h.2⟩

/-- What the third section does with a packet that does not belong to the next epoch: it drops
it, or the packet belongs to this epoch. Only the replay window changes. -/
def Admits (c : ControlChannel) (packet : ControlPacket) (result : ControlChannel × Verdict) :
    Prop :=
  ∃ recReplay, result = ({ c with recReplay }, .drop) ∨
    result = ({ c with recReplay }, .accept) ∧
      packet.opcode ≠ .controlSoftResetV1 ∧ packet.keyID = c.keyID

variable (c)

theorem admitWatch_admits (now : Int)
    (hkey : d.packet.keyID ≠ nextKeyID c.keyID) : c.Admits d.packet (c.admitWatch now d) := by
  unfold admitWatch
  rcases hc : c.classifyWatchPacket d.packet with ⟨softReset, _ | _⟩
  · exact ⟨c.recReplay, .inl rfl⟩
  · obtain ⟨rfl, hthis⟩ := classifyWatchPacket_valid hkey hc
    obtain ⟨recReplay, _ | _, hr⟩ := c.checkReplay_eq now d <;> rw [hr]
    · exact ⟨recReplay, .inl rfl⟩
    · exact ⟨recReplay, .inr ⟨rfl, hthis⟩⟩

theorem admitData_admits (now : Int) (replayChecked : Bool)
    (hkey : d.packet.keyID ≠ nextKeyID c.keyID) :
    c.Admits d.packet (c.admitData now replayChecked d) := by
  unfold admitData
  split
  · rw [if_neg fun h => hkey h.1]
    exact ⟨c.recReplay, .inl rfl⟩
  · rename_i hsoft
    split
    · exact ⟨c.recReplay, .inl rfl⟩
    · have hthis : d.packet.keyID = c.keyID := by simpa using ‹¬d.packet.keyID ≠ c.keyID›
      split
      · exact ⟨c.recReplay, .inr ⟨rfl, hsoft, hthis⟩⟩
      · obtain ⟨recReplay, _ | _, hr⟩ := c.checkReplay_eq now d <;> rw [hr]
        · exact ⟨recReplay, .inl rfl⟩
        · exact ⟨recReplay, .inr ⟨rfl, hsoft, hthis⟩⟩

theorem admitDatagram_admits (now : Int)
    (watchSoftReset replayChecked : Bool) (hkey : d.packet.keyID ≠ nextKeyID c.keyID) :
    c.Admits d.packet (c.admitDatagram now watchSoftReset replayChecked d) := by
  unfold admitDatagram
  split
  · exact c.admitWatch_admits now hkey
  · exact c.admitData_admits now replayChecked hkey

variable {c}

/-- The last section: the acknowledgements, and the packet against the receive window. The
second result is the packet that `read` returns. -/
def commit (c : ControlChannel) (packet : ControlPacket) : ControlChannel × Option ControlPacket :=
  let c := c.deleteAcked packet.ackIDs
  let acked := { c with ackPending := appendAck c.ackPending packet.messageID }
  if packet.opcode = .ackV1 then (c, none)
  else if !packet.opcode.hasMessageID then (c, some packet)
  else if reliableMessageBefore packet.messageID c.recvMessage then (acked, none)
  else if packet.messageID = c.recvMessage then
    ({ acked with recvMessage := c.recvMessage + 1 }, some packet)
  else if (getPacket c.recvPending packet.messageID).isSome then (acked, none)
  else if recvWindowOK c.recvMessage packet.messageID c.recvPending.length then
    ({ acked with recvPending := putPacket c.recvPending packet }, none)
  else (c, none)

end ControlChannel

end Hako.OpenVPN
