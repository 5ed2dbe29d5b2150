import Hako.Lib.Link
import Hako.OpenVPN.Control

/-!
# Reliable delivery over the control channel

Two control channels inside one key epoch, over a network that may lose, duplicate, delay and
reorder datagrams. An endpoint is a channel with what its goroutines hold outside the mutex:
packets composed and not yet written, datagrams between the sections of `read`. Every mutex
section is one step, so the steps interleave in every possible way and several readers may run
at once. A datagram stays on the wire once written and can be received any number of times.

Each direction refines a reliable link.
-/

namespace Hako.OpenVPN

open GoLib Lib List Option Function ControlChannel

/-- What `Send` is given and `read` returns. -/
abbrev Message := Opcode × GoString

def ControlPacket.message (p : ControlPacket) : Message := (p.opcode, p.payload)

/-- A datagram in `read` between the second and the third section. -/
structure Reading where
  datagram : Datagram
  watchSoftReset : Bool
  replayChecked : Bool
deriving DecidableEq

/-- A channel, what its goroutines hold, the datagrams it has written, and the messages given
to `Send` and returned by `read` in this epoch. -/
structure Endpoint where
  channel : ControlChannel
  /-- Packets composed and not yet written. -/
  outbox : List ControlPacket
  /-- Datagrams written. -/
  wire : List Datagram
  learned : List Reading
  /-- Packets in `read` before the last section. -/
  admitted : List ControlPacket
  sent : List Message
  delivered : List Message

/-- The mutex sections. -/
inductive Act where
  | send (opcode : Opcode) (payload : GoString)
  | sendAck
  | retransmitPending
  | write (packet : ControlPacket) (clock : UInt32)
  | takeBuffered (watchSoftReset : Bool)
  | receive (d : Datagram) (now : Int) (watchSoftReset : Bool)
  | admitDatagram (reading : Reading) (now : Int)
  | commit (packet : ControlPacket)

namespace Endpoint

/-- An endpoint at the start of an epoch. -/
def start (channel : ControlChannel) (keyID : UInt8) : Endpoint :=
  { channel := channel.beginEpoch keyID, outbox := [], wire := [], learned := [], admitted := [],
    sent := [], delivered := [] }

/-- A section of `read` has left the channel in a state and may return a packet. -/
def returns (e : Endpoint) (result : ControlChannel × Option ControlPacket) : Endpoint :=
  { e with
    channel := result.1
    delivered := e.delivered ++ (result.2.map ControlPacket.message).toList }

/-- One section. `peer` is what the other endpoint has written. -/
def step (e : Endpoint) (peer : List Datagram) : Act → Option Endpoint
  | .send opcode payload =>
    (e.channel.send opcode payload).map fun (channel, packet) =>
      { e with channel, outbox := e.outbox ++ [packet], sent := e.sent ++ [(opcode, payload)] }
  | .sendAck =>
    e.channel.sendAck.map fun (channel, packet) =>
      { e with channel, outbox := e.outbox ++ [packet] }
  | .retransmitPending =>
    let (channel, packets) := e.channel.retransmitPending
    some { e with channel, outbox := e.outbox ++ packets }
  | .write packet clock =>
    if packet ∈ e.outbox then
      (e.channel.writeControlPacket clock packet).map fun (channel, d) =>
        { e with channel, outbox := e.outbox.erase packet, wire := e.wire ++ [d] }
    else none
  | .takeBuffered watchSoftReset => some (e.returns (e.channel.takeBuffered watchSoftReset))
  | .receive d now watchSoftReset =>
    if d ∈ peer ∧ e.channel.addressed d.packet then
      match e.channel.learnRemote now d with
      | (channel, none) => some { e with channel }
      | (channel, some checked) =>
        some { e with channel, learned := e.learned ++ [⟨d, watchSoftReset, checked⟩] }
    else none
  | .admitDatagram reading now =>
    if reading ∈ e.learned then
      let rest := { e with learned := e.learned.erase reading }
      match e.channel.admitDatagram now reading.watchSoftReset reading.replayChecked
          reading.datagram with
      | (channel, .drop) => some { rest with channel }
      | (channel, .softReset) => some (rest.returns (channel, some reading.datagram.packet))
      | (channel, .accept) =>
        some { rest with channel, admitted := e.admitted ++ [reading.datagram.packet] }
    else none
  | .commit packet =>
    if packet ∈ e.admitted then
      some ({ e with admitted := e.admitted.erase packet }.returns (e.channel.commit packet))
    else none

end Endpoint

/-- The two endpoints. -/
abbrev System := Bool → Endpoint

namespace System

/-- One section of one endpoint. -/
abbrev Step : System → System → Prop := Duplex.Step Endpoint.step Endpoint.wire

/-- Both endpoints have begun the epoch `keyID`; each knows the other's session or none. -/
structure Starts (keyID : UInt8) (s : System) : Prop where
  start : ∀ side, ∃ channel, s side = .start channel keyID
  remote : ∀ side, (s side).channel.remote = .zero ∨
    (s side).channel.remote = (s !side).channel.localSession

/-- A run given by the sides and sections of its steps. -/
abbrev run : System → List (Bool × Act) → Option System := Duplex.run Endpoint.step Endpoint.wire

end System

/-! ### The link of one direction -/

/-- The messages from `S` to `R`. -/
def link (S R : Endpoint) : Link Message where
  sent := S.sent
  delivered := R.delivered
  held := {i | i < 2 ^ 31 ∧ ∃ p ∈ R.channel.recvPending, p.messageID = UInt32.ofNat i}

/-- A control packet; if it carries a message, then the one of its number. -/
structure Genuine (L : Link Message) (p : ControlPacket) : Prop where
  control : p.opcode.isControl
  numbered : p.opcode.hasMessageID → L.Numbered p.messageID p.message

/-- The packets between two endpoints, from their composition to the last section of `read`. -/
def InFlight (S R : Endpoint) (p : ControlPacket) : Prop :=
  p ∈ S.outbox ∨ (∃ d ∈ S.wire, d.packet = p) ∨ (∃ r ∈ R.learned, r.datagram.packet = p) ∨
    p ∈ R.admitted

/-- `R` has learnt the session of `S`. -/
def Knows (R S : Endpoint) : Prop :=
  R.channel.remote = S.channel.localSession ∧ S.channel.localSession ≠ .zero

/-- What holds for the messages from `S` to `R`, where `L` is their link and `M` the link of the
other direction. -/
structure Flow (L M : Link Message) (keyID : UInt8) (S R : Endpoint) : Prop where
  safe : L.Safe
  bound : L.sent.length < 2 ^ 31
  sendMessage : S.channel.sendMessage = UInt32.ofNat S.sent.length
  recvMessage : R.channel.recvMessage = UInt32.ofNat R.delivered.length
  key : S.channel.keyID = keyID
  remote : R.channel.remote = .zero ∨ R.channel.remote = S.channel.localSession
  /-- Pending packets can be sent again. -/
  pending : ∀ p ∈ S.channel.pending, Genuine L p ∧ p.keyID = keyID ∧
    p.localSession = S.channel.localSession
  /-- A message stays pending until it has arrived. -/
  kept : ∀ i < S.sent.length, (∃ p ∈ S.channel.pending, p.messageID = UInt32.ofNat i) ∨ L.Accepted i
  /-- Packets carry what was sent and acknowledge what has arrived. -/
  flight : ∀ p, InFlight S R p → Genuine L p ∧ p.keyID = keyID ∧
    p.localSession = S.channel.localSession ∧ ∀ a ∈ p.ackIDs, M.Acked a
  learned : R.learned ≠ [] → Knows R S
  admitted : ∀ p ∈ R.admitted, p.opcode ≠ .controlSoftResetV1 ∧ Knows R S
  /-- Buffered packets are never refused later. -/
  buffered : ∀ p ∈ R.channel.recvPending, Genuine L p ∧ p.opcode.hasMessageID ∧
    p.opcode ≠ .controlSoftResetV1 ∧ p.keyID = keyID ∧ p.localSession = S.channel.localSession ∧
    Knows R S
  acks : ∀ a, a ∈ R.channel.ackPending ∨ a ∈ R.channel.lruAcks → L.Acked a

/-! ### Moving the links -/

section

variable {L L' M M' : Link Message} {keyID : UInt8} {S R : Endpoint}

variable {p : ControlPacket}

theorem Genuine.mono (h : Genuine L p) (hL : L.Extends L') : Genuine L' p :=
  ⟨h.control, fun hid => (h.numbered hid).mono hL⟩

theorem Genuine.onWire (h : Genuine L p) : Genuine L p.onWire := by
  refine ⟨h.control, fun hid => ?_⟩
  obtain ⟨i, hi, hc⟩ := h.numbered hid
  have hid : p.opcode.hasMessageID := hid
  exact ⟨i, by simp [ControlPacket.onWire, hid, hi], by
    simpa [ControlPacket.message, ControlPacket.onWire, hid] using hc⟩

theorem Flow.mono (h : Flow L M keyID S R) (hL : L.Extends L') (hM : M.Extends M')
    (hbound : L'.sent.length < 2 ^ 31) : Flow L' M' keyID S R :=
  { h with
    safe := hL.safe h.safe
    bound := hbound
    pending := fun p hp => (h.pending p hp).imp_left (·.mono hL)
    kept := fun i hi => (h.kept i hi).imp_right hL.accepted
    flight := fun p hp =>
      let ⟨hg, hk, hs, ha⟩ := h.flight p hp
      ⟨hg.mono hL, hk, hs, fun a hin => (ha a hin).mono hM⟩
    buffered := fun p hp => (h.buffered p hp).imp_left (·.mono hL)
    acks := fun a ha => (h.acks a ha).mono hL }

end

/-- Both directions between `e` and `f`, which have come from the links `L` and `M`. -/
structure Pair (L M : Link Message) (keyID : UInt8) (e f : Endpoint) : Prop where
  out : Flow (link e f) (link f e) keyID e f
  back : Flow (link f e) (link e f) keyID f e
  out_extends : L.Extends (link e f)
  back_extends : M.Extends (link f e)

namespace Pair

variable {L M : Link Message} {keyID : UInt8} {e f : Endpoint}

/-! ### The sections that emit packets -/

variable {channel : ControlChannel} {packet : ControlPacket}

variable {a : UInt32} {packets : List ControlPacket} {d : Datagram}

/-- Acknowledgements are taken: packets may carry them, and the channel keeps no others. -/
theorem acked_of_takeAcks (h : Pair L M keyID e f) {max : Nat}
    (ha : a ∈ (e.channel.takeAcks max).2 ∨ a ∈ (e.channel.takeAcks max).1.ackPending ∨
      a ∈ (e.channel.takeAcks max).1.lruAcks) : (link f e).Acked a :=
  h.back.acks a (mem_takeAcks ha)

theorem inFlight_outbox {sent : List Message} {p : ControlPacket}
    (hp : InFlight { e with channel, outbox := e.outbox ++ packets, sent } f p) :
    InFlight e f p ∨ p ∈ packets := by
  rcases hp with hp | hp
  · exact (mem_append.mp hp).imp_left .inl
  · exact .inl (.inr hp)

variable (h : Pair L M keyID e f)
include h

theorem send {opcode : Opcode} {payload : GoString}
    (hs : e.channel.send opcode payload = some (channel, packet))
    (hb : e.sent.length + 1 < 2 ^ 31) :
    Pair L M keyID
      { e with channel, outbox := e.outbox ++ [packet], sent := e.sent ++ [(opcode, payload)] }
      f := by
  unfold ControlChannel.send at hs
  split at hs
  case isFalse => cases hs
  rename_i hid
  simp only [some.injEq, Prod.mk.injEq] at hs
  obtain ⟨rfl, hpacket⟩ := hs
  have hext : (link e f).Extends { link e f with sent := e.sent ++ [(opcode, payload)] } :=
    .single (.send (link e f) (opcode, payload))
  have hout := h.out.mono hext .refl (by simpa [link] using hb)
  have hback := h.back.mono .refl hext h.back.bound
  have hacks : ∀ a ∈ packet.ackIDs, (link f e).Acked a := fun a ha =>
    h.acked_of_takeAcks (.inl (by rw [← hpacket] at ha; exact ha))
  have hgen : Genuine { link e f with sent := e.sent ++ [(opcode, payload)] } packet ∧
      packet.keyID = keyID ∧ packet.localSession = e.channel.localSession := by
    rw [← hpacket]
    refine ⟨⟨?_, fun _ => ⟨e.sent.length, h.out.sendMessage, ?_⟩⟩, h.out.key, rfl⟩
    · exact (Bool.and_eq_true_iff.mp hid).1
    · simp [Link.Carries, ControlPacket.message]
  refine ⟨?_, ?_, h.out_extends.trans hext, h.back_extends⟩
  · refine { hout with
      sendMessage := ?_, pending := fun p hp => ?_, kept := fun i hi => ?_, flight := fun p hp => ?_ }
    · change e.channel.sendMessage + 1 = UInt32.ofNat (e.sent ++ [(opcode, payload)]).length
      rw [length_append, length_singleton, ofNat_succ, h.out.sendMessage]
    · rw [hpacket] at hp
      rcases mem_putPacket hp with hp | rfl
      · exact hout.pending p hp
      · exact hgen
    · rw [hpacket, exists_mem_putPacket]
      rcases Nat.lt_or_ge i e.sent.length with hlt | hge
      · exact (hout.kept i hlt).imp_left .inl
      · -- the new message is the last one
        have hi : i = e.sent.length := by simp at hi; omega
        exact .inl (.inr (by rw [← hpacket, hi]; exact h.out.sendMessage))
    · rw [hpacket] at hp
      rcases inFlight_outbox hp with hp | hp
      · exact hout.flight p hp
      · obtain rfl := mem_singleton.mp hp
        exact ⟨hgen.1, hgen.2.1, hgen.2.2, hacks⟩
  · exact { hback with acks := fun a ha => h.acked_of_takeAcks (.inr ha) }

/-- Packets are composed with acknowledgements of this channel; nothing is sent for the first
time. -/
theorem compose (max : Nat) (hpackets : ∀ p ∈ packets, Genuine (link e f) p ∧ p.keyID = keyID ∧
      p.localSession = e.channel.localSession ∧ p.ackIDs = (e.channel.takeAcks max).2) :
    Pair L M keyID { e with channel := (e.channel.takeAcks max).1, outbox := e.outbox ++ packets }
      f := by
  refine ⟨?_, ?_, h.out_extends, h.back_extends⟩
  · refine { h.out with flight := fun p hp => ?_ }
    rcases inFlight_outbox hp with hp | hp
    · exact h.out.flight p hp
    · obtain ⟨hg, hk, hs, ha⟩ := hpackets p hp
      exact ⟨hg, hk, hs, fun a hin => h.acked_of_takeAcks (.inl (ha ▸ hin))⟩
  · exact { h.back with acks := fun a ha => h.acked_of_takeAcks (.inr ha) }

theorem sendAck (hs : e.channel.sendAck = some (channel, packet)) :
    Pair L M keyID { e with channel, outbox := e.outbox ++ [packet] } f := by
  unfold ControlChannel.sendAck at hs
  split at hs
  · cases hs
  · simp only [some.injEq, Prod.mk.injEq] at hs
    obtain ⟨rfl, rfl⟩ := hs
    refine h.compose e.channel.dedicatedAckMax fun p hp => ?_
    obtain rfl := mem_singleton.mp hp
    exact ⟨⟨rfl, fun hid => (by cases hid)⟩, h.out.key, rfl, rfl⟩

theorem retransmitPending :
    Pair L M keyID
      { e with
        channel := e.channel.retransmitPending.1
        outbox := e.outbox ++ e.channel.retransmitPending.2 } f := by
  unfold ControlChannel.retransmitPending
  split
  · simpa using h
  · refine h.compose controlSendAckMax fun p hp => ?_
    obtain ⟨q, hq, rfl⟩ := mem_map.mp hp
    obtain ⟨hg, hk, hs⟩ := h.out.pending q hq
    exact ⟨⟨hg.control, hg.numbered⟩, hk, hs, rfl⟩

theorem write (hkey : keyID &&& 7 = keyID) {clock : UInt32} (hp : packet ∈ e.outbox)
    (hw : e.channel.writeControlPacket clock packet = some (channel, d)) :
    Pair L M keyID { e with channel, outbox := e.outbox.erase packet, wire := e.wire ++ [d] } f := by
  unfold writeControlPacket at hw
  split at hw
  · cases hw
  simp only [some.injEq, Prod.mk.injEq] at hw
  obtain ⟨rfl, hd⟩ := hw
  have hpacket : d.packet = packet.onWire := by
    rw [← hd]
    split <;> rfl
  obtain ⟨hg, hk, hs, ha⟩ := h.out.flight packet (.inl hp)
  refine ⟨?_, ?_, h.out_extends, h.back_extends⟩
  · refine { h.out with flight := fun p hin => ?_ }
    rcases hin with hin | ⟨d', hin, rfl⟩ | hin
    · exact h.out.flight p (.inl (mem_of_mem_erase hin))
    · rcases mem_append.mp hin with hin | hin
      · exact h.out.flight _ (.inr (.inl ⟨d', hin, rfl⟩))
      · obtain rfl := mem_singleton.mp hin
        rw [hpacket]
        exact ⟨hg.onWire, by rw [← hkey, ← hk]; rfl, hs, ha⟩
    · exact h.out.flight p (.inr (.inr hin))
  · exact { h.back with }

/-! ### The sections of `read` -/

theorem receive (hd : d ∈ f.wire) (haddr : e.channel.addressed d.packet) (recReplay : ReplayState)
    (watchSoftReset checked : Bool) :
    Pair L M keyID { e with
        channel := { e.channel with recReplay, remote := d.packet.localSession }
        learned := e.learned ++ [⟨d, watchSoftReset, checked⟩] } f := by
  have hfl := h.back.flight d.packet (.inr (.inl ⟨d, hd, rfl⟩))
  have hs : d.packet.localSession = f.channel.localSession := hfl.2.2.1
  have hzero : f.channel.localSession ≠ .zero := by
    simp only [addressed, Bool.and_eq_true, decide_eq_true_eq] at haddr
    exact hs ▸ haddr.1
  refine ⟨?_, ?_, h.out_extends, h.back_extends⟩
  · exact { h.out with }
  · refine { h.back with
      remote := .inr hs, learned := fun _ => ⟨hs, hzero⟩, flight := fun p hp => ?_
      admitted := fun p hp => ⟨(h.back.admitted p hp).1, hs, hzero⟩
      buffered := fun p hp => ?_ }
    · rcases hp with hp | hp | ⟨r, hr, rfl⟩ | hp
      · exact h.back.flight p (.inl hp)
      · exact h.back.flight p (.inr (.inl hp))
      · rcases mem_append.mp hr with hr | hr
        · exact h.back.flight _ (.inr (.inr (.inl ⟨r, hr, rfl⟩)))
        · obtain rfl := mem_singleton.mp hr
          exact hfl
      · exact h.back.flight p (.inr (.inr (.inr hp)))
    · obtain ⟨h1, h2, h3, h4, h5, -⟩ := h.back.buffered p hp
      exact ⟨h1, h2, h3, h4, h5, hs, hzero⟩

/-- The replay window changes and readings are forgotten. -/
theorem forget (recReplay : ReplayState) {learned : List Reading} (hsub : learned ⊆ e.learned) :
    Pair L M keyID { e with channel := { e.channel with recReplay }, learned } f := by
  refine ⟨?_, ?_, h.out_extends, h.back_extends⟩
  · exact { h.out with }
  · refine { h.back with flight := fun p hp => ?_, learned := fun hne => ?_ }
    · rcases hp with hp | hp | ⟨r, hr, rfl⟩ | hp
      · exact h.back.flight p (.inl hp)
      · exact h.back.flight p (.inr (.inl hp))
      · exact h.back.flight _ (.inr (.inr (.inl ⟨r, hsub hr, rfl⟩)))
      · exact h.back.flight p (.inr (.inr (.inr hp)))
    · refine h.back.learned fun hnil => hne ?_
      rw [hnil] at hsub
      exact subset_nil.mp hsub

theorem admitDatagram {reading : Reading} (hr : reading ∈ e.learned)
    (hsoft : reading.datagram.packet.opcode ≠ .controlSoftResetV1) :
    Pair L M keyID { e with admitted := e.admitted ++ [reading.datagram.packet] } f := by
  have hremote := h.back.learned (ne_nil_of_mem hr)
  refine ⟨?_, ?_, h.out_extends, h.back_extends⟩
  · exact { h.out with }
  · refine { h.back with
      admitted := forall_mem_append.mpr ⟨h.back.admitted, forall_mem_singleton.mpr ⟨hsoft, hremote⟩⟩
      flight := fun p hp => ?_ }
    · rcases hp with hp | hp | hp | hp
      · exact h.back.flight p (.inl hp)
      · exact h.back.flight p (.inr (.inl hp))
      · exact h.back.flight p (.inr (.inr (.inl hp)))
      · rcases mem_append.mp hp with hp | hp
        · exact h.back.flight p (.inr (.inr (.inr hp)))
        · obtain rfl := mem_singleton.mp hp
          exact h.back.flight _ (.inr (.inr (.inl ⟨reading, hr, rfl⟩)))

/-- Acknowledged messages leave `pending`; the peer has them. -/
theorem deleteAcked (hp : packet ∈ e.admitted) :
    Pair L M keyID { e with channel := e.channel.deleteAcked packet.ackIDs } f := by
  obtain ⟨-, -, -, hacks⟩ := h.back.flight packet (.inr (.inr (.inr hp)))
  refine ⟨?_, ?_, h.out_extends, h.back_extends⟩
  · refine { h.out with pending := fun p hp => ?_, kept := fun i hi => ?_ }
    · exact h.out.pending p (mem_deleteAcked.mp hp).1
    · rcases h.out.kept i hi with ⟨p, hin, hid⟩ | hacc
      · by_cases ha : p.messageID ∈ packet.ackIDs
        · have hi : i < 2 ^ 31 := lt_trans hi h.out.bound
          exact .inr ((hid ▸ hacks _ ha).accepted h.out.safe h.out.bound hi)
        · exact .inl ⟨p, mem_deleteAcked.mpr ⟨hin, ha⟩, hid⟩
      · exact .inr hacc
  · exact { h.back with }

theorem appendAck (ha : (link f e).Acked a) :
    Pair L M keyID { e with
        channel := { e.channel with
          ackPending := OpenVPN.appendAck e.channel.ackPending a } } f := by
  refine ⟨?_, ?_, h.out_extends, h.back_extends⟩
  · exact { h.out with }
  · refine { h.back with acks := fun b hb => ?_ }
    rcases hb with hb | hb
    · rcases mem_appendAck.mp hb with hb | rfl
      · exact h.back.acks b (.inl hb)
      · exact ha
    · exact h.back.acks b (.inr hb)

theorem delivered_lt : e.delivered.length < 2 ^ 31 :=
  lt_of_le_of_lt h.back.safe.delivered_prefix.length_le h.back.bound

/-- The next message is delivered. Its packet may have been buffered. -/
theorem deliver (hg : Genuine (link f e) packet)
    (hid : packet.opcode.hasMessageID) (hnext : packet.messageID = e.channel.recvMessage)
    {recvPending : List ControlPacket} (hsub : recvPending ⊆ e.channel.recvPending)
    (hrest : ∀ p ∈ e.channel.recvPending, p ∈ recvPending ∨ p.messageID = e.channel.recvMessage) :
    Pair L M keyID
      { e with
        channel := { e.channel with recvPending, recvMessage := e.channel.recvMessage + 1 }
        delivered := e.delivered ++ [packet.message] } f := by
  have hcarries : (link f e).Carries e.delivered.length packet.message := by
    have hn := hg.numbered hid
    rw [hnext, h.back.recvMessage] at hn
    exact hn.carries h.back.bound h.delivered_lt
  have hext : (link f e).Extends
      { link f e with
        delivered := e.delivered ++ [packet.message]
        held := {i | i < 2 ^ 31 ∧ ∃ p ∈ recvPending, p.messageID = UInt32.ofNat i} } := by
    refine .single (.deliver (link f e) packet.message _ hcarries ?_ ?_)
    · rintro i ⟨hi, p, hp, hpi⟩
      exact ⟨hi, p, hsub hp, hpi⟩
    · rintro i ⟨hi, p, hp, hpi⟩
      rcases hrest p hp with hp | hp
      · exact .inl ⟨hi, p, hp, hpi⟩
      · rw [hp, h.back.recvMessage] at hpi
        exact .inr (ofNat_inj_of_lt h.delivered_lt hi hpi).symm
  refine ⟨?_, ?_, h.out_extends, h.back_extends.trans hext⟩
  · exact { h.out.mono .refl hext h.out.bound with }
  · refine { h.back.mono hext .refl h.back.bound with
      recvMessage := ?_, buffered := fun p hp => ?_ }
    · change e.channel.recvMessage + 1 = UInt32.ofNat (e.delivered ++ [packet.message]).length
      rw [length_append, length_singleton, ofNat_succ, h.back.recvMessage]
    · exact (h.back.buffered p (hsub hp)).imp_left (·.mono hext)

/-- A packet is buffered. -/
theorem buffer (hp : packet ∈ e.admitted) (hid : packet.opcode.hasMessageID) :
    Pair L M keyID
      { e with
        channel := { e.channel with
          recvPending := putPacket e.channel.recvPending packet } } f := by
  obtain ⟨hg, hk, hs, -⟩ := h.back.flight packet (.inr (.inr (.inr hp)))
  obtain ⟨hsoft, hremote⟩ := h.back.admitted packet hp
  obtain ⟨i, hi, hc⟩ := hg.numbered hid
  have hlt : i < 2 ^ 31 := lt_trans hc.lt h.back.bound
  have hheld : (insert i (link f e).held : Set Nat) =
      {j | j < 2 ^ 31 ∧ ∃ p ∈ putPacket e.channel.recvPending packet,
        p.messageID = UInt32.ofNat j} := by
    ext j
    simp only [exists_mem_putPacket, Set.mem_insert_iff, Set.mem_ofPred_eq, link, hi]
    constructor
    · rintro (rfl | ⟨hj, hin⟩)
      · exact ⟨hlt, .inr rfl⟩
      · exact ⟨hj, .inl hin⟩
    · rintro ⟨hj, hin | hij⟩
      · exact .inr ⟨hj, hin⟩
      · exact .inl (ofNat_inj_of_lt hlt hj hij).symm
  have hext : (link f e).Extends
      { link f e with held := {j | j < 2 ^ 31 ∧
          ∃ p ∈ putPacket e.channel.recvPending packet, p.messageID = UInt32.ofNat j} } := by
    rw [← hheld]
    exact .single (.hold (link f e) i hc.lt)
  refine ⟨?_, ?_, h.out_extends, h.back_extends.trans hext⟩
  · exact { h.out.mono .refl hext h.out.bound with }
  · refine { h.back.mono hext .refl h.back.bound with buffered := fun p hin => ?_ }
    rcases mem_putPacket hin with hin | rfl
    · exact (h.back.buffered p hin).imp_left (·.mono hext)
    · exact ⟨hg.mono hext, hid, hsoft, hk, hs, hremote⟩

theorem forgetAdmitted {admitted : List ControlPacket}
    (hsub : admitted ⊆ e.admitted) : Pair L M keyID { e with admitted } f := by
  refine ⟨?_, ?_, h.out_extends, h.back_extends⟩
  · exact { h.out with }
  · refine { h.back with
      flight := fun p hp => h.back.flight p ?_
      admitted := fun p hp => h.back.admitted p (hsub hp) }
    rcases hp with hp | hp | hp | hp
    · exact .inl hp
    · exact .inr (.inl hp)
    · exact .inr (.inr (.inl hp))
    · exact .inr (.inr (.inr (hsub hp)))

theorem takeBuffered (watchSoftReset : Bool) :
    Pair L M keyID (e.returns (e.channel.takeBuffered watchSoftReset)) f := by
  unfold ControlChannel.takeBuffered
  cases hget : getPacket e.channel.recvPending e.channel.recvMessage with
  | none => simpa [Endpoint.returns] using h
  | some packet =>
    obtain ⟨hin, hnext⟩ := getPacket_eq_some hget
    obtain ⟨hg, hid, hsoft, hk, hs, hremote⟩ := h.back.buffered packet hin
    have hclass : e.channel.classifyWatchPacket packet = (false, true) := by
      simp [ControlChannel.classifyWatchPacket, hremote.1, hremote.2, hs, hsoft, hk, h.out.key]
    simp only [hclass, Bool.not_true, Bool.and_false, Bool.false_eq_true, if_false]
    refine h.deliver hg hid hnext (fun p hp => (mem_deletePacket.mp hp).1) fun p hp => ?_
    by_cases hp' : p.messageID = e.channel.recvMessage
    · exact .inr hp'
    · exact .inl (mem_deletePacket.mpr ⟨hp, hp'⟩)

/-- What the receive window does with the message of a packet. -/
theorem commit (hp : packet ∈ e.admitted) :
    Pair L M keyID ({ e with admitted := e.admitted.erase packet }.returns
      (e.channel.commit packet)) f := by
  have hdel := h.deleteAcked hp
  obtain ⟨hg, -, -, -⟩ := hdel.back.flight packet (.inr (.inr (.inr hp)))
  have hsub : e.admitted.erase packet ⊆ e.admitted := erase_subset
  unfold ControlChannel.commit
  split
  · simpa [Endpoint.returns] using hdel.forgetAdmitted hsub
  rename_i hack
  have hid : packet.opcode.hasMessageID := by
    simp [Opcode.hasMessageID, hg.control, hack]
  obtain ⟨i, hi, hc⟩ := hg.numbered hid
  have hlt : i < 2 ^ 31 := lt_trans hc.lt h.back.bound
  rw [if_neg (by simp [hid])]
  split
  · -- delivered before
    rename_i hbefore
    have hbefore : i < e.delivered.length := by
      rw [hi, reliableMessageBefore, decide_eq_true_eq] at hbefore
      rwa [← half_le_ofNat_sub_iff hlt h.delivered_lt, ← h.back.recvMessage]
    simpa [Endpoint.returns] using (hdel.appendAck ⟨i, hi, .inl hbefore⟩).forgetAdmitted hsub
  split
  · -- the next message
    rename_i hnext
    have hdeliver := hdel.deliver hg hid hnext (List.Subset.refl _) fun p hp => .inl hp
    have hacked : (link f { e with delivered := e.delivered ++ [packet.message] }).Acked
        packet.messageID := by
      refine ⟨e.delivered.length, hnext.trans h.back.recvMessage, .inl ?_⟩
      simp [link]
    exact (hdeliver.appendAck hacked).forgetAdmitted hsub
  split
  · -- buffered before
    rename_i hsome
    obtain ⟨p, hp, hpid⟩ := exists_of_isSome_getPacket hsome
    have hacked : (link f e).Acked packet.messageID := ⟨i, hi, .inr ⟨hlt, p, hp, hpid.trans hi⟩⟩
    simpa [Endpoint.returns] using (hdel.appendAck hacked).forgetAdmitted hsub
  split
  · -- room in the window
    have hbuffer := hdel.buffer hp hid
    have hacked : (link f { e with channel := { e.channel with
        recvPending := putPacket e.channel.recvPending packet } }).Acked packet.messageID :=
      ⟨i, hi, .inr ⟨hlt, packet, self_mem_putPacket _ _, hi⟩⟩
    simpa [Endpoint.returns] using (hbuffer.appendAck hacked).forgetAdmitted hsub
  · simpa [Endpoint.returns] using hdel.forgetAdmitted hsub

/-! ### Steps and runs -/

theorem step (hkey : keyID &&& 7 = keyID) {act : Act} {e' : Endpoint}
    (hs : e.step f.wire act = some e') (hb : e'.sent.length < 2 ^ 31) : Pair L M keyID e' f := by
  cases act with
  | send opcode payload =>
    obtain ⟨⟨channel, packet⟩, hsend, rfl⟩ := map_eq_some_iff.mp hs
    exact h.send hsend (by simpa using hb)
  | sendAck =>
    obtain ⟨⟨channel, packet⟩, hsend, rfl⟩ := map_eq_some_iff.mp hs
    exact h.sendAck hsend
  | retransmitPending =>
    obtain rfl := some.inj hs
    exact h.retransmitPending
  | write packet clock =>
    simp only [Endpoint.step, ite_none_right_eq_some] at hs
    obtain ⟨hp, hs⟩ := hs
    obtain ⟨⟨channel, d⟩, hw, rfl⟩ := map_eq_some_iff.mp hs
    exact h.write hkey hp hw
  | takeBuffered watchSoftReset =>
    obtain rfl := some.inj hs
    exact h.takeBuffered watchSoftReset
  | receive d now watchSoftReset =>
    simp only [Endpoint.step, ite_none_right_eq_some] at hs
    obtain ⟨⟨hd, haddr⟩, hs⟩ := hs
    obtain ⟨recReplay, hlearn | ⟨checked, hlearn⟩⟩ := e.channel.learnRemote_cases now d <;>
      rw [hlearn] at hs <;> obtain rfl := some.inj hs
    · exact h.forget recReplay (List.Subset.refl _)
    · exact h.receive hd haddr recReplay watchSoftReset checked
  | admitDatagram reading now =>
    simp only [Endpoint.step, ite_none_right_eq_some] at hs
    obtain ⟨hr, hs⟩ := hs
    -- a packet of this epoch is not one of the next
    have hk : reading.datagram.packet.keyID ≠ nextKeyID e.channel.keyID := by
      obtain ⟨-, hk, -⟩ := h.back.flight _ (.inr (.inr (.inl ⟨reading, hr, rfl⟩)))
      rw [hk, h.out.key]
      exact (nextKeyID_ne keyID).symm
    obtain ⟨recReplay, hadm | ⟨hadm, hsoft, -⟩⟩ :=
      e.channel.admitDatagram_admits now reading.watchSoftReset reading.replayChecked hk <;>
      rw [hadm] at hs <;> obtain rfl := some.inj hs
    · exact h.forget recReplay erase_subset
    · exact (h.admitDatagram hr hsoft).forget recReplay erase_subset
  | commit packet =>
    simp only [Endpoint.step, ite_none_right_eq_some] at hs
    obtain ⟨hp, hs⟩ := hs
    obtain rfl := some.inj hs
    exact h.commit hp

theorem symm : Pair M L keyID f e := ⟨h.back, h.out, h.back_extends, h.out_extends⟩

end Pair

/-- No section takes back a message. -/
theorem Endpoint.sent_prefix_of_step {e e' : Endpoint} {peer : List Datagram} {act : Act}
    (hs : e.step peer act = some e') : e.sent <+: e'.sent := by
  have hkeep : ∀ {e'' : Endpoint}, some e'' = some e' → e''.sent = e.sent → e.sent <+: e'.sent :=
    fun h hsent => by rw [← hsent, some.inj h]
  cases act with
  | send opcode payload =>
    obtain ⟨_, -, rfl⟩ := map_eq_some_iff.mp hs
    exact prefix_append ..
  | sendAck =>
    obtain ⟨_, -, rfl⟩ := map_eq_some_iff.mp hs
    exact prefix_rfl
  | retransmitPending => exact hkeep hs rfl
  | write packet clock =>
    simp only [step, ite_none_right_eq_some] at hs
    obtain ⟨_, -, rfl⟩ := map_eq_some_iff.mp hs.2
    exact prefix_rfl
  | takeBuffered => exact hkeep hs rfl
  | receive d now | admitDatagram r now =>
    simp only [step, ite_none_right_eq_some] at hs
    replace hs := hs.2
    split at hs <;> exact hkeep hs rfl
  | commit =>
    simp only [step, ite_none_right_eq_some] at hs
    exact hkeep hs.2 rfl

namespace System

variable {keyID : UInt8} {s t : System}

/-- The invariant of the system. -/
def Inv (keyID : UInt8) (s : System) : Prop :=
  ∀ side, Pair (link (s side) (s !side)) (link (s !side) (s side)) (keyID &&& 7) (s side) (s !side)

theorem inv_of_starts (h : Starts keyID s) : Inv keyID s := by
  have hflow : ∀ {e f : Endpoint} {c d : ControlChannel}, e = .start c keyID → f = .start d keyID →
      (f.channel.remote = .zero ∨ f.channel.remote = e.channel.localSession) →
      Flow (link e f) (link f e) (keyID &&& 7) e f := by
    rintro _ _ c d rfl rfl hremote
    refine { safe := ⟨List.nil_prefix, ?_⟩, bound := Nat.two_pow_pos 31, sendMessage := rfl,
             recvMessage := rfl, key := rfl, remote := hremote, learned := fun h => absurd rfl h,
             pending := ?_, kept := ?_, flight := ?_, admitted := ?_, buffered := ?_,
             acks := ?_ } <;>
      simp [link, Endpoint.start, beginEpoch, InFlight]
  intro side
  obtain ⟨c, hc⟩ := h.start side
  obtain ⟨d, hd⟩ := h.start !side
  have hremote := h.remote !side
  rw [Bool.not_not] at hremote
  exact ⟨hflow hc hd hremote, hflow hd hc (h.remote side), .refl, .refl⟩

/-- One section keeps the invariant and moves both links on. -/
theorem Inv.step (h : Inv keyID s) (hs : Step s t) (hb : ∀ side, (t side).sent.length < 2 ^ 31)
    (side : Bool) :
    Pair (link (s side) (s !side)) (link (s !side) (s side)) (keyID &&& 7) (t side) (t !side) := by
  refine hs.pair (P := fun side e f => Pair (link (s side) (s !side)) (link (s !side) (s side))
    (keyID &&& 7) e f) (fun {side e f} hpair => ?_) (fun side act he => ?_) side
  · rw [Bool.not_not]
    exact hpair.symm
  · refine (h side).step ?_ he (hb side)
    rw [UInt8.and_assoc, UInt8.and_self]

variable (hstart : Starts keyID s) (hrun : Relation.ReflTransGen Step s t)
  (hb : ∀ side, (t side).sent.length < 2 ^ 31)
include hstart hrun hb

/-- Each direction refines a reliable link: a run of the system is a run of the link. -/
theorem inv_of_run :
    Inv keyID t ∧ ∀ side, (link (s side) (s !side)).Extends (link (t side) (t !side)) := by
  induction hrun with
  | refl => exact ⟨inv_of_starts hstart, fun _ => .refl⟩
  | tail _ hstep ih =>
    obtain ⟨hinv, hext⟩ := ih fun side =>
      lt_of_le_of_lt (hstep.kept (R := fun e e' => e.sent <+: e'.sent) (fun _ => prefix_rfl)
        Endpoint.sent_prefix_of_step side).length_le (hb side)
    have hpair := hinv.step hstep hb
    exact ⟨fun side => ⟨(hpair side).out, (hpair side).back, .refl, .refl⟩,
      fun side => (hext side).trans (hpair side).out_extends⟩

/-- Over any run each direction moves as a reliable link does. A packet between its composition
and its last section carries the message of its number and acknowledges what has arrived. -/
theorem control_refines_link (side : Bool) :
    let L := link (t side) (t !side)
    (link (s side) (s !side)).Extends L ∧ ∀ p, InFlight (t side) (t !side) p →
      Genuine L p ∧ ∀ a ∈ p.ackIDs, (link (t !side) (t side)).Acked a := by
  obtain ⟨hinv, hext⟩ := inv_of_run hstart hrun hb
  refine ⟨hext side, fun p hp => ?_⟩
  obtain ⟨hgenuine, -, -, hacks⟩ := (hinv side).out.flight p hp
  exact ⟨hgenuine, hacks⟩

end System

/-- In every state of every run, the messages delivered at one endpoint are a prefix of those
given to `Send` at the other, and a message that is no longer pending has been delivered or is
held in `recvPending`. -/
theorem control_reliable {keyID : UInt8} {s t : System} (hstart : System.Starts keyID s)
    (hrun : Relation.ReflTransGen System.Step s t)
    (hb : ∀ side, (t side).sent.length < 2 ^ 31) (side : Bool) :
    (t !side).delivered <+: (t side).sent ∧ ∀ i m, (t side).sent[i]? = some m →
        (∃ p ∈ (t side).channel.pending, p.messageID = UInt32.ofNat i) ∨
        (t !side).delivered[i]? = some m ∨
        ∃ p ∈ (t !side).channel.recvPending, p.messageID = UInt32.ofNat i ∧ p.message = m := by
  have h := ((System.inv_of_run hstart hrun hb).1 side).out
  refine ⟨h.safe.delivered_prefix, fun i m hm => ?_⟩
  have hi : i < (t side).sent.length := (List.getElem?_eq_some_iff.mp hm).1
  rcases h.kept i hi with hp | hlt | ⟨hi, p, hp, hpi⟩
  · exact .inl hp
  · refine .inr (.inl ?_)
    obtain ⟨rest, hrest⟩ : (t !side).delivered <+: (t side).sent := h.safe.delivered_prefix
    rw [← hrest] at hm
    exact (getElem?_append_left hlt).symm.trans hm
  · -- a buffered packet carries the message of its number
    obtain ⟨hg, hid, -⟩ := h.buffered p hp
    have hc := (hpi ▸ hg.numbered hid).carries h.bound hi
    exact .inr (.inr ⟨p, hp, hpi, some.inj (hc.symm.trans hm)⟩)

/-! ### A handshake

The client does not know the server yet. The server's reset reaches it twice, is delivered once
and acknowledged. -/

def clientSession : SessionID := Vector.replicate 8 1

def serverSession : SessionID := Vector.replicate 8 2

def handshakeStart : System
  | false => .start (.new true clientSession) 0
  | true => .start { new true serverSession with remote := clientSession } 0

def serverReset : ControlPacket :=
  { opcode := .controlHardResetServerV2, keyID := 0, localSession := serverSession, ackIDs := [],
    ackRemoteSession := clientSession, messageID := 0, payload := [] }

def clientAck : ControlPacket :=
  { opcode := .ackV1, keyID := 0, localSession := clientSession, ackIDs := [0],
    ackRemoteSession := serverSession, messageID := 0, payload := [] }

def handshake : List (Bool × Act) :=
  let reset : Datagram := ⟨serverReset.onWire, 1, 100⟩
  let ack : Datagram := ⟨clientAck.onWire, 1, 90⟩
  [(true, .send .controlHardResetServerV2 []), (true, .write serverReset 100),
    (false, .receive reset 5 false), (false, .receive reset 6 false),
    (false, .admitDatagram ⟨reset, false, true⟩ 7), (false, .admitDatagram ⟨reset, false, false⟩ 7),
    (false, .commit reset.packet), (false, .sendAck), (false, .write clientAck 90),
    (true, .receive ack 8 false), (true, .admitDatagram ⟨ack, false, false⟩ 9),
    (true, .commit ack.packet)]

theorem control_reliable_handshake :
    System.Starts 0 handshakeStart ∧ ∃ t, handshakeStart.run handshake = some t ∧
      (t false).delivered = [(.controlHardResetServerV2, [])] ∧ (t true).channel.pending = [] ∧
      (t false).delivered <+: (t true).sent := by
  have hstart : System.Starts 0 handshakeStart := by
    constructor
    · rintro (_ | _)
      · exact ⟨_, rfl⟩
      · exact ⟨_, rfl⟩
    · decide
  obtain ⟨t, ht⟩ := isSome_iff_exists.mp (by decide +kernel : (handshakeStart.run handshake).isSome)
  have hfacts : (handshakeStart.run handshake).map (fun t =>
      ((t false).delivered, (t true).channel.pending, (t false).sent.length, (t true).sent.length)) =
      some ([(.controlHardResetServerV2, [])], [], 0, 1) := by decide +kernel
  simp only [ht, map_some, some.injEq, Prod.mk.injEq] at hfacts
  refine ⟨hstart, t, ht, hfacts.1, hfacts.2.1, ?_⟩
  refine (control_reliable hstart (Duplex.reflTransGen_of_run ht) ?_ true).1
  rintro (_ | _)
  · rw [hfacts.2.2.1]; decide
  · rw [hfacts.2.2.2]; decide

/-- The first two sections: the server's reset is composed and written. -/
theorem control_refines_link_handshake :
    ∃ t, handshakeStart.run (handshake.take 2) = some t ∧ (t true).wire ≠ [] ∧
      (link (handshakeStart true) (handshakeStart false)).Extends (link (t true) (t false)) :=
  ⟨_, rfl, by decide +kernel, (@System.control_refines_link 0 _ _
    ⟨by rintro (_ | _) <;> exact ⟨_, rfl⟩, by decide⟩
    (@Duplex.reflTransGen_of_run _ _ _ _ _ _ _ (handshake.take 2) rfl) (by decide +kernel) true).1⟩

end Hako.OpenVPN
