import Hako.AnyTLS.Frame
import Hako.GoLib.Strconv

/-!
# Writing with padding

A client session cuts the first packets it writes into records of sizes that a padding scheme
chooses at random, and fills them up with padding frames. A padding frame announces its length in
16 bits but is written in full, so a padding of 65536 bytes or more is longer than announced. The
bytes behind the announced ones are zeros, and zeros are read as padding frames of seven bytes:
the stream stays in step exactly if seven divides their number.
-/

namespace Hako.AnyTLS

open GoLib GoLib.Binary List AnyTLS.Frame

/-! ### Padding schemes -/

/-- `StringMapFromBytes`: the entries of the map, the latest first. -/
def stringMapFromBytes (b : GoString) : List (GoString × GoString) :=
  ((split 0x0A b).filterMap fun line =>
    if 0x3D ∈ line then
      some (line.takeWhile (· ≠ 0x3D), (line.dropWhile (· ≠ 0x3D)).drop 1)
    else none).reverse

structure PaddingFactory where
  scheme : List (GoString × GoString)
  stop : UInt32
deriving DecidableEq, Repr

/-- `NewPaddingFactory`, none for nil. -/
def newPaddingFactory (rawScheme : GoString) : Option PaddingFactory :=
  let scheme := stringMapFromBytes rawScheme
  if scheme = [] then none
  else
    match parseInt ((scheme.lookup (lit "stop")).getD []) with
    | some stop => some ⟨scheme, UInt32.ofNat (stop % 2 ^ 32).toNat⟩
    | none => none

/-- `CheckMark` -/
def checkMark : Int := -1

/-- What one part of an entry stands for. -/
inductive SizeRange where
  | check
  | range (min max : Int)
deriving DecidableEq, Repr

/-- A part of an entry: `c`, or two positive numbers in either order. -/
def sizeRange (sRange : GoString) : Option SizeRange :=
  match split 0x2D sRange with
  | [a, b] =>
    match parseInt a, parseInt b with
    | some a, some b =>
      let (min, max) := if a > b then (b, a) else (a, b)
      if min ≤ 0 ∨ max ≤ 0 then none else some (.range min max)
    | _, _ => none
  | _ => if sRange = lit "c" then some .check else none

/-- The sizes that a part can give. -/
def SizeRange.Gives : SizeRange → Int → Prop
  | check, l => l = checkMark
  | range min max, l => if min = max then l = min else min ≤ l ∧ l < max

/-- The sizes that `GenerateRecordPayloadSizes` can return. -/
def PaddingFactory.Generates (p : PaddingFactory) (pkt : UInt32) (pktSizes : List Int) : Prop :=
  match p.scheme.lookup (itoa pkt.toNat) with
  | none => pktSizes = []
  | some s => List.Forall₂ SizeRange.Gives ((split 0x2C s).filterMap sizeRange) pktSizes

/-! ### Writing -/

/-- A padding of `l` bytes behind its header. -/
def padding (l : Nat) : GoString := cmdWaste :: (putUint32 0 ++ putUint16 l ++ List.replicate l 0)

/-- The loop over the sizes: what is written to the connection, and what is left of `b`. -/
def writeRecords : GoString → List Int → List GoString × GoString
  | b, [] => ([], b)
  | b, l :: pktSizes =>
    if l = checkMark then
      if b.length = 0 then ([], b) else writeRecords b pktSizes
    else if (b.length : Int) > l then
      -- this packet is all payload
      let (writes, left) := writeRecords (b.drop l.toNat) pktSizes
      (b.take l.toNat :: writes, left)
    else if b.length > 0 then
      -- this packet contains padding and the last part of payload
      let paddingLen := l - b.length - headerOverHeadSize
      let (writes, left) := writeRecords [] pktSizes
      ((if paddingLen > 0 then b ++ padding paddingLen.toNat else b) :: writes, left)
    else
      -- this packet is all padding
      let (writes, left) := writeRecords [] pktSizes
      (padding l.toNat :: writes, left)

/-- The part of `Session` that writing depends on. -/
structure Session where
  sendPadding : Bool
  buffering : Bool
  buffer : GoString
  pktCounter : UInt32
deriving DecidableEq, Repr

/-- `NewClientSession` -/
def Session.newClientSession : Session := ⟨true, false, [], 0⟩

/-- `writeConn`: the session afterwards and what is written to the connection. `pktSizes` are the
sizes that were generated, if any were. -/
def Session.writeConn (s : Session) (p : PaddingFactory) (pktSizes : List Int) (b : GoString) :
    Session × List GoString :=
  if s.buffering then ({ s with buffer := s.buffer ++ b }, [])
  else
    let b := if s.buffer.length > 0 then s.buffer ++ b else b
    let s := { s with buffer := [] }
    if s.sendPadding then
      let s := { s with pktCounter := s.pktCounter + 1 }
      if s.pktCounter < p.stop then
        let (writes, left) := writeRecords b pktSizes
        (s, if left.length = 0 then writes else writes ++ [left])
      else ({ s with sendPadding := false }, [b])
    else (s, [b])

/-! ### Runs -/

/-- A client session, its scheme, the stream it has written and the frames it was given. -/
structure State where
  session : Session
  factory : PaddingFactory
  stream : GoString
  sent : List Frame

/-- A frame that a session is given: it fits the format and is no padding. -/
structure Frame.Sendable (f : Frame) : Prop extends f.Fits where
  not_waste : f.cmd ≠ cmdWaste

/-- The lengths of the paddings that the loop over the sizes writes, for `n` bytes of payload. -/
def recordPaddings : Nat → List Int → List Nat
  | _, [] => []
  | n, l :: pktSizes =>
    if l = checkMark then
      if n = 0 then [] else recordPaddings n pktSizes
    else if (n : Int) > l then recordPaddings (n - l.toNat) pktSizes
    else if n > 0 then
      let paddingLen := l - n - headerOverHeadSize
      (if paddingLen > 0 then [paddingLen.toNat] else []) ++ recordPaddings 0 pktSizes
    else l.toNat :: recordPaddings 0 pktSizes

/-- The lengths of the paddings of a write. -/
def Session.paddings (s : Session) (p : PaddingFactory) (pktSizes : List Int) (b : GoString) :
    List Nat :=
  if s.buffering then []
  else if s.sendPadding && s.pktCounter + 1 < p.stop then
    recordPaddings (s.buffer.length + b.length) pktSizes
  else []

/-- What a session can do: write frames, switch buffering, take over a scheme. The list holds
the lengths of the paddings that are written. -/
inductive Step : State → List Nat → State → Prop
  | write {st : State} {frames : List Frame} {pktSizes : List Int} :
      (∀ f ∈ frames, f.Sendable) →
      st.factory.Generates (st.session.pktCounter + 1) pktSizes →
      Step st (st.session.paddings st.factory pktSizes (frames.flatMap bytes))
        ⟨(st.session.writeConn st.factory pktSizes (frames.flatMap bytes)).1, st.factory,
          st.stream ++ (st.session.writeConn st.factory pktSizes (frames.flatMap bytes)).2.flatten,
          st.sent ++ frames⟩
  | buffering (st : State) (b : Bool) : Step st [] { st with session.buffering := b }
  | updatePadding {st : State} {rawScheme : GoString} {factory : PaddingFactory} :
      newPaddingFactory rawScheme = some factory → Step st [] { st with factory := factory }

/-- A new client session. -/
def State.new (factory : PaddingFactory) : State := ⟨.newClientSession, factory, [], []⟩

/-! ### What a write puts on the stream -/

/-- The loop over the sizes writes the payload, and the paddings behind it. -/
theorem writeRecords_eq (b : GoString) (pktSizes : List Int) :
    (writeRecords b pktSizes).1.flatten ++ (writeRecords b pktSizes).2 =
      b ++ (recordPaddings b.length pktSizes).flatMap padding := by
  induction pktSizes generalizing b with
  | nil => simp [writeRecords, recordPaddings]
  | cons l pktSizes ih =>
    rw [writeRecords, recordPaddings]
    by_cases hcheck : l = checkMark
    · rw [if_pos hcheck, if_pos hcheck]
      by_cases hb : b.length = 0
      · rw [if_pos hb, if_pos hb]
        simp
      · rw [if_neg hb, if_neg hb, ih]
    · rw [if_neg hcheck, if_neg hcheck]
      by_cases hl : (b.length : Int) > l
      · rw [if_pos hl, if_pos hl]
        rw [flatten_cons, append_assoc, ih, length_drop, ← append_assoc, take_append_drop]
      · rw [if_neg hl, if_neg hl]
        have hnil := ih []
        by_cases hb : b.length > 0
        · rw [if_pos hb, if_pos hb]
          dsimp only
          rw [flatten_cons, append_assoc, hnil]
          split <;> simp
        · have hb : b = [] := length_eq_zero_iff.mp (by omega)
          rw [if_neg (by simp [hb]), if_neg (by simp [hb])]
          rw [flatten_cons, append_assoc, hnil, hb]
          simp

variable (s : Session) (l : Nat) (p : PaddingFactory) (pktSizes : List Int)

/-- A write puts what was buffered and its own bytes on the stream, and paddings behind them. -/
theorem writeConn_written (b : GoString) (h : s.buffering = false) :
    (s.writeConn p pktSizes b).1.buffer = [] ∧ (s.writeConn p pktSizes b).2.flatten =
        s.buffer ++ b ++ (s.paddings p pktSizes b).flatMap padding := by
  have hbuffer : (if s.buffer.length > 0 then s.buffer ++ b else b) = s.buffer ++ b := by
    split
    · rfl
    · have hnil : s.buffer = [] := length_eq_zero_iff.mp (by omega)
      rw [hnil, nil_append]
  have hleft : ∀ writes : List GoString, ∀ left : GoString,
      (if left.length = 0 then writes else writes ++ [left]).flatten = writes.flatten ++ left := by
    intro writes left
    split
    · rename_i hzero
      rw [length_eq_zero_iff.mp hzero, append_nil]
    · simp
  simp only [Session.writeConn, Session.paddings, h, Bool.false_eq_true, if_false, hbuffer]
  cases hsend : s.sendPadding with
  | false => simp
  | true =>
    by_cases hstop : s.pktCounter + 1 < p.stop
    · have hrecords := writeRecords_eq (s.buffer ++ b) pktSizes
      rw [length_append] at hrecords
      simp only [if_true, if_pos hstop, hleft, hrecords, Bool.true_and, decide_eq_true_eq, and_self]
    · simp [hstop]

theorem writeConn_buffered (b : GoString) (h : s.buffering = true) :
    (s.writeConn p pktSizes b).1.buffer = s.buffer ++ b ∧
      (s.writeConn p pktSizes b).2 = [] ∧ s.paddings p pktSizes b = [] := by
  simp [Session.writeConn, Session.paddings, h]

/-! ### How paddings are read -/

/-- Seven divides the number of the bytes of a padding that its length field does not count. -/
def InStep (l : Nat) : Prop := 7 ∣ l / 2 ^ 16

/-- The bytes of a padding that its length field does not count are read as further frames. -/
theorem recvFrames_padding (rest : GoString) :
    recvFrames (padding l ++ rest) = (⟨cmdWaste, 0, replicate (l % 2 ^ 16) 0⟩ ::
          (recvFrames (replicate (2 ^ 16 * (l / 2 ^ 16)) 0 ++ rest)).1,
        (recvFrames (replicate (2 ^ 16 * (l / 2 ^ 16)) 0 ++ rest)).2) := by
  have hfits : Fits ⟨cmdWaste, 0, replicate (l % 2 ^ 16) 0⟩ :=
    ⟨by rw [length_replicate]; omega, .inl rfl⟩
  have hlength : putUint16 l = putUint16 (l % 2 ^ 16) := by
    simp only [putUint16_eq, cons.injEq, ← UInt8.toNat_inj, UInt8.toNat_ofNat', and_true]
    omega
  have hbytes : padding l ++ rest =
      bytes ⟨cmdWaste, 0, replicate (l % 2 ^ 16) 0⟩ ++
        (replicate (2 ^ 16 * (l / 2 ^ 16)) 0 ++ rest) := by
    have hsplit : replicate l (0 : UInt8) =
        replicate (l % 2 ^ 16) 0 ++ replicate (2 ^ 16 * (l / 2 ^ 16)) 0 := by
      rw [← replicate_add, Nat.mod_add_div]
    rw [padding, hsplit, hlength, bytes, length_replicate]
    simp only [cons_append, append_assoc]
  rw [hbytes, recvFrames_of_some (recvFrame_bytes hfits _)]

theorem recvFrames_zeros_rest (n : Nat) {rest : GoString}
    (h : (replicate (n % 7) (0 : UInt8) ++ rest).length < headerOverHeadSize) :
    (recvFrames (replicate n 0 ++ rest)).2 = replicate (n % 7) 0 ++ rest := by
  have hsplit : replicate n (0 : UInt8) =
      replicate (7 * (n / 7)) 0 ++ replicate (n % 7) 0 := by
    rw [← replicate_add, Nat.div_add_mod]
  rw [hsplit, append_assoc, recvFrames_zeros, recvFrames_short h]

/-- A padding is read without a rest exactly if seven divides its excess. -/
theorem recvFrames_padding_rest : (recvFrames (padding l)).2 = [] ↔ InStep l := by
  have hpadding := recvFrames_padding l []
  rw [append_nil] at hpadding
  rw [hpadding, recvFrames_zeros_rest, append_nil, replicate_eq_nil_iff, InStep]
  · omega
  · rw [append_nil, length_replicate, headerOverHeadSize]
    omega

variable {ls : List Nat} {st st' : State} {frames : List Frame}

theorem recvFrames_paddings (h : ∀ l ∈ ls, InStep l) :
    ∃ ws : List Frame, (∀ f ∈ ws, f.cmd = cmdWaste) ∧ ∀ rest,
      recvFrames (ls.flatMap padding ++ rest) =
        (ws ++ (recvFrames rest).1, (recvFrames rest).2) := by
  induction ls with
  | nil => exact ⟨[], nofun, fun rest => rfl⟩
  | cons l ls ih =>
    obtain ⟨⟨k, hk⟩, hls⟩ := forall_mem_cons.mp h
    obtain ⟨ws, hws, hrest⟩ := ih hls
    refine ⟨⟨cmdWaste, 0, replicate (l % 2 ^ 16) 0⟩ ::
      (replicate (2 ^ 16 * k) ⟨cmdWaste, 0, []⟩ ++ ws), ?_, fun rest => ?_⟩
    · intro f hf
      rcases mem_cons.mp hf with rfl | hf
      · rfl
      · rcases mem_append.mp hf with hf | hf
        · rw [eq_of_mem_replicate hf]
        · exact hws f hf
    · have hseven : 2 ^ 16 * (l / 2 ^ 16) = 7 * (2 ^ 16 * k) := by rw [hk]; ring
      rw [flatMap_cons, append_assoc, recvFrames_padding, hseven, recvFrames_zeros, hrest]
      simp

/-! ### Runs -/

/-- The stream is read as the frames that were sent and are not buffered any more, with padding
frames between. -/
def State.InStep (st : State) : Prop :=
  ∃ pending : List Frame, (∀ f ∈ pending, f.Sendable) ∧
    st.session.buffer = pending.flatMap bytes ∧
    (recvFrames st.stream).2 = [] ∧
    (recvFrames st.stream).1.filter (·.cmd ≠ cmdWaste) ++ pending = st.sent

/-- What a write that is not buffered leaves on the stream. -/
theorem recvFrames_written {pending : List Frame} (hbuffering : st.session.buffering = false)
    (hbuffer : st.session.buffer = pending.flatMap bytes)
    (hall : ∀ f ∈ pending ++ frames, f.Sendable) (hrest : (recvFrames st.stream).2 = []) :
    let b := frames.flatMap bytes
    let pads := (st.session.paddings st.factory pktSizes b).flatMap padding
    recvFrames (st.stream ++ (st.session.writeConn st.factory pktSizes b).2.flatten) =
      ((recvFrames st.stream).1 ++ (pending ++ frames ++ (recvFrames pads).1),
        (recvFrames pads).2) := by
  intro b pads
  rw [(writeConn_written st.session st.factory pktSizes b hbuffering).2, recvFrames_append hrest,
    hbuffer, ← flatMap_append, recvFrames_bytes fun f hf => (hall f hf).toFits]

theorem Step.inStep (h : Step st ls st')
    (hls : ∀ l ∈ ls, AnyTLS.InStep l) (hst : st.InStep) : st'.InStep := by
  obtain ⟨pending, hpending, hbuffer, hrest, hframes⟩ := hst
  cases h with
  | buffering b | updatePadding _ => exact ⟨pending, hpending, hbuffer, hrest, hframes⟩
  | @write frames pktSizes hsend _ =>
    have hall : ∀ f ∈ pending ++ frames, f.Sendable := forall_mem_append.mpr ⟨hpending, hsend⟩
    cases hbuffering : st.session.buffering with
    | true =>
      obtain ⟨hbuf, hwritten, -⟩ := writeConn_buffered st.session st.factory pktSizes
        (frames.flatMap bytes) hbuffering
      refine ⟨pending ++ frames, hall, ?_, ?_, ?_⟩
      · rw [hbuf, hbuffer, flatMap_append]
      · simpa [hwritten] using hrest
      · simpa [hwritten] using congrArg (· ++ frames) hframes
    | false =>
      have hread := recvFrames_written pktSizes hbuffering hbuffer hall hrest
      obtain ⟨ws, hws, hpaddings⟩ := recvFrames_paddings hls
      have hempty := hpaddings []
      rw [append_nil, recvFrames_short (b := []) (by decide)] at hempty
      have hkeep : (pending ++ frames).filter (·.cmd ≠ cmdWaste) = pending ++ frames :=
        filter_eq_self.mpr fun f hf => by simpa using (hall f hf).not_waste
      have hdrop : ws.filter (·.cmd ≠ cmdWaste) = [] :=
        filter_eq_nil_iff.mpr fun f hf => by simp [hws f hf]
      refine ⟨[], nofun, (writeConn_written _ _ _ _ hbuffering).1, ?_, ?_⟩
      · dsimp only at hread ⊢
        rw [hread, hempty]
      · dsimp only at hread ⊢
        rw [hread, hempty, append_nil, append_nil, filter_append,
          filter_append, hkeep, hdrop, append_nil, ← hframes, append_assoc]

/-- A write with one padding keeps the stream in step exactly if seven divides its excess. -/
theorem Step.inStep_iff {l : Nat} (h : Step st [l] st') (hst : st.InStep) :
    st'.InStep ↔ AnyTLS.InStep l := by
  refine ⟨fun hst' => ?_, fun hl => h.inStep (by simpa using hl) hst⟩
  obtain ⟨pending, hpending, hbuffer, hrest, -⟩ := hst
  obtain ⟨-, -, -, hrest', -⟩ := hst'
  generalize hls : [l] = ls at h
  cases h with
  | buffering b => cases hls
  | updatePadding _ => cases hls
  | @write frames pktSizes hsend _ =>
    have hall : ∀ f ∈ pending ++ frames, f.Sendable := forall_mem_append.mpr ⟨hpending, hsend⟩
    cases hbuffering : st.session.buffering with
    | true =>
      rw [(writeConn_buffered _ _ _ _ hbuffering).2.2] at hls
      cases hls
    | false =>
      have hread := recvFrames_written pktSizes hbuffering hbuffer hall hrest
      rw [hread, ← hls, flatMap_singleton] at hrest'
      exact (recvFrames_padding_rest l).mp hrest'

/-- The runs whose paddings all stay in step. -/
def InStepRun : State → State → Prop :=
  Relation.ReflTransGen fun st st' => ∃ ls, Step st ls st' ∧ ∀ l ∈ ls, InStep l

/-- From a new client session with any scheme, as long as seven divides the excess of
every padding, the stream is read as the frames that were sent, in their order, with nothing but
complete padding frames between. And after a write with one padding for which this does not hold
it is not. -/
theorem stream_in_step {factory : PaddingFactory} {st : State}
    (hrun : InStepRun (.new factory) st) :
    st.InStep ∧ ∀ l st', Step st [l] st' → (st'.InStep ↔ InStep l) := by
  have hst : st.InStep := by
    induction hrun with
    | refl =>
      have hread : recvFrames (State.new factory).stream = ([], []) :=
        recvFrames_short (b := []) (by decide)
      exact ⟨[], nofun, rfl, by rw [hread], by rw [hread]; rfl⟩
    | tail _ hstep ih =>
      obtain ⟨ls, hstep, hls⟩ := hstep
      exact hstep.inStep hls ih
  exact ⟨hst, fun l st' hstep => hstep.inStep_iff hst⟩

/-- A scheme with one entry, for the first packet. -/
def firstPacket (sizes : String) : PaddingFactory :=
  ⟨[(lit "1", lit sizes), (lit "stop", lit "2")], 2⟩

/-- One byte on stream 1. -/
def push : Frame := ⟨cmdPSH, 1, lit "a"⟩

theorem push_sendable : ∀ f ∈ [push], f.Sendable :=
  forall_mem_singleton.mpr ⟨⟨by decide, .inl (by decide)⟩, by decide⟩

theorem firstPacket_generates {sizes : String} {l : Int}
    (h : (split 0x2C (lit sizes)).filterMap sizeRange = [.range l l]) :
    (firstPacket sizes).Generates 1 [l] := by
  have hlookup : (firstPacket sizes).scheme.lookup (itoa (1 : UInt32).toNat) =
      some (lit sizes) := rfl
  rw [PaddingFactory.Generates, hlookup]
  dsimp only
  rw [h]
  exact .cons (by simp [SizeRange.Gives]) .nil

/-- A write that is not buffered, by its paddings. -/
theorem Step.write_of {session : Session} {stream : GoString} (hsend : ∀ f ∈ frames, f.Sendable)
    (hsizes : st.factory.Generates (st.session.pktCounter + 1) pktSizes)
    (hbuffering : st.session.buffering = false)
    (hls : st.session.paddings st.factory pktSizes (frames.flatMap bytes) = ls)
    (hsession : (st.session.writeConn st.factory pktSizes (frames.flatMap bytes)).1 = session)
    (hstream : st.stream ++
      (st.session.buffer ++ frames.flatMap bytes ++ ls.flatMap padding) = stream) :
    Step st ls ⟨session, st.factory, stream, st.sent ++ frames⟩ := by
  have hstep := Step.write hsend hsizes
  rw [(writeConn_written _ _ _ _ hbuffering).2, hls, hsession, hstream] at hstep
  exact hstep

theorem stream_in_step_push :
    ∃ st, newPaddingFactory (lit "stop=2\n1=20-20") = some (firstPacket "20-20") ∧
      InStepRun (.new (firstPacket "20-20")) st ∧ st.sent = [push] ∧ st.InStep := by
  have hstep := @Step.write (.new (firstPacket "20-20")) [push] [20] push_sendable
    (firstPacket_generates (by decide))
  have hrun : InStepRun (.new (firstPacket "20-20")) _ := .single ⟨_, hstep, by
    intro l hl
    rw [show Session.paddings _ _ _ _ = [5] by decide, mem_singleton] at hl
    rw [hl]
    exact ⟨0, rfl⟩⟩
  exact ⟨_, by decide, hrun, rfl, (stream_in_step hrun).1⟩

/-- Two zeros too many turn a FIN frame into the end of a padding frame. -/
theorem recvFrames_zeros_fin (k : Nat) :
    recvFrames (replicate (7 * k + 2) 0 ++ bytes ⟨cmdFIN, 1, []⟩) =
      (replicate k ⟨cmdWaste, 0, []⟩ ++ [⟨cmdWaste, 0x30000, [0]⟩], [0]) := by
  have hread : recvFrame (replicate 2 0 ++ bytes ⟨cmdFIN, 1, []⟩) =
      some (⟨cmdWaste, 0x30000, [0]⟩, [0]) := by decide
  rw [replicate_add, append_assoc, recvFrames_zeros, recvFrames_of_some hread,
    recvFrames_short (by decide)]

/-- A scheme whose first record has 70000 bytes. The zeros behind its padding swallow the frame
that is sent next. -/
theorem long_padding_loses_frame :
    ∃ st, newPaddingFactory (lit "stop=2\n1=70000-70000") = some (firstPacket "70000-70000") ∧
      Relation.ReflTransGen (fun st st' => ∃ ls, Step st ls st')
        (.new (firstPacket "70000-70000")) st ∧
      st.sent = [push, ⟨cmdFIN, 1, []⟩] ∧ st.session.buffer = [] ∧
      (recvFrames st.stream).1.filter (·.cmd ≠ cmdWaste) = [push] := by
  let fin : Frame := ⟨cmdFIN, 1, []⟩
  have hpush : Step (.new (firstPacket "70000-70000")) [69985]
      ⟨⟨true, false, [], 1⟩, firstPacket "70000-70000", push.bytes ++ padding 69985, [push]⟩ :=
    Step.write_of [70000] push_sendable (firstPacket_generates (by decide)) rfl (by decide)
      (by decide) (by simp [State.new, Session.newClientSession])
  have hfin : Step
      ⟨⟨true, false, [], 1⟩, firstPacket "70000-70000", push.bytes ++ padding 69985, [push]⟩ []
      ⟨⟨false, false, [], 2⟩, firstPacket "70000-70000", push.bytes ++ padding 69985 ++ fin.bytes,
        [push, fin]⟩ :=
    Step.write_of [] (forall_mem_singleton.mpr ⟨⟨by decide, .inr rfl⟩, by decide⟩) rfl rfl
      (by decide) (by decide) (by simp)
  refine ⟨_, by decide, (Relation.ReflTransGen.single ⟨_, hpush⟩).tail ⟨_, hfin⟩, rfl, rfl, ?_⟩
  -- The excess of 65536 zeros is two more than a multiple of seven.
  have hread := recvFrames_bytes (fun f hf => (push_sendable f hf).toFits)
    (padding 69985 ++ fin.bytes)
  rw [flatMap_singleton, recvFrames_padding,
    show 2 ^ 16 * (69985 / 2 ^ 16) = 7 * 9362 + 2 by norm_num, recvFrames_zeros_fin,
    ← append_assoc] at hread
  have hwaste : ∀ k, (replicate k (⟨cmdWaste, 0, []⟩ : Frame)).filter (·.cmd ≠ cmdWaste) = [] :=
    fun k => filter_eq_nil_iff.mpr fun f hf => by simp [eq_of_mem_replicate hf]
  rw [hread, singleton_append, filter_cons_of_pos (by decide),
    filter_cons_of_neg (by simp), filter_append, hwaste]
  rfl

end Hako.AnyTLS
