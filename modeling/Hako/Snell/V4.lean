import Hako.GoLib.Codec
import Hako.GoLib.Binary
import Hako.GoLib.Io
import Hako.Lib.Except
import Hako.Lib.Reads

/-!
# Snell v4 connections

A connection sends a salt and then frames. A frame is a sealed header with the lengths of a padding
and of a payload, the padding, and the sealed payload; only a first frame with a payload has a
padding, and every second byte of it changes places with a byte of the payload's ciphertext. A
frame without a payload is a zero chunk, which the reader reports as an error of its own kind. The
nonce counts the ciphertexts.

`Write` cuts its bytes into frames by a limit that grows with every frame and falls back after a
pause; `WritePacketFrame` sends one frame.
-/

namespace Hako.Snell

open GoLib Lib Binary List Option Nat

def v4SaltSize : Nat := 16

def v4NonceSize : Nat := 12

def v4HeaderPlainSize : Nat := 7

def v4HeaderCipherSize : Nat := v4HeaderPlainSize + 16

def v4FrameSize : Nat := 1460

def v4InitialPaddingMin : Nat := 0x100

def v4InitialPaddingSpan : Nat := 0x100

def maxLength : Nat := 0x3FFF

/-- `incrementV4Nonce` -/
def incrementV4Nonce (nonce : List UInt8) : List UInt8 := increment nonce

/-- `swapPadding`: the bytes at even places that both have change places. -/
def swapPadding : List UInt8 → List UInt8 → List UInt8 × List UInt8
  | p :: p' :: padding, c :: c' :: payloadCipher =>
    let swapped := swapPadding padding payloadCipher
    (c :: p' :: swapped.1, p :: c' :: swapped.2)
  | p :: padding, c :: payloadCipher => (c :: padding, p :: payloadCipher)
  | padding, payloadCipher => (padding, payloadCipher)

/-! ### Writing -/

/-- `time.Time`: nanoseconds since the zero time, and the monotonic clock if it was read. -/
structure Time where
  wall : Int
  mono : Option Int

def Time.isZero (t : Time) : Bool := t.wall == 0

/-- `t.Sub(u)` -/
def Time.sub (t u : Time) : Int :=
  match t.mono, u.mono with
  | some t, some u => t - u
  | _, _ => t.wall - u.wall

/-- The writer, without its cipher. `clock` holds the times that `time.Now()` will give. -/
structure V4Writer where
  nonce : List UInt8
  salt : List UInt8
  saltSent : Bool
  initialPaddingLength : UInt16
  payloadLimit : UInt16
  lastWrite : Time
  clock : Nat → Time

/-- `newV4Writer`, with the salt and the padding length that were drawn. -/
def newV4Writer (salt : List UInt8) (paddingDelta : Nat) (clock : Nat → Time) : V4Writer where
  nonce := List.replicate v4NonceSize 0
  salt := salt
  saltSent := false
  initialPaddingLength := .ofNat (v4InitialPaddingMin + paddingDelta)
  payloadLimit := 0
  lastWrite := ⟨0, none⟩
  clock := clock

/-- A frame as it was written. The payload and the nonce that the writer had after it are not on
the wire. -/
structure Sent where
  bytes : List UInt8
  payload : List UInt8
  nonce : List UInt8

namespace V4Writer

/-- `nextPayloadLimit` -/
def nextPayloadLimit (w : V4Writer) : V4Writer × UInt16 :=
  let now := w.clock 0
  let payloadLimit :=
    if w.lastWrite.isZero then .ofNat v4FrameSize - 55 - w.initialPaddingLength
    else if 30 * 1000000000 < now.sub w.lastWrite then .ofNat (v4FrameSize - 39)
    else w.payloadLimit
  let next :=
    if payloadLimit.toNat ≤ maxLength - 1 then min (payloadLimit.toNat + v4FrameSize - 39) maxLength
    else maxLength
  ({ w with
      payloadLimit := .ofNat next
      lastWrite := now
      clock := fun n => w.clock (n + 1) }, payloadLimit)

/-- `nextFramePaddingLength` -/
def nextFramePaddingLength (w : V4Writer) (payloadLength : Nat) : Nat :=
  if w.saltSent ∨ payloadLength = 0 then 0 else w.initialPaddingLength.toNat

end V4Writer

section Connection

variable (v4AEAD : List UInt8 → AEAD) (makeV4Padding : List UInt8 → (n : Nat) → List.Vector UInt8 n)

namespace V4Writer

/-- `writeFrame`; what `makeV4Padding` returns is random and has the length it was asked for. -/
def writeFrame (w : V4Writer) (payload : List UInt8) (paddingLength : Nat) :
    Except String (V4Writer × Sent) :=
  if maxLength < payload.length ∨ maxLength < paddingLength then
    .error "snell v4 frame too large"
  else if payload = [] ∧ paddingLength ≠ 0 then .error "snell v4 zero chunk with padding"
  else
    let aead := v4AEAD w.salt
    let header := [4, 0, 0] ++ putUint16 paddingLength ++ putUint16 payload.length
    let headerCipher := aead.sealText w.nonce header []
    let nonce := incrementV4Nonce w.nonce
    let payloadCipher := if payload = [] then [] else aead.sealText nonce payload []
    let nonce := if payload = [] then nonce else incrementV4Nonce nonce
    let front := if w.saltSent then [] else w.salt
    let swapped :=
      if 0 < paddingLength then
        swapPadding (makeV4Padding payloadCipher paddingLength).toList payloadCipher
      else ([], payloadCipher)
    .ok ({ w with nonce := nonce, saltSent := true },
      ⟨front ++ headerCipher ++ swapped.1 ++ swapped.2, payload, nonce⟩)

/-- The limit that `Write` goes by. -/
def frameLimit (payloadLimit : UInt16) : Nat :=
  if payloadLimit.toNat = 0 ∨ maxLength < payloadLimit.toNat then maxLength
  else payloadLimit.toNat

theorem frameLimit_pos (payloadLimit : UInt16) : 0 < frameLimit payloadLimit := by
  rw [frameLimit]
  split
  · decide
  · omega

/-- The loop of `Write`. -/
def writeLoop (w : V4Writer) (b : List UInt8) : Except String (V4Writer × List Sent) :=
  if _ : b = [] then .ok (w, [])
  else do
    let limit := frameLimit w.nextPayloadLimit.2
    let w := w.nextPayloadLimit.1
    let chunk := b.take limit
    let (w, sent) ← w.writeFrame v4AEAD makeV4Padding chunk (w.nextFramePaddingLength chunk.length)
    let (w, more) ← writeLoop w (b.drop limit)
    return (w, sent :: more)
termination_by b.length
decreasing_by
  rw [length_drop]
  exact Nat.sub_lt (length_pos_iff.mpr ‹_›) (frameLimit_pos _)

/-- `Write` -/
def write (w : V4Writer) (b : List UInt8) : Except String (V4Writer × List Sent) :=
  if b = [] then (w.writeFrame v4AEAD makeV4Padding [] 0).map fun (w, sent) => (w, [sent])
  else w.writeLoop v4AEAD makeV4Padding b

/-- `WritePacketFrame` -/
def writePacketFrame (w : V4Writer) (b : List UInt8) : Except String (V4Writer × List Sent) :=
  if maxLength < b.length then .error "snell v4 frame too large"
  else
    (w.writeFrame v4AEAD makeV4Padding b (w.nextFramePaddingLength b.length)).map
      fun (w, sent) => (w, [sent])

end V4Writer

inductive Call
  | write (b : List UInt8)
  | writePacketFrame (b : List UInt8)

def V4Writer.call (w : V4Writer) : Call → Except String (V4Writer × List Sent)
  | .write b => w.write v4AEAD makeV4Padding b
  | .writePacketFrame b => w.writePacketFrame v4AEAD makeV4Padding b

/-- All calls in a row. One that is refused sends nothing and changes nothing. -/
def V4Writer.calls (w : V4Writer) : List Call → V4Writer × List Sent
  | [] => (w, [])
  | call :: more =>
    match w.call v4AEAD makeV4Padding call with
    | .ok (w, sent) => ((w.calls more).1, sent ++ (w.calls more).2)
    | .error _ => w.calls more

/-! ### Reading -/

/-- The reader, without its cipher. -/
structure V4Reader where
  salt : List UInt8
  nonce : List UInt8
  buf : List UInt8

/-- The reading half of a connection; there is no reader before the salt was read. -/
structure V4Conn where
  wire : Wire
  r : Option V4Reader

/-- What the caller of `Read` is told, a byte at a time. -/
inductive Item
  | byte (b : UInt8)
  | zeroChunk
  | error (message : String)

inductive FrameResult
  | payload (bytes : List UInt8)
  | zeroChunk
  | error (message : String)

/-- `readFrame`: its result, and the nonce and the wire behind it; none while it waits. -/
def V4Reader.readFrame (r : V4Reader) (wire : Wire) :
    Option (FrameResult × List UInt8 × Wire) := do
  let aead := v4AEAD r.salt
  let (headerCipher, wire) ← wire.readFull v4HeaderCipherSize
  let nonce := incrementV4Nonce r.nonce
  match aead.openText r.nonce headerCipher [] with
  | none => return (.error "cipher: message authentication failed", nonce, wire)
  | some header =>
    if header.length ≠ v4HeaderPlainSize ∨ header.head? ≠ some 4 then
      return (.error "snell v4 invalid frame header", nonce, wire)
    else
      let paddingLength := uint16 (header.drop 3)
      let payloadLength := uint16 (header.drop 5)
      if payloadLength = 0 then
        if paddingLength ≠ 0 then
          return (.error "snell v4 zero chunk with padding", nonce, wire)
        else return (.zeroChunk, nonce, wire)
      else if maxLength < payloadLength ∨ maxLength < paddingLength then
        return (.error "snell v4 frame too large", nonce, wire)
      else
        let (frame, wire) ← wire.readFull (paddingLength + (payloadLength + aeadOverhead))
        let payloadCipher :=
          if 0 < paddingLength then
            (swapPadding (frame.take paddingLength) (frame.drop paddingLength)).2
          else frame.drop paddingLength
        match aead.openText nonce payloadCipher [] with
        | none =>
          return (.error "cipher: message authentication failed", incrementV4Nonce nonce, wire)
        | some payload => return (.payload payload, incrementV4Nonce nonce, wire)

/-- `v4Reader.Read` for a buffer of `n` bytes. -/
def V4Reader.read (n : Nat) (r : V4Reader) (wire : Wire) : Option (List Item × V4Conn) :=
  if r.buf = [] then do
    let (result, nonce, wire) ← r.readFrame v4AEAD wire
    let r := { r with nonce := nonce }
    match result with
    | .error message => return ([.error message], ⟨wire, some r⟩)
    | .zeroChunk => return ([.zeroChunk], ⟨wire, some r⟩)
    | .payload payload =>
      return ((payload.take n).map .byte, ⟨wire, some { r with buf := payload.drop n }⟩)
  else some ((r.buf.take n).map .byte, ⟨wire, some { r with buf := r.buf.drop n }⟩)

/-- `v4Conn.Read`, with `initReader`. -/
def V4Conn.read (n : Nat) (c : V4Conn) : Option (List Item × V4Conn) :=
  match c.r with
  | some r => r.read v4AEAD n c.wire
  | none => do
    let (salt, wire) ← c.wire.readFull v4SaltSize
    V4Reader.read v4AEAD n ⟨salt, List.replicate v4NonceSize 0, []⟩ wire

end Connection

/-! ### Swapping back -/

theorem length_swapPadding (padding payloadCipher : List UInt8) :
    (swapPadding padding payloadCipher).1.length = padding.length ∧
      (swapPadding padding payloadCipher).2.length = payloadCipher.length := by
  fun_induction swapPadding padding payloadCipher with
  | case1 p p' padding c c' payloadCipher swapped ih =>
    simp only [length_cons, swapped, ih, and_self]
  | case2 | case3 => exact ⟨rfl, rfl⟩

/-- The reader needs no more than the two lengths to undo the swap. -/
theorem swapPadding_swapPadding (padding payloadCipher : List UInt8) :
    swapPadding (swapPadding padding payloadCipher).1 (swapPadding padding payloadCipher).2 =
      (padding, payloadCipher) := by
  fun_induction swapPadding padding payloadCipher with
  | case1 p p' padding c c' payloadCipher swapped ih =>
    rw [swapPadding]
    simp only [swapped, ih]
  | case2 p padding c payloadCipher hshort =>
    -- one of the two ends here, so one byte is all there is to swap
    cases padding with
    | nil =>
      cases payloadCipher <;> rfl
    | cons p' padding =>
      cases payloadCipher with
      | nil => rfl
      | cons c' payloadCipher => exact (hshort p' padding c' payloadCipher rfl rfl).elim
  | case3 padding payloadCipher _ hshort =>
    cases padding with
    | nil => cases payloadCipher <;> rfl
    | cons p padding =>
      cases payloadCipher with
      | nil => cases padding <;> rfl
      | cons c payloadCipher => exact (hshort p padding c payloadCipher rfl rfl).elim

/-! ### Frames on the wire -/

/-- The nonce behind a frame. -/
def nextNonce (nonce payload : List UInt8) : List UInt8 :=
  if payload = [] then incrementV4Nonce nonce else incrementV4Nonce (incrementV4Nonce nonce)

def headerOf (paddingLength payloadLength : Nat) : List UInt8 :=
  [4, 0, 0] ++ putUint16 paddingLength ++ putUint16 payloadLength

def payloadCipherOf (aead : AEAD) (nonce payload : List UInt8) : List UInt8 :=
  if payload = [] then [] else aead.sealText (incrementV4Nonce nonce) payload []

/-- A frame with some padding, without the salt. -/
def frameBytes (aead : AEAD) (nonce payload padding : List UInt8) : List UInt8 :=
  aead.sealText nonce (headerOf padding.length payload.length) [] ++
    ((swapPadding padding (payloadCipherOf aead nonce payload)).1 ++
      (swapPadding padding (payloadCipherOf aead nonce payload)).2)

/-- What `writeFrame` does not refuse. -/
structure FrameOk (payload : List UInt8) (paddingLength : Nat) : Prop where
  payload_le : payload.length ≤ maxLength
  padding_le : paddingLength ≤ maxLength
  zero : payload = [] → paddingLength = 0

/-- The frames that lead a writer from one nonce to another. `front` stands before the first one,
which is the salt if it is still to be sent. -/
inductive Sends (aead : AEAD) : (front nonce : List UInt8) → List Sent →
    (front' nonce' : List UInt8) → Prop
  | nil {front nonce : List UInt8} : Sends aead front nonce [] front nonce
  | cons {front nonce payload padding front' nonce' : List UInt8} {sents : List Sent}
    (hok : FrameOk payload padding.length)
    (h : Sends aead [] (nextNonce nonce payload) sents front' nonce') :
    Sends aead front nonce
      (⟨front ++ frameBytes aead nonce payload padding, payload, nextNonce nonce payload⟩ :: sents)
      front' nonce'

theorem Sends.trans {aead : AEAD} {front nonce front' nonce' front'' nonce'' : List UInt8}
    {sents sents' : List Sent} (h : Sends aead front nonce sents front' nonce')
    (h' : Sends aead front' nonce' sents' front'' nonce'') :
    Sends aead front nonce (sents ++ sents') front'' nonce'' := by
  induction h with
  | nil => exact h'
  | cons hok _ ih => exact .cons hok (ih h')

/-- What the peer is to be told of a frame. -/
def Sent.items (sent : Sent) : List Item :=
  if sent.payload = [] then [.zeroChunk] else sent.payload.map .byte

theorem Sent.items_ne_nil (sent : Sent) : sent.items ≠ [] := by
  rw [Sent.items]
  split
  · exact cons_ne_nil _ _
  · rename_i hne
    simpa using hne

section Writing

variable {v4AEAD : List UInt8 → AEAD}
  {makeV4Padding : List UInt8 → (n : Nat) → List.Vector UInt8 n} {w : V4Writer}

/-- What the writer puts before its next frame. -/
def V4Writer.front (w : V4Writer) : List UInt8 := if w.saltSent then [] else w.salt

/-- What a call does: it sends frames with `payloads`, and leaves the writer behind them. -/
structure V4Writer.Does (v4AEAD : List UInt8 → AEAD) (w w' : V4Writer) (sents : List Sent)
    (items : List Item) : Prop where
  sends : Sends (v4AEAD w.salt) w.front w.nonce sents w'.front w'.nonce
  items : sents.flatMap Sent.items = items
  salt : w'.salt = w.salt
  padding : w'.initialPaddingLength = w.initialPaddingLength

theorem V4Writer.Does.trans {w' w'' : V4Writer} {sents sents' : List Sent}
    {items items' : List Item} (h : w.Does v4AEAD w' sents items)
    (h' : w'.Does v4AEAD w'' sents' items') :
    w.Does v4AEAD w'' (sents ++ sents') (items ++ items') where
  sends := h.sends.trans (h.salt ▸ h'.sends)
  items := by rw [flatMap_append, h.items, h'.items]
  salt := h'.salt.trans h.salt
  padding := h'.padding.trans h.padding

variable {payload : List UInt8}

theorem writeFrame_does {paddingLength : Nat} (hok : FrameOk payload paddingLength) :
    ∃ w' sent, w.writeFrame v4AEAD makeV4Padding payload paddingLength = .ok (w', sent) ∧
      w.Does v4AEAD w' [sent] (if payload = [] then [.zeroChunk] else payload.map .byte) := by
  have hsizes : ¬(maxLength < payload.length ∨ maxLength < paddingLength) :=
    not_or.mpr ⟨not_lt.mpr hok.payload_le, not_lt.mpr hok.padding_le⟩
  have hzero : ¬(payload = [] ∧ paddingLength ≠ 0) := fun h => h.2 (hok.zero h.1)
  obtain ⟨padding, hlength, hswap⟩ : ∃ padding : List UInt8, padding.length = paddingLength ∧
      (if 0 < paddingLength then
        swapPadding (makeV4Padding (payloadCipherOf (v4AEAD w.salt) w.nonce payload)
          paddingLength).toList (payloadCipherOf (v4AEAD w.salt) w.nonce payload)
      else ([], payloadCipherOf (v4AEAD w.salt) w.nonce payload)) =
        swapPadding padding (payloadCipherOf (v4AEAD w.salt) w.nonce payload) := by
    by_cases hpos : 0 < paddingLength
    · exact ⟨_, List.Vector.toList_length _, if_pos hpos⟩
    · exact ⟨[], (Nat.eq_zero_of_not_pos hpos).symm, if_neg hpos⟩
  have hsent : w.writeFrame v4AEAD makeV4Padding payload paddingLength =
      .ok ({ w with nonce := nextNonce w.nonce payload, saltSent := true },
        ⟨w.front ++ frameBytes (v4AEAD w.salt) w.nonce payload padding, payload,
          nextNonce w.nonce payload⟩) := by
    rw [V4Writer.writeFrame, if_neg hsizes, if_neg hzero]
    dsimp only
    rw [show (if payload = [] then [] else (v4AEAD w.salt).sealText (incrementV4Nonce w.nonce)
      payload []) = payloadCipherOf (v4AEAD w.salt) w.nonce payload from rfl, hswap, frameBytes,
      V4Writer.front, headerOf, hlength]
    simp only [append_assoc]
    rfl
  subst hlength
  exact ⟨_, _, hsent, .cons hok .nil, flatMap_singleton _ _, rfl, rfl⟩

/-- The padding that was drawn for a connection does not make its first frame too large. -/
def V4Writer.Sized (w : V4Writer) : Prop := w.initialPaddingLength.toNat ≤ maxLength

open V4Writer

theorem frameOk_next (hw : w.Sized) (h : payload.length ≤ maxLength) :
    FrameOk payload (w.nextFramePaddingLength payload.length) := by
  refine ⟨h, ?_, fun hnil => ?_⟩
  · rw [nextFramePaddingLength]
    split
    · exact zero_le _
    · exact hw
  · rw [nextFramePaddingLength, if_pos (.inr (by rw [hnil]; rfl))]

theorem frameLimit_le (payloadLimit : UInt16) : frameLimit payloadLimit ≤ maxLength := by
  rw [frameLimit]
  split
  · exact le_refl _
  · omega

theorem nextPayloadLimit_does : w.Does v4AEAD w.nextPayloadLimit.1 [] [] := ⟨.nil, rfl, rfl, rfl⟩

variable (hw : w.Sized)
include hw

theorem writeLoop_does (b : List UInt8) :
    ∃ w' sents, w.writeLoop v4AEAD makeV4Padding b = .ok (w', sents) ∧
      w.Does v4AEAD w' sents (b.map .byte) := by
  -- each frame takes a byte at least
  induction hlength : b.length using Nat.strong_induction_on generalizing w b with
  | _ length ih =>
    rw [writeLoop]
    by_cases hb : b = []
    · rw [dif_pos hb, hb]
      exact ⟨w, [], rfl, .nil, rfl, rfl, rfl⟩
    · rw [dif_neg hb]
      have hlimit := frameLimit_pos w.nextPayloadLimit.2
      have hpos := length_pos_iff.mpr hb
      have hchunk : b.take (frameLimit w.nextPayloadLimit.2) ≠ [] := by
        rw [← length_pos_iff, length_take]
        omega
      have hle : (b.take (frameLimit w.nextPayloadLimit.2)).length ≤ maxLength :=
        (length_take_le _ _).trans (frameLimit_le _)
      have hnext : w.nextPayloadLimit.1.Sized := hw
      obtain ⟨w₁, sent, hframe, hdoes⟩ :=
        @writeFrame_does v4AEAD makeV4Padding w.nextPayloadLimit.1 _ _ (frameOk_next hnext hle)
      have hw₁ : w₁.Sized := by
        rw [V4Writer.Sized, hdoes.padding]
        exact hw
      obtain ⟨w₂, sents, hloop, hrest⟩ := ih _ (by rw [length_drop]; omega) hw₁
        (b.drop (frameLimit w.nextPayloadLimit.2)) rfl
      refine ⟨w₂, sent :: sents, ?_, ?_⟩
      · dsimp only
        rw [hframe, ok_bind]
        rw [hloop]
        rfl
      · have hall := (nextPayloadLimit_does.trans hdoes).trans hrest
        rwa [if_neg hchunk, nil_append, nil_append, singleton_append,
          ← map_append, take_append_drop] at hall

/-- What the peer is to be told of a call: the bytes, or that there were none, and nothing of a
packet that is refused. -/
def Call.items : Call → List Item
  | .write b => if b = [] then [.zeroChunk] else b.map .byte
  | .writePacketFrame b =>
    if maxLength < b.length then [] else if b = [] then [.zeroChunk] else b.map .byte

theorem call_does (call : Call) :
    (∃ w' sents, w.call v4AEAD makeV4Padding call = .ok (w', sents) ∧
      w.Does v4AEAD w' sents call.items) ∨
    (∃ message, w.call v4AEAD makeV4Padding call = .error message) ∧ call.items = [] := by
  cases call with
  | write b =>
    refine .inl ?_
    rw [call, write, Call.items]
    by_cases hb : b = []
    · rw [if_pos hb, if_pos hb]
      obtain ⟨w', sent, hframe, hdoes⟩ := @writeFrame_does v4AEAD makeV4Padding w [] 0
        ⟨zero_le _, zero_le _, fun _ => rfl⟩
      rw [hframe]
      exact ⟨w', [sent], rfl, hdoes⟩
    · rw [if_neg hb, if_neg hb]
      exact writeLoop_does hw b
  | writePacketFrame b =>
    rw [call, writePacketFrame, Call.items]
    by_cases hlong : maxLength < b.length
    · rw [if_pos hlong, if_pos hlong]
      exact .inr ⟨⟨_, rfl⟩, rfl⟩
    · rw [if_neg hlong, if_neg hlong]
      obtain ⟨w', sent, hframe, hdoes⟩ :=
        @writeFrame_does v4AEAD makeV4Padding w _ _ (frameOk_next hw (not_lt.mp hlong))
      rw [hframe]
      exact .inl ⟨w', [sent], rfl, hdoes⟩

theorem calls_does (calls : List Call) :
    w.Does v4AEAD (w.calls v4AEAD makeV4Padding calls).1 (w.calls v4AEAD makeV4Padding calls).2
      (calls.flatMap Call.items) := by
  induction calls generalizing w with
  | nil => exact ⟨.nil, rfl, rfl, rfl⟩
  | cons call calls ih =>
    rw [flatMap_cons, V4Writer.calls]
    rcases @call_does v4AEAD makeV4Padding w hw call with
      ⟨w', sents, hcall, hdoes⟩ | ⟨⟨message, hcall⟩, hitems⟩
    · have hw' : w'.Sized := by
        rw [V4Writer.Sized, hdoes.padding]
        exact hw
      rw [hcall]
      exact hdoes.trans (ih hw')
    · rw [hcall, hitems]
      exact ih hw

end Writing

/-! ### Reading frames -/

section Reading

variable {v4AEAD : List UInt8 → AEAD} {wire : Wire} {nonce payload padding rest : List UInt8}

theorem length_headerOf (paddingLength payloadLength : Nat) :
    (headerOf paddingLength payloadLength).length = v4HeaderPlainSize := by
  rw [headerOf, length_append, length_append, length_putUint16, length_putUint16]
  rfl

theorem uint16_headerOf {paddingLength payloadLength : Nat} (hpadding : paddingLength ≤ maxLength)
    (hpayload : payloadLength ≤ maxLength) :
    uint16 ((headerOf paddingLength payloadLength).drop 3) = paddingLength ∧
      uint16 ((headerOf paddingLength payloadLength).drop 5) = payloadLength := by
  have hmax : maxLength < 2 ^ 16 := by decide
  have hback := uint16_putUint16 (n := payloadLength) (by omega) []
  rw [append_nil] at hback
  refine ⟨uint16_putUint16 (by omega) _, ?_⟩
  rw [headerOf, append_assoc, drop_append, drop_eq_nil_of_le (by simp), nil_append]
  change uint16 (drop 2 (putUint16 paddingLength ++ _)) = _
  rw [drop_left' (length_putUint16 _), hback]

/-- The reader takes the padding out again, if there is one. -/
theorem swapBack_eq (padding cipher : List UInt8) :
    (if 0 < padding.length then
      (swapPadding (swapPadding padding cipher).1 (swapPadding padding cipher).2).2
      else (swapPadding padding cipher).2) = cipher := by
  split
  · rw [swapPadding_swapPadding]
  · rename_i hzero
    rw [length_eq_zero_iff.mp (Nat.eq_zero_of_not_pos hzero)]
    rfl

/-- A frame is read back, with the nonce it was written with. -/
theorem readFrame_frameBytes (hok : FrameOk payload padding.length) {r : V4Reader}
    (hwire : wire.flatten = frameBytes (v4AEAD r.salt) r.nonce payload padding ++ rest) :
    ∃ wire', r.readFrame v4AEAD wire = some (if payload = [] then .zeroChunk else .payload payload,
      nextNonce r.nonce payload, wire') ∧ wire'.flatten = rest := by
  have hheader : ((v4AEAD r.salt).sealText r.nonce (headerOf padding.length payload.length)
      []).length = v4HeaderCipherSize := by
    rw [AEAD.length_sealText, length_headerOf]
    rfl
  rw [frameBytes, append_assoc] at hwire
  obtain ⟨wire₁, hread₁, hwire₁⟩ := Wire.readFull_of_flatten hwire hheader
  obtain ⟨hpaddingLength, hpayloadLength⟩ := uint16_headerOf hok.padding_le hok.payload_le
  have hvalid : ¬((headerOf padding.length payload.length).length ≠ v4HeaderPlainSize ∨
      (headerOf padding.length payload.length).head? ≠ some 4) :=
    not_or.mpr ⟨not_not_intro (length_headerOf _ _), not_not_intro rfl⟩
  rw [V4Reader.readFrame, hread₁]
  simp only [bind_eq_bind, bind_some, AEAD.openText_sealText, if_neg hvalid,
    hpaddingLength, hpayloadLength]
  by_cases hpayload : payload = []
  · -- a zero chunk has neither a padding nor a ciphertext
    have hpadding : padding = [] := length_eq_zero_iff.mp (hok.zero hpayload)
    subst hpayload hpadding
    refine ⟨wire₁, rfl, ?_⟩
    rw [hwire₁]
    rfl
  · have hpos : payload.length ≠ 0 := mt length_eq_zero_iff.mp hpayload
    have hsizes : ¬(maxLength < payload.length ∨ maxLength < padding.length) :=
      not_or.mpr ⟨not_lt.mpr hok.payload_le, not_lt.mpr hok.padding_le⟩
    rw [if_neg hpos, if_neg hsizes, if_neg hpayload]
    have hlengths := length_swapPadding padding (payloadCipherOf (v4AEAD r.salt) r.nonce payload)
    have hcipher : (payloadCipherOf (v4AEAD r.salt) r.nonce payload).length =
        payload.length + aeadOverhead := by
      rw [payloadCipherOf, if_neg hpayload, AEAD.length_sealText]
    obtain ⟨wire₂, hread₂, hwire₂⟩ := Wire.readFull_of_flatten hwire₁
      (n := padding.length + (payload.length + aeadOverhead))
      (by rw [length_append, hlengths.1, hlengths.2, hcipher])
    have hopen : (v4AEAD r.salt).openText (incrementV4Nonce r.nonce)
        (payloadCipherOf (v4AEAD r.salt) r.nonce payload) [] = some payload := by
      rw [payloadCipherOf, if_neg hpayload, AEAD.openText_sealText]
    refine ⟨wire₂, ?_, hwire₂⟩
    rw [hread₂, bind_some]
    simp only [take_left' hlengths.1, drop_left' hlengths.1, swapBack_eq, hopen]
    rw [nextNonce, if_neg hpayload]
    rfl

/-! ### Delivery -/

/-- The nonce behind frames of a connection. -/
def nonceAfter (sents : List Sent) : List UInt8 :=
  (sents.getLast?.map Sent.nonce).getD (List.replicate v4NonceSize 0)

/-- The nonce that the reader goes on with. -/
def V4Conn.readNonce (c : V4Conn) : List UInt8 :=
  match c.r with
  | none => List.replicate v4NonceSize 0
  | some r => r.nonce

/-- The connection has read the frames `done` of all frames, and `sents` are on the wire. -/
structure At (all done sents : List Sent) (c : V4Conn) : Prop where
  split : all = done ++ sents
  wire : c.wire.flatten = sents.flatMap Sent.bytes
  nonce : c.readNonce = nonceAfter done

/-- What a connection has still to tell its caller. -/
inductive Left (v4AEAD : List UInt8 → AEAD) (salt : List UInt8) (all : List Sent) :
    V4Conn → List Item → Prop
  | fresh {wire : Wire} {front' nonce' : List UInt8} (hat : At all [] all ⟨wire, none⟩)
    (hsends : Sends (v4AEAD salt) salt (List.replicate v4NonceSize 0) all front' nonce') :
    Left v4AEAD salt all ⟨wire, none⟩ (all.flatMap Sent.items)
  | reading {wire : Wire} {nonce buf front' nonce' : List UInt8} {done sents : List Sent}
    (hat : At all done sents ⟨wire, some ⟨salt, nonce, buf⟩⟩)
    (hsends : Sends (v4AEAD salt) [] nonce sents front' nonce') :
    Left v4AEAD salt all ⟨wire, some ⟨salt, nonce, buf⟩⟩ (buf.map .byte ++ sents.flatMap Sent.items)

variable {salt : List UInt8} {all : List Sent}

variable {c : V4Conn} {items : List Item} {n : Nat}

theorem Left.at (h : Left v4AEAD salt all c items) :
    ∃ done sents, At all done sents c := by
  cases h with
  | fresh hat | reading hat => exact ⟨_, _, hat⟩

/-- A call that comes to a frame tells of it, as far as its buffer takes. -/
theorem read_frame {front' nonce' : List UInt8} {done sents : List Sent} {sent : Sent}
    (hsplit : all = done ++ sent :: sents) (hpayload : sent.payload = payload)
    (hnonce : sent.nonce = nextNonce nonce payload) (hok : FrameOk payload padding.length)
    (hsends : Sends (v4AEAD salt) [] (nextNonce nonce payload) sents front' nonce')
    (hwire : wire.flatten =
      frameBytes (v4AEAD salt) nonce payload padding ++ sents.flatMap Sent.bytes) (n : Nat) :
    ∃ out rest c', V4Reader.read v4AEAD n ⟨salt, nonce, []⟩ wire = some (out, c') ∧
      sent.items ++ sents.flatMap Sent.items = out ++ rest ∧
      Left v4AEAD salt all c' rest ∧ (0 < n → out ≠ []) := by
  obtain ⟨wire', hread, hwire'⟩ := readFrame_frameBytes (r := ⟨salt, nonce, []⟩) hok hwire
  have hleft : ∀ buf, Left v4AEAD salt all ⟨wire', some ⟨salt, nextNonce nonce payload, buf⟩⟩
      (buf.map .byte ++ sents.flatMap Sent.items) := by
    refine fun buf => @Left.reading _ _ _ _ _ _ _ _ (done ++ [sent]) _ ⟨?_, hwire', ?_⟩ hsends
    · rw [hsplit, append_assoc, singleton_append]
    · rw [nonceAfter, getLast?_concat, ← hnonce]
      rfl
  rw [V4Reader.read, if_pos rfl, hread, Sent.items, hpayload]
  by_cases hnil : payload = []
  · rw [if_pos hnil, if_pos hnil]
    exact ⟨[.zeroChunk], _, _, rfl, rfl, hleft [], fun _ => cons_ne_nil _ _⟩
  · rw [if_neg hnil, if_neg hnil]
    refine ⟨(payload.take n).map .byte, _, _, rfl, ?_, hleft (payload.drop n), fun hpos => ?_⟩
    · rw [← append_assoc, ← map_append, take_append_drop]
    · simpa [pos_iff_ne_zero.mp hpos] using hnil

theorem read_gives (hsalt : salt.length = v4SaltSize)
    (hleft : Left v4AEAD salt all c items) (hitems : items ≠ []) :
    ∃ out rest c', c.read v4AEAD n = some (out, c') ∧ items = out ++ rest ∧
      Left v4AEAD salt all c' rest ∧ (0 < n → out ≠ []) := by
  cases hleft with
  | fresh hat hsends =>
    cases hsends with
    | nil => exact absurd rfl hitems
    | cons hok hsends =>
      have hwire := hat.wire
      rw [flatMap_cons, append_assoc] at hwire
      obtain ⟨wire', hread, hwire'⟩ := Wire.readFull_of_flatten hwire hsalt
      rw [flatMap_cons, V4Conn.read]
      simp only [hread, bind_eq_bind, bind_some]
      exact read_frame hat.split rfl rfl hok hsends hwire' n
  | reading hat hsends =>
    rename_i wire nonce buf front' nonce' done sents
    rw [V4Conn.read]
    dsimp only
    by_cases hbuf : buf = []
    · subst hbuf
      cases hsends with
      | nil => exact absurd rfl hitems
      | cons hok hsends =>
        have hwire := hat.wire
        rw [map_nil, nil_append, flatMap_cons]
        exact read_frame hat.split rfl rfl hok hsends hwire n
    · rw [V4Reader.read, if_neg hbuf]
      refine ⟨_, _, _, rfl, ?_, .reading ⟨hat.split, hat.wire, hat.nonce⟩ hsends, fun hpos => ?_⟩
      · rw [← append_assoc, ← map_append, take_append_drop]
      · simpa [pos_iff_ne_zero.mp hpos] using hbuf

/-- With nothing left to tell, a call waits for the salt or for a header. -/
theorem read_waits (hleft : Left v4AEAD salt all c []) :
    c.read v4AEAD n = none := by
  have hnil : ∀ {sents : List Sent}, sents.flatMap Sent.items = [] → sents = [] := by
    intro sents hitems
    cases sents with
    | nil => rfl
    | cons sent sents =>
      exact absurd (append_eq_nil_iff.mp hitems).1 sent.items_ne_nil
  generalize hitems : ([] : List Item) = items at hleft
  cases hleft with
  | fresh hat hsends =>
    have hwire := hat.wire
    rw [hnil hitems.symm] at hwire
    rw [V4Conn.read]
    rw [Wire.readFull_eq_none (by rw [show flatten _ = [] from hwire]; decide)]
    rfl
  | reading hat hsends =>
    rename_i wire nonce buf front' nonce' done sents
    obtain ⟨hbuf, hsents⟩ := append_eq_nil_iff.mp hitems.symm
    have hwire := hat.wire
    rw [hnil hsents] at hwire
    rw [V4Conn.read]
    dsimp only
    rw [V4Reader.read, if_pos (map_eq_nil_iff.mp hbuf), V4Reader.readFrame,
      Wire.readFull_eq_none (by rw [show flatten _ = [] from hwire]; decide)]
    rfl

theorem serves (hsalt : salt.length = v4SaltSize) :
    Serves (V4Conn.read v4AEAD) (0 < ·) (Left v4AEAD salt all) where
  waits _ hleft := read_waits hleft
  gives hpos hleft hitems := by
    obtain ⟨out, rest, c', hread, hsplit, hrest, hne⟩ := read_gives hsalt hleft hitems
    exact ⟨out, rest, c', hread, hsplit, hrest, hne hpos⟩
  idle := by
    intro c items n out c' _ hleft hread
    by_cases hitems : items = []
    · rw [read_waits (hitems ▸ hleft)] at hread
      cases hread
    · obtain ⟨out', rest, c'', hread', hsplit, hrest, -⟩ := read_gives hsalt hleft hitems
      obtain ⟨rfl, rfl⟩ := Prod.mk.inj (some.inj (hread'.symm.trans hread))
      exact ⟨rest, hsplit, hrest⟩

end Reading

/-- Whatever the clock, the drawn padding, the calls, the pieces that the wire comes in and the
sizes of the buffers: the calls of `Read` tell of the calls of the peer in order, a zero chunk for
each empty one, and wait only if there is nothing left to tell; and the frames that were read have
brought the reader to the nonce that the writer had after them. -/
theorem read_delivers (v4AEAD : List UInt8 → AEAD)
    (makeV4Padding : List UInt8 → (n : Nat) → List.Vector UInt8 n) {salt : List UInt8}
    (hsalt : salt.length = v4SaltSize) (paddingDelta : Fin v4InitialPaddingSpan)
    (clock : Nat → Time) (calls : List Call) {wire : Wire}
    (hwire : wire.flatten = ((newV4Writer salt paddingDelta clock).calls v4AEAD makeV4Padding
      calls).2.flatMap Sent.bytes) {out : List Item} {c : V4Conn}
    (hreads : Reads (V4Conn.read v4AEAD) ⟨wire, none⟩ out c) :
    out <+: calls.flatMap Call.items ∧
      (∀ n, 0 < n → (c.read v4AEAD n = none ↔ out = calls.flatMap Call.items) ∧
        ∀ more c', c.read v4AEAD n = some (more, c') → more ≠ []) ∧
      ∃ done sents, At ((newV4Writer salt paddingDelta clock).calls v4AEAD makeV4Padding calls).2
        done sents c := by
  have hsized : (newV4Writer salt paddingDelta clock).Sized := by
    have hdelta := paddingDelta.isLt
    have hsum : v4InitialPaddingMin + paddingDelta < 2 ^ 16 := by
      simp only [v4InitialPaddingMin, v4InitialPaddingSpan] at hdelta ⊢
      omega
    rw [V4Writer.Sized, newV4Writer]
    rw [UInt16.toNat_ofNat_of_lt' hsum]
    simp only [v4InitialPaddingMin, v4InitialPaddingSpan, maxLength] at hdelta ⊢
    omega
  have hdoes := @calls_does v4AEAD makeV4Padding _ hsized calls
  have hleft := Left.fresh ⟨rfl, hwire, rfl⟩ hdoes.sends
  rw [hdoes.items] at hleft
  obtain ⟨rest, -, hrest⟩ := (serves hsalt).reads hleft hreads
  obtain ⟨hstart, hcalls⟩ := (serves hsalt).exact hleft hreads
  exact ⟨hstart, hcalls, hrest.at⟩

/-- A connection that sends a zero chunk and then a packet, in one piece. -/
def greeting : Wire :=
  [((newV4Writer (List.replicate 16 0) 0 fun _ => ⟨1, none⟩).calls (fun _ => plainAEAD)
    (fun _ n => List.Vector.replicate n 0) [.write [], .writePacketFrame [7]]).2.flatMap Sent.bytes]

theorem greeting_read :
    ∃ c, Reads (V4Conn.read fun _ => plainAEAD) ⟨greeting, none⟩ [.zeroChunk] c ∧
      (c.read (fun _ => plainAEAD) 1 = none ↔
        [Item.zeroChunk] = [Call.write [], .writePacketFrame [7]].flatMap Call.items) := by
  have hreads := Reads.tail (n := 1)
    (@Reads.refl _ _ _ (V4Conn.read fun _ => plainAEAD) ⟨greeting, none⟩) rfl
  refine ⟨_, hreads, ?_⟩
  have h := read_delivers (fun _ => plainAEAD) (fun _ n => List.Vector.replicate n 0) rfl
    ⟨0, by decide⟩ (fun _ => ⟨1, none⟩) [.write [], .writePacketFrame [7]] (append_nil _)
    hreads
  exact (h.2.1 1 one_pos).1

end Hako.Snell
