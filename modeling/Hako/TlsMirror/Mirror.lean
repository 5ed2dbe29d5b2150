import Hako.GoLib.Binary

/-!
# Records hidden between those of a carrier

Both ends mirror a TLS connection record by record. `Conn.Write` inserts records of its own, sealed
under a key that the ends share, between those of the carrier. The far end takes out the records
that decrypt and forwards the others. With watermarking, each record behind the first inserted one
has its end masked by a key stream, which the far end starts when it has decrypted that record.

One direction is modelled, after both hello records.
-/

namespace Hako.TlsMirror

open GoLib GoLib.Binary List

/-! ### Records -/

def recordTypeChangeCipherSpec : UInt8 := 20
def recordTypeAlert : UInt8 := 21
def recordTypeHandshake : UInt8 := 22
def recordTypeApplicationData : UInt8 := 23

def maxTLSRecordPayload : Nat := 16384

structure Record where
  recordType : UInt8
  version : UInt8 × UInt8
  fragment : GoString
  inserted : Bool
deriving DecidableEq

/-- `writeRecord` -/
def Record.bytes (rec : Record) : GoString :=
  rec.recordType :: rec.version.1 :: rec.version.2 ::
    (putUint16 rec.fragment.length ++ rec.fragment)

/-- `readRecord`: a record and what is behind it, none while it is not complete, or if it is too
large. -/
def readRecord : GoString → Option (Record × GoString)
  | type :: v₀ :: v₁ :: l₀ :: l₁ :: rest =>
    if maxTLSRecordPayload < uint16 [l₀, l₁] ∨ rest.length < uint16 [l₀, l₁] then none
    else
      some (⟨type, (v₀, v₁), rest.take (uint16 [l₀, l₁]), false⟩, rest.drop (uint16 [l₀, l₁]))
  | _ => none

/-- `hasZeroExplicitNonce` -/
def hasZeroExplicitNonce (fragment : GoString) : Bool :=
  8 ≤ fragment.length && (fragment.take 8).all (· = 0)

/-! ### The hidden channel -/

/-- What both ends are configured with, and whether the cipher suite has explicit nonces. -/
structure Config where
  watermark : Bool
  padding : Bool
  tls12Explicit : Bool

def Config.overhead (cfg : Config) : Nat := if cfg.tls12Explicit then 8 else 0

/-- The cipher under the key of one direction. -/
structure Aead where
  sealWith : GoString → GoString → GoString
  openSealed : GoString → GoString → Option GoString
  open_sealWith : ∀ nonce plain, openSealed nonce (sealWith nonce plain) = some plain
  length_sealWith : ∀ nonce plain, (sealWith nonce plain).length = plain.length + 16

/-- `nonceGenerator.Next` -/
def nextNonce (next : GoString) : GoString := increment next

def newNonce : GoString := List.replicate 8 0xff

/-- `explicitNonceGenerator.Next` -/
def nextExplicitNonce (next : GoString) : GoString := (nextNonce next.reverse).reverse

def packPadding (data : GoString) (paddingLength : Nat) : GoString :=
  data ++ List.replicate paddingLength 0 ++ putUint32 (.ofNat data.length)

/-- The number in the last four bytes. -/
def lengthField (data : GoString) : Nat := (uint32 (data.drop (data.length - 4))).toNat

/-- The payload of `unpackPadding`, none where that is nil. -/
def unpackPadding (data : GoString) : Option GoString :=
  if data.length < 4 then none
  else if data.length - 4 < lengthField data then none
  else some (data.take (lengthField data))

/-- `XORKeyStream` on the last 16 bytes, with the key stream from an offset on. -/
def xorTail (keyStream : Nat → UInt8) (offset : Nat) (fragment : GoString) : GoString :=
  fragment.take (fragment.length - 16) ++
    List.zipWith (· ^^^ ·) (fragment.drop (fragment.length - 16))
      ((List.range 16).map fun i => keyStream (offset + i))

/-- The records that have a watermark. -/
def Record.watermarked (rec : Record) : Prop :=
  (rec.recordType = recordTypeApplicationData ∨ rec.recordType = recordTypeAlert) ∧
    16 ≤ rec.fragment.length

instance (rec : Record) : Decidable rec.watermarked := inferInstanceAs (Decidable (_ ∧ _))

section Ends

variable (cfg : Config) (aead : Aead) (keyStream : Nat → UInt8)

/-- `fillExplicitNonce`, with the generator of the direction. -/
def fillExplicitNonce (next : GoString) (rec : Record) : GoString × Record :=
  if rec.inserted ∧ 8 ≤ rec.fragment.length ∧ cfg.tls12Explicit ∧
      (rec.recordType = recordTypeApplicationData ∨ rec.recordType = recordTypeAlert) then
    (nextExplicitNonce next,
      { rec with fragment := nextExplicitNonce next ++ rec.fragment.drop 8 })
  else (next, rec)

/-- `handleOutboundRecordTx`, with the offset in the key stream once it is there. -/
def handleOutboundRecordTx (watermarkTx : Option Nat) (rec : Record) : Option Nat × Record :=
  if cfg.watermark then
    match watermarkTx with
    | some offset =>
      if rec.watermarked then
        (some (offset + 16), { rec with fragment := xorTail keyStream offset rec.fragment })
      else (some offset, rec)
    | none => (if rec.inserted then some 0 else none, rec)
  else (watermarkTx, rec)

/-- What `recordWriter` keeps. -/
structure Tx where
  explicitNonce : GoString
  watermarkTx : Option Nat

/-- A record on its way out. -/
def emit (tx : Tx) (rec : Record) : Tx × Record :=
  let (explicitNonce, rec) := fillExplicitNonce cfg tx.explicitNonce rec
  let (watermarkTx, rec) := handleOutboundRecordTx cfg keyStream tx.watermarkTx rec
  (⟨explicitNonce, watermarkTx⟩, rec)

/-- What `handleInboundRecord` keeps: the generator of the decryptor, the nonce it holds on to when
it has failed, and the offset in the key stream. -/
structure Rx where
  nonce : GoString
  nextNonce : Option GoString
  watermarkRx : Option Nat

/-- What is done with a record that was received. -/
inductive Verdict where
  | forward (rec : Record)
  | deliver (payload : GoString)
  /-- It decrypts, and its padding does not. -/
  | drop

/-- `applySequenceWatermarkRx` -/
def applySequenceWatermarkRx (watermarkRx : Option Nat) (rec : Record) : Option Nat × Record :=
  match watermarkRx with
  | some offset =>
    if cfg.watermark ∧ rec.watermarked then
      (some (offset + 16), { rec with fragment := xorTail keyStream offset rec.fragment })
    else (some offset, rec)
  | none => (none, rec)

/-- `handleInboundRecord` -/
def handleInboundRecord (rx : Rx) (rec : Record) : Rx × Verdict :=
  let (watermarkRx, rec) := applySequenceWatermarkRx cfg keyStream rx.watermarkRx rec
  let rx := { rx with watermarkRx := watermarkRx }
  if rec.recordType ≠ recordTypeApplicationData then (rx, .forward rec)
  else if rec.fragment.length < cfg.overhead + 8 then (rx, .forward rec)
  else
    -- the nonce is used again after a failure
    let nonce := rx.nextNonce.getD (TlsMirror.nextNonce rx.nonce)
    match aead.openSealed nonce (rec.fragment.drop cfg.overhead) with
    | none => ({ rx with nonce := nonce, nextNonce := some nonce }, .forward rec)
    | some payload =>
      let rx : Rx := { rx with
        nonce := nonce
        nextNonce := none
        watermarkRx :=
          if cfg.watermark ∧ rx.watermarkRx = none then some 0 else rx.watermarkRx }
      if cfg.padding then
        match unpackPadding payload with
        | some payload => (rx, .deliver payload)
        | none => (rx, .drop)
      else (rx, .deliver payload)

/-- The longest plaintext of one record. -/
def Config.maxPlaintext : Nat :=
  maxTLSRecordPayload - cfg.overhead - 16 - if cfg.padding then 4 else 0

/-- A record of `Conn.Write`. -/
def sealRecord (version : UInt8 × UInt8) (nonce plain : GoString) : Record :=
  let plain := if cfg.padding then packPadding plain 0 else plain
  ⟨recordTypeApplicationData, version,
    List.replicate cfg.overhead 0 ++ aead.sealWith nonce plain, true⟩

end Ends

/-! ### Both ends -/

/-- What a worker keeps of the records it has passed on. -/
structure Worker where
  changeCipherSpecWasLast : Bool
  ready : Bool

/-- A worker gives up on a record and copies everything from there on. -/
def Worker.FallsBack (w : Worker) (rec : Record) : Prop :=
  rec.recordType = recordTypeHandshake ∧ w.changeCipherSpecWasLast ∧
    ¬ hasZeroExplicitNonce rec.fragment

instance (w : Worker) (rec : Record) : Decidable (w.FallsBack rec) :=
  inferInstanceAs (Decidable (_ ∧ _))

/-- What a worker does after it has passed on a record. -/
def Worker.pass (cfg : Config) (w : Worker) (rec : Record) : Worker :=
  if rec.recordType = recordTypeChangeCipherSpec ∧ cfg.tls12Explicit then
    { w with changeCipherSpecWasLast := true }
  else
    ⟨false, w.ready || rec.recordType = recordTypeApplicationData ||
      (rec.recordType = recordTypeHandshake && w.changeCipherSpecWasLast)⟩

/-- Both ends and the channel between them. The last fields are there for the statements: what the
carrier has sent and what was written. -/
structure State where
  /-- The worker at the near end. -/
  near : Worker
  /-- The generator of the encryptor. -/
  nonce : GoString
  /-- What is left of the `Write` that is in progress. -/
  writing : GoString
  /-- The insert channel. -/
  queue : List Record
  tx : Tx
  wire : GoString
  /-- The worker at the far end. -/
  far : Worker
  rx : Rx
  /-- What is passed on to the carrier's peer. -/
  forwarded : List Record
  readCh : List GoString
  readBuffer : GoString
  /-- What `Read` has returned. -/
  returned : GoString
  fellBack : Bool
  carrier : List Record
  written : GoString

/-- What the goroutines of both ends do. -/
inductive Event where
  /-- The worker at the near end reads a record of the carrier. -/
  | carrier (rec : Record)
  /-- `Conn.Write` is called. -/
  | write (b : GoString)
  /-- It inserts a record. -/
  | insert
  /-- It gives up on a record that it has sealed: its deadline has passed, or the end is closed. -/
  | abandon
  /-- `recordWriter` takes a record. -/
  | send
  /-- The worker at the far end reads a record. -/
  | receive
  /-- `Conn.Read` is called at the far end. -/
  | read (size : Nat)

def start : State where
  near := ⟨false, false⟩
  nonce := newNonce
  writing := []
  queue := []
  tx := ⟨List.replicate 8 0, none⟩
  wire := []
  far := ⟨false, false⟩
  rx := ⟨newNonce, none, none⟩
  forwarded := []
  readCh := []
  readBuffer := []
  returned := []
  fellBack := false
  carrier := []
  written := []

section Run

variable (cfg : Config) (aead : Aead) (keyStream : Nat → UInt8) (version : UInt8 × UInt8)

/-- `Conn.Read` of what is there. A buffer that gives nothing is taken for an empty one, so that a
call with an empty slice goes through all there is. -/
def State.read (st : State) (size : Nat) : State :=
  if size = 0 then { st with readBuffer := [], readCh := [] }
  else
    match st.readBuffer, st.readCh with
    | [], [] => st
    | [], data :: readCh =>
      { st with
        readBuffer := data.drop size, readCh := readCh, returned := st.returned ++ data.take size }
    | b :: data, _ =>
      { st with
        readBuffer := (b :: data).drop size, returned := st.returned ++ (b :: data).take size }

/-- One event. What cannot happen yet changes nothing. -/
def State.step (st : State) : Event → State
  | .carrier rec =>
    if st.near.FallsBack rec then { st with fellBack := true }
    else
      { st with
        near := st.near.pass cfg rec
        queue := st.queue ++ [rec]
        carrier := st.carrier ++ [rec] }
  | .write b => if st.writing = [] ∧ st.near.ready then { st with writing := b } else st
  | .insert =>
    if st.writing = [] then st
    else
      let plain := st.writing.take cfg.maxPlaintext
      { st with
        writing := st.writing.drop cfg.maxPlaintext
        nonce := nextNonce st.nonce
        queue := st.queue ++ [sealRecord cfg aead version (nextNonce st.nonce) plain]
        written := st.written ++ plain }
  | .abandon =>
    -- the generator has moved on, and nothing was inserted
    if st.writing = [] then st else { st with writing := [], nonce := nextNonce st.nonce }
  | .send =>
    match st.queue with
    | [] => st
    | rec :: queue =>
      let (tx, rec) := emit cfg keyStream st.tx rec
      { st with queue := queue, tx := tx, wire := st.wire ++ rec.bytes }
  | .receive =>
    match readRecord st.wire with
    | none => st
    | some (rec, wire) =>
      if st.far.FallsBack rec then { st with wire := wire, fellBack := true }
      else
        let (rx, verdict) := handleInboundRecord cfg aead keyStream st.rx rec
        let st := { st with wire := wire, rx := rx }
        match verdict with
        | .forward rec =>
          { st with far := st.far.pass cfg rec, forwarded := st.forwarded ++ [rec] }
        | .deliver payload => { st with readCh := st.readCh ++ [payload] }
        | .drop => st
  | .read size => st.read size

def run (events : List Event) : State := events.foldl (State.step cfg aead keyStream version) start

/-- What has come out is what has gone in, from its start on, and all of it when nothing is on its
way. -/
structure Transparent (st : State) : Prop where
  forwarded : st.forwarded <+: st.carrier
  returned : st.returned ++ st.readBuffer ++ st.readCh.flatten <+: st.written
  drained : st.queue = [] → st.wire = [] →
    st.forwarded = st.carrier ∧ st.returned ++ st.readBuffer ++ st.readCh.flatten = st.written

/-! ### The ends in step -/

/-- A record of the carrier, or what `Conn.Write` has put into one. -/
inductive Item where
  | carrier (rec : Record)
  | hidden (plain : GoString)

/-- What a carrier may send here: no alert, and nothing that decrypts under the hidden key. -/
structure Foreign (rec : Record) : Prop where
  inserted : rec.inserted = false
  noAlert : rec.recordType ≠ recordTypeAlert
  length_le : rec.fragment.length ≤ maxTLSRecordPayload
  sealed : ∀ nonce, aead.openSealed nonce (rec.fragment.drop cfg.overhead) = none

def Item.Ok : Item → Prop
  | .carrier rec => Foreign cfg aead rec
  | .hidden plain => plain.length ≤ cfg.maxPlaintext

/-- What is to be done with it at the far end. -/
def Item.verdict : Item → Verdict
  | .carrier rec => .forward rec
  | .hidden plain => .deliver plain

/-- The record of an item, and the generator behind it. -/
def sealItem (nonce : GoString) : Item → GoString × Record
  | .carrier rec => (nonce, rec)
  | .hidden plain => (nextNonce nonce, sealRecord cfg aead version (nextNonce nonce) plain)

/-- The far end is where the near end was: with the same nonce to come and at the same place in
the key stream. -/
structure InStep (nonce : GoString) (tx : Tx) (rx : Rx) : Prop where
  nonce_eq : rx.nextNonce = none ∧ rx.nonce = nonce ∨
    rx.nextNonce = some rx.nonce ∧ rx.nonce = nextNonce nonce
  watermark_eq : rx.watermarkRx = tx.watermarkTx
  unmarked : cfg.watermark = false → tx.watermarkTx = none
  explicit : tx.explicitNonce.length = 8

end Run

theorem length_nextExplicitNonce (next : GoString) :
    (nextExplicitNonce next).length = next.length := by
  rw [nextExplicitNonce, length_reverse, nextNonce, length_increment, length_reverse]

theorem length_xorTail (keyStream : Nat → UInt8) (offset : Nat) {fragment : GoString}
    (h : 16 ≤ fragment.length) : (xorTail keyStream offset fragment).length = fragment.length := by
  simp [xorTail]
  omega

/-- The key stream undoes itself. -/
theorem xorTail_xorTail (keyStream : Nat → UInt8) (offset : Nat) {fragment : GoString}
    (h : 16 ≤ fragment.length) :
    xorTail keyStream offset (xorTail keyStream offset fragment) = fragment := by
  have htail : ∀ a b : GoString, zipWith (· ^^^ ·) (zipWith (· ^^^ ·) a b) b =
      a.take b.length := by
    intro a
    induction a with
    | nil => simp
    | cons x a ih =>
      intro b
      cases b with
      | nil => rfl
      | cons y b => simp [ih]
  have hfront : (fragment.take (fragment.length - 16)).length = fragment.length - 16 := by simp
  have hback : (fragment.drop (fragment.length - 16)).take
      ((range 16).map fun i => keyStream (offset + i)).length =
      fragment.drop (fragment.length - 16) := by
    refine take_of_length_le ?_
    simp only [length_drop, length_map, length_range]
    omega
  rw [xorTail, length_xorTail _ _ h]
  conv_lhs => rw [xorTail]
  rw [take_left' hfront, drop_left' hfront, htail, hback, take_append_drop]

theorem length_packPadding (plain : GoString) :
    (packPadding plain 0).length = plain.length + 4 := by
  rw [packPadding, replicate_zero, append_nil, length_append, length_putUint32]

theorem unpackPadding_packPadding {plain : GoString} (h : plain.length < 2 ^ 32) :
    unpackPadding (packPadding plain 0) = some plain := by
  have hlen := length_packPadding plain
  have hfield : lengthField (packPadding plain 0) = plain.length := by
    have hdrop : (packPadding plain 0).drop ((packPadding plain 0).length - 4) =
        putUint32 (.ofNat plain.length) ++ [] := by
      rw [hlen, packPadding, replicate_zero, append_nil, append_nil]
      exact drop_left' (by simp)
    rw [lengthField, hdrop, uint32_putUint32, UInt32.toNat_ofNat_of_lt' h]
  rw [unpackPadding, if_neg (by omega), hfield, if_neg (by omega), packPadding]
  simp

theorem readRecord_bytes {rec : Record} (h : rec.fragment.length ≤ maxTLSRecordPayload)
    (rest : GoString) :
    readRecord (rec.bytes ++ rest) = some ({ rec with inserted := false }, rest) := by
  have hlen := uint16_pair (lt_of_le_of_lt h (by decide))
  simp only [Record.bytes, putUint16_eq, cons_append, nil_append, readRecord, hlen]
  rw [if_neg (by simp only [length_append]; omega), take_left, drop_left]

section Step

variable {cfg : Config} {aead : Aead} {keyStream : Nat → UInt8} {version : UInt8 × UInt8}
  {nonce : GoString} {tx : Tx} {rx : Rx} {tx' : Tx} {rec : Record} (h : InStep cfg nonce tx rx)
include h

/-- The key stream is taken off again where it was put on. -/
theorem applySequenceWatermarkRx_handleOutboundRecordTx {rec : Record} :
    applySequenceWatermarkRx cfg keyStream rx.watermarkRx
        { (handleOutboundRecordTx cfg keyStream tx.watermarkTx rec).2 with inserted := false } =
      (if tx.watermarkTx = none then none
        else (handleOutboundRecordTx cfg keyStream tx.watermarkTx rec).1,
        { rec with inserted := false }) ∧
      (handleOutboundRecordTx cfg keyStream tx.watermarkTx rec).2.fragment.length =
        rec.fragment.length := by
  rw [h.watermark_eq]
  cases hw : cfg.watermark with
  | false =>
    simp [handleOutboundRecordTx, applySequenceWatermarkRx, hw, h.unmarked hw]
  | true =>
    cases ht : tx.watermarkTx with
    | none => simp [handleOutboundRecordTx, applySequenceWatermarkRx, hw]
    | some offset =>
      by_cases hmark : rec.watermarked
      · have hlen := length_xorTail keyStream offset hmark.2
        have hmark' : Record.watermarked
            ⟨rec.recordType, rec.version, xorTail keyStream offset rec.fragment, false⟩ :=
          ⟨hmark.1, by rw [hlen]; exact hmark.2⟩
        simp [handleOutboundRecordTx, applySequenceWatermarkRx, hw, hmark, hmark', hlen,
          xorTail_xorTail _ _ hmark.2]
      · have hmark' : ¬ Record.watermarked ⟨rec.recordType, rec.version, rec.fragment, false⟩ :=
          hmark
        simp [handleOutboundRecordTx, applySequenceWatermarkRx, hw, hmark, hmark']

/-- The nonce that the decryptor tries next is the one that was sealed with next. -/
theorem InStep.nonce_to_try :
    rx.nextNonce.getD (nextNonce rx.nonce) = nextNonce nonce := by
  obtain ⟨hnone, heq⟩ | ⟨hsome, heq⟩ := h.nonce_eq
  · rw [hnone, Option.getD_none, heq]
  · rw [hsome, Option.getD_some, heq]

/-- A record of the carrier comes out as it went in. -/
theorem inbound_emit_carrier (hf : Foreign cfg aead rec)
    {rec' : Record} (hemit : emit cfg keyStream tx rec = (tx', rec')) :
    ∃ rx', handleInboundRecord cfg aead keyStream rx { rec' with inserted := false } =
        (rx', .forward rec) ∧ InStep cfg nonce tx' rx' ∧
      rec'.fragment.length ≤ maxTLSRecordPayload := by
  have hfill : fillExplicitNonce cfg tx.explicitNonce rec = (tx.explicitNonce, rec) := by
    simp [fillExplicitNonce, hf.inserted]
  have hrec : ({ rec with inserted := false } : Record) = rec := by
    rw [← hf.inserted]
  obtain ⟨happly, hlen⟩ := @applySequenceWatermarkRx_handleOutboundRecordTx cfg keyStream nonce tx
    rx h rec
  have hmark : (if tx.watermarkTx = none then none
      else (handleOutboundRecordTx cfg keyStream tx.watermarkTx rec).1) =
      (handleOutboundRecordTx cfg keyStream tx.watermarkTx rec).1 := by
    split
    · next hnone => simp [handleOutboundRecordTx, hnone, hf.inserted]
    · rfl
  have hunmarked : cfg.watermark = false →
      (handleOutboundRecordTx cfg keyStream tx.watermarkTx rec).1 = none := by
    intro hw
    simp [handleOutboundRecordTx, hw, h.unmarked hw]
  rw [hmark, hrec] at happly
  simp only [emit, hfill] at hemit
  obtain ⟨rfl, rfl⟩ := Prod.mk.inj hemit
  have hle := le_trans (le_of_eq hlen) hf.length_le
  generalize handleOutboundRecordTx cfg keyStream tx.watermarkTx rec = hook at *
  -- only a record that is tried makes the decryptor take a nonce, which it holds on to
  by_cases htried : rec.recordType = recordTypeApplicationData ∧
      ¬ rec.fragment.length < cfg.overhead + 8
  · refine ⟨⟨nextNonce nonce, some (nextNonce nonce), hook.1⟩, ?_,
      ⟨.inr ⟨rfl, rfl⟩, rfl, hunmarked, h.explicit⟩, hle⟩
    simp only [handleInboundRecord, happly, htried.1, htried.2, ne_eq, not_true_eq_false, if_false,
      hf.sealed, h.nonce_to_try]
  · refine ⟨⟨rx.nonce, rx.nextNonce, hook.1⟩, ?_, ⟨h.nonce_eq, rfl, hunmarked, h.explicit⟩, hle⟩
    rw [not_and_not_right] at htried
    simp only [handleInboundRecord, happly]
    split
    · rfl
    · next htype => rw [if_pos (htried (not_not.mp htype))]

omit h in
/-- The explicit nonce goes into the room in front of what was sealed. -/
theorem fillExplicitNonce_sealRecord {next : GoString} (hnext : next.length = 8)
    (nonce plain : GoString) :
    ∃ explicit front : GoString, explicit.length = 8 ∧ front.length = cfg.overhead ∧
      fillExplicitNonce cfg next (sealRecord cfg aead version nonce plain) =
        (explicit, ⟨recordTypeApplicationData, version, front ++
          aead.sealWith nonce (if cfg.padding then packPadding plain 0 else plain), true⟩) := by
  cases hx : cfg.tls12Explicit with
  | false => exact ⟨next, [], hnext, by simp [Config.overhead, hx],
      by simp [fillExplicitNonce, sealRecord, Config.overhead, hx]⟩
  | true =>
    have hlen : (nextExplicitNonce next).length = 8 := by rw [length_nextExplicitNonce, hnext]
    refine ⟨nextExplicitNonce next, nextExplicitNonce next, hlen, ?_, ?_⟩
    · simp [Config.overhead, hx, hlen]
    · rw [fillExplicitNonce, if_pos (by simp [sealRecord, Config.overhead, hx])]
      simp [sealRecord, Config.overhead, hx]

omit h in
/-- What a record of `Conn.Write` holds. -/
theorem length_packed_le {plain : GoString} (h : plain.length ≤ cfg.maxPlaintext) :
    cfg.overhead + ((if cfg.padding then packPadding plain 0 else plain).length + 16) ≤
      maxTLSRecordPayload := by
  have hover : cfg.overhead ≤ 8 := by
    unfold Config.overhead
    split <;> decide
  have hmax : maxTLSRecordPayload = 16384 := rfl
  unfold Config.maxPlaintext at h
  cases hpad : cfg.padding with
  | false =>
    simp only [hpad, Bool.false_eq_true, if_false] at h ⊢
    omega
  | true =>
    simp only [hpad, if_true, length_packPadding] at h ⊢
    omega

omit h in
/-- The key stream of the far end behind a record that was inserted. -/
theorem watermark_of_inserted (keyStream : Nat → UInt8) (h : InStep cfg nonce tx rx) {rec : Record}
    (hrec : rec.inserted = true) :
    (if cfg.watermark = true ∧ (if tx.watermarkTx = none then none
        else (handleOutboundRecordTx cfg keyStream tx.watermarkTx rec).1) = none then some 0
      else if tx.watermarkTx = none then none
        else (handleOutboundRecordTx cfg keyStream tx.watermarkTx rec).1) =
      (handleOutboundRecordTx cfg keyStream tx.watermarkTx rec).1 ∧
    (cfg.watermark = false →
      (handleOutboundRecordTx cfg keyStream tx.watermarkTx rec).1 = none) := by
  cases hw : cfg.watermark with
  | false => simp [handleOutboundRecordTx, hw, h.unmarked hw]
  | true =>
    cases ht : tx.watermarkTx with
    | none => simp [handleOutboundRecordTx, hw, hrec]
    | some offset => by_cases hmark : rec.watermarked <;> simp [handleOutboundRecordTx, hw, hmark]

/-- What `Conn.Write` has put into a record comes out of it. -/
theorem inbound_emit_hidden {plain : GoString} (hplain : plain.length ≤ cfg.maxPlaintext)
    (hemit : emit cfg keyStream tx (sealRecord cfg aead version (nextNonce nonce) plain) =
      (tx', rec)) :
    ∃ rx', handleInboundRecord cfg aead keyStream rx { rec with inserted := false } =
        (rx', .deliver plain) ∧ InStep cfg (nextNonce nonce) tx' rx' ∧
      rec.fragment.length ≤ maxTLSRecordPayload := by
  obtain ⟨explicit, front, hexplicit, hfront, hfill⟩ :=
    @fillExplicitNonce_sealRecord cfg aead version _ h.explicit (nextNonce nonce) plain
  have hpackedLen := length_packed_le hplain
  generalize hpacked : (if cfg.padding then packPadding plain 0 else plain) = packed at *
  generalize hsealed : aead.sealWith (nextNonce nonce) packed = text at *
  have htext : text.length = packed.length + 16 := by rw [← hsealed, aead.length_sealWith]
  have hopen : aead.openSealed (nextNonce nonce) text = some packed := by
    rw [← hsealed, aead.open_sealWith]
  obtain ⟨happly, hlen⟩ := @applySequenceWatermarkRx_handleOutboundRecordTx cfg keyStream nonce tx
    rx h ⟨recordTypeApplicationData, version, front ++ text, true⟩
  simp only [emit, hfill] at hemit
  obtain ⟨rfl, rfl⟩ := Prod.mk.inj hemit
  have hunpack : cfg.padding = true → unpackPadding packed = some plain := by
    intro hpad
    rw [← hpacked, if_pos hpad]
    refine unpackPadding_packPadding ?_
    have hmax : maxTLSRecordPayload = 16384 := rfl
    unfold Config.maxPlaintext at hplain
    omega
  have hshort : ¬ (front ++ text).length < cfg.overhead + 8 := by
    rw [length_append]
    omega
  have hdrop : (front ++ text).drop cfg.overhead = text := drop_left' hfront
  -- the first record that decrypts starts the key stream where the first inserted one has
  have hmark := @watermark_of_inserted cfg nonce tx rx keyStream h
    ⟨recordTypeApplicationData, version, front ++ text, true⟩ rfl
  generalize handleOutboundRecordTx cfg keyStream tx.watermarkTx
    ⟨recordTypeApplicationData, version, front ++ text, true⟩ = hook at *
  refine ⟨⟨nextNonce nonce, none, hook.1⟩, ?_, ⟨.inl ⟨rfl, rfl⟩, rfl, hmark.2, hexplicit⟩, ?_⟩
  · simp only [handleInboundRecord, happly, ne_eq, not_true_eq_false, if_false, hshort, hdrop,
      h.nonce_to_try, hopen, hmark.1]
    cases hpad : cfg.padding with
    | false => simp [← hpacked, hpad]
    | true => simp [hunpack hpad]
  · rw [hlen, length_append]
    omega

/-- The far end makes of a record what it is, and stays in step. -/
theorem inbound_emit {item : Item} (hok : item.Ok cfg aead) {nonce' : GoString} {rec' : Record}
    (hseal : sealItem cfg aead version nonce item = (nonce', rec))
    (hemit : emit cfg keyStream tx rec = (tx', rec')) :
    ∃ rx', handleInboundRecord cfg aead keyStream rx { rec' with inserted := false } =
        (rx', item.verdict) ∧ InStep cfg nonce' tx' rx' ∧
      rec'.fragment.length ≤ maxTLSRecordPayload := by
  cases item with
  | carrier rec₀ =>
    obtain ⟨rfl, rfl⟩ := Prod.mk.inj hseal
    exact inbound_emit_carrier h hok hemit
  | hidden plain =>
    obtain ⟨rfl, rfl⟩ := Prod.mk.inj hseal
    exact inbound_emit_hidden h hok hemit

end Step

/-! ### What is on its way -/

section Run

variable (cfg : Config) (aead : Aead) (keyStream : Nat → UInt8) (version : UInt8 × UInt8)

/-- The records of some items, with the generator before and behind them. -/
inductive Queued : GoString → List Item → List Record → GoString → Prop
  | nil (nonce : GoString) : Queued nonce [] [] nonce
  | cons {nonce nonce' nonce'' : GoString} {item : Item} {items : List Item} {rec : Record}
      {recs : List Record} (hseal : sealItem cfg aead version nonce item = (nonce', rec))
      (hrest : Queued nonce' items recs nonce'') :
      Queued nonce (item :: items) (rec :: recs) nonce''

/-- The bytes of some items on the wire, with the state of the near end before and behind them. -/
inductive Sent : GoString → Tx → List Item → GoString → GoString → Tx → Prop
  | nil (nonce : GoString) (tx : Tx) : Sent nonce tx [] [] nonce tx
  | cons {nonce nonce' nonce'' : GoString} {tx tx' tx'' : Tx} {item : Item} {items : List Item}
      {rec rec' : Record} {wire : GoString}
      (hseal : sealItem cfg aead version nonce item = (nonce', rec))
      (hemit : emit cfg keyStream tx rec = (tx', rec'))
      (hrest : Sent nonce' tx' items wire nonce'' tx'') :
      Sent nonce tx (item :: items) (rec'.bytes ++ wire) nonce'' tx''

/-- The records of the carrier among some items. -/
def carried (items : List Item) : List Record :=
  items.flatMap fun
    | .carrier rec => [rec]
    | .hidden _ => []

/-- The bytes hidden in some items. -/
def hidden (items : List Item) : GoString :=
  items.flatMap fun
    | .carrier _ => []
    | .hidden plain => plain

/-- Everything that has gone in has come out or is on its way, and the ends are in step. The nonces
are the ones before what is on the wire, behind it, and behind the queue. -/
structure InFlight (st : State) (nonce nonce' last : GoString) (tx : Tx)
    (sent queued : List Item) : Prop where
  inStep : InStep cfg nonce tx st.rx
  ok : ∀ item ∈ sent ++ queued, item.Ok cfg aead
  onWire : Sent cfg aead keyStream version nonce tx sent st.wire nonce' st.tx
  inQueue : Queued cfg aead version nonce' queued st.queue last
  carrier_eq : st.carrier = st.forwarded ++ carried (sent ++ queued)
  written_eq : st.written =
    st.returned ++ st.readBuffer ++ st.readCh.flatten ++ hidden (sent ++ queued)

/-- What a run keeps; the generator is where the queue has left it as long as `live` holds. -/
def Invariant (live : Prop) (st : State) : Prop :=
  ∃ nonce nonce' last tx sent queued,
    InFlight cfg aead keyStream version st nonce nonce' last tx sent queued ∧
      (live → last = st.nonce)

variable {cfg aead keyStream version} {st : State} {nonce' nonce nonce'' last : GoString}
  {rec : Record} {items : List Item} {tx : Tx} {live live' : Prop}

@[simp] theorem carried_append (items items' : List Item) :
    carried (items ++ items') = carried items ++ carried items' :=
  flatMap_append

@[simp] theorem hidden_append (items items' : List Item) :
    hidden (items ++ items') = hidden items ++ hidden items' :=
  flatMap_append

theorem Queued.concat {recs : List Record} {item : Item}
    (h : Queued cfg aead version nonce items recs nonce')
    (hseal : sealItem cfg aead version nonce' item = (nonce'', rec)) :
    Queued cfg aead version nonce (items ++ [item]) (recs ++ [rec]) nonce'' := by
  induction h with
  | nil nonce => exact .cons hseal (.nil _)
  | cons h₀ _ ih => exact .cons h₀ (ih hseal)

theorem Sent.concat {tx' tx'' : Tx} {wire : GoString} {item : Item} {rec' : Record}
    (h : Sent cfg aead keyStream version nonce tx items wire nonce' tx')
    (hseal : sealItem cfg aead version nonce' item = (nonce'', rec))
    (hemit : emit cfg keyStream tx' rec = (tx'', rec')) :
    Sent cfg aead keyStream version nonce tx (items ++ [item]) (wire ++ rec'.bytes) nonce''
      tx'' := by
  induction h with
  | nil nonce tx =>
    rw [nil_append, nil_append, ← append_nil rec'.bytes]
    exact .cons hseal hemit (.nil _ _)
  | cons h₀ h₁ _ ih =>
    rw [cons_append, append_assoc]
    exact .cons h₀ h₁ (ih hseal hemit)

theorem Sent.eq_nil {tx' : Tx} (h : Sent cfg aead keyStream version nonce tx items [] nonce' tx') :
    items = [] := by
  generalize hwire : ([] : GoString) = wire at h
  cases h with
  | nil => rfl
  | cons => simp [Record.bytes] at hwire

/-- A new record goes to the end of the queue. -/
theorem InFlight.enqueue {sent queued : List Item}
    (h : InFlight cfg aead keyStream version st nonce nonce' last tx sent queued) (item : Item)
    (hok : item.Ok cfg aead) (hseal : sealItem cfg aead version last item = (nonce'', rec))
    {st' : State} (hst : st' = { st with
      near := st'.near, writing := st'.writing, nonce := st'.nonce, queue := st.queue ++ [rec]
      carrier := st.carrier ++ carried [item], written := st.written ++ hidden [item] }) :
    InFlight cfg aead keyStream version st' nonce nonce' nonce'' tx sent (queued ++ [item]) := by
  rw [hst]
  refine ⟨h.inStep, ?_, h.onWire, h.inQueue.concat hseal, ?_, ?_⟩
  · intro other hother
    rw [← append_assoc, mem_append, mem_singleton] at hother
    obtain hother | rfl := hother
    · exact h.ok other hother
    · exact hok
  · show st.carrier ++ carried [item] = _
    rw [h.carrier_eq]
    simp
  · show st.written ++ hidden [item] = _
    rw [h.written_eq]
    simp

theorem Invariant.mono (hlive : live' → live) (h : Invariant cfg aead keyStream version live st) :
    Invariant cfg aead keyStream version live' st := by
  obtain ⟨nonce, nonce', last, tx, sent, queued, hflight, hlast⟩ := h
  exact ⟨nonce, nonce', last, tx, sent, queued, hflight, hlast ∘ hlive⟩

section

variable (h : Invariant cfg aead keyStream version live st)
include h

theorem Invariant.carrier (hf : Foreign cfg aead rec)
    (hback : (st.step cfg aead keyStream version (.carrier rec)).fellBack = false) :
    Invariant cfg aead keyStream version live
      (st.step cfg aead keyStream version (.carrier rec)) := by
  obtain ⟨nonce, nonce', last, tx, sent, queued, hflight, hlast⟩ := h
  rw [State.step] at hback ⊢
  split at hback
  · cases hback
  · next hpass =>
    rw [if_neg hpass]
    exact ⟨nonce, nonce', last, tx, sent, queued ++ [.carrier rec],
      hflight.enqueue (.carrier rec) hf rfl (by simp [carried, hidden]), hlast⟩

theorem Invariant.write (b : GoString) : Invariant cfg aead keyStream version live
    (st.step cfg aead keyStream version (.write b)) := by
  obtain ⟨nonce, nonce', last, tx, sent, queued, hflight, hlast⟩ := h
  refine ⟨nonce, nonce', last, tx, sent, queued, ?_⟩
  rw [State.step]
  split
  · exact ⟨{ hflight with }, hlast⟩
  · exact ⟨hflight, hlast⟩

theorem Invariant.insert (hlive : live) :
    Invariant cfg aead keyStream version live (st.step cfg aead keyStream version .insert) := by
  obtain ⟨nonce, nonce', last, tx, sent, queued, hflight, hlast⟩ := h
  obtain rfl := hlast hlive
  rw [State.step]
  split
  · exact ⟨nonce, nonce', st.nonce, tx, sent, queued, hflight, fun _ => rfl⟩
  · have hlen : (st.writing.take cfg.maxPlaintext).length ≤ cfg.maxPlaintext := by
      rw [length_take]
      exact Nat.min_le_left _ _
    exact ⟨nonce, nonce', nextNonce st.nonce, tx, sent,
      queued ++ [.hidden (st.writing.take cfg.maxPlaintext)],
      hflight.enqueue (.hidden (st.writing.take cfg.maxPlaintext)) hlen rfl
        (by simp [carried, hidden]), fun _ => rfl⟩

/-- The generator has moved on from where the queue has left it, for good. -/
theorem Invariant.abandon :
    Invariant cfg aead keyStream version False (st.step cfg aead keyStream version .abandon) := by
  obtain ⟨nonce, nonce', last, tx, sent, queued, hflight, -⟩ := h
  refine ⟨nonce, nonce', last, tx, sent, queued, ?_, False.elim⟩
  rw [State.step]
  split
  · exact hflight
  · exact { hflight with }

theorem Invariant.send :
    Invariant cfg aead keyStream version live (st.step cfg aead keyStream version .send) := by
  obtain ⟨nonce, nonce', last, tx, sent, queued, hflight, hlast⟩ := h
  have hqueue := hflight.inQueue
  rw [State.step]
  split
  · exact ⟨nonce, nonce', last, tx, sent, queued, hflight, hlast⟩
  · next rec queue hcons =>
    rw [hcons] at hqueue
    cases hqueue with
    | @cons _ nonce₁ _ item items _ _ hseal hrest =>
      refine ⟨nonce, nonce₁, last, tx, sent ++ [item], items, ⟨hflight.inStep, ?_,
        hflight.onWire.concat hseal rfl, hrest, ?_, ?_⟩, hlast⟩
      · simpa using hflight.ok
      · simpa using hflight.carrier_eq
      · simpa using hflight.written_eq

theorem Invariant.receive (hback : (st.step cfg aead keyStream version .receive).fellBack = false) :
    Invariant cfg aead keyStream version live (st.step cfg aead keyStream version .receive) := by
  obtain ⟨nonce, nonce', last, tx, sent, queued, hflight, hlast⟩ := h
  have hwire := hflight.onWire
  generalize hw : st.wire = wire at hwire
  cases hwire with
  | nil =>
    have hnone : st.step cfg aead keyStream version .receive = st := by
      simp [State.step, hw, readRecord]
    rw [hnone]
    exact ⟨_, _, _, _, _, _, hflight, hlast⟩
  | @cons _ nonce₁ _ _ tx₁ _ item items rec rec' rest hseal hemit hrest =>
    obtain ⟨rx', hin, hstep, hlen⟩ :=
      inbound_emit hflight.inStep (hflight.ok item (by simp)) hseal hemit
    simp only [State.step, hw, readRecord_bytes hlen, hin] at hback ⊢
    split at hback
    · cases hback
    · next hpass =>
      rw [if_neg hpass]
      have hok : ∀ other ∈ items ++ queued, other.Ok cfg aead := fun other hother =>
        hflight.ok other (mem_cons_of_mem _ hother)
      have hcarrier := hflight.carrier_eq
      have hwritten := hflight.written_eq
      cases item with
      | carrier rec₀ | hidden plain =>
        refine ⟨nonce₁, nonce', last, tx₁, items, queued,
          ⟨hstep, hok, hrest, hflight.inQueue, ?_, ?_⟩, hlast⟩
        · simpa [carried, Item.verdict] using hcarrier
        · simpa [hidden, Item.verdict] using hwritten

theorem Invariant.read {size : Nat}
    (hsize : size ≠ 0) : Invariant cfg aead keyStream version live (st.read size) := by
  obtain ⟨nonce, nonce', last, tx, sent, queued, hflight, hlast⟩ := h
  have hwritten := hflight.written_eq
  refine ⟨nonce, nonce', last, tx, sent, queued, ?_⟩
  rw [State.read, if_neg hsize]
  split
  · exact ⟨hflight, hlast⟩
  · next data readCh hbuf hch =>
    refine ⟨{ hflight with written_eq := ?_ }, hlast⟩
    rw [hbuf, hch] at hwritten
    simpa using hwritten
  · next b data hbuf =>
    refine ⟨{ hflight with written_eq := ?_ }, hlast⟩
    rw [hbuf] at hwritten
    rw [append_assoc st.returned, take_append_drop]
    exact hwritten

end

@[simp] theorem read_fellBack (size : Nat) : (st.read size).fellBack = st.fellBack := by
  unfold State.read
  split
  · rfl
  · split <;> rfl

/-- A fallback is for good. -/
theorem fellBack_of_step {event : Event}
    (h : (st.step cfg aead keyStream version event).fellBack = false) : st.fellBack = false := by
  cases event with
  | carrier rec =>
    rw [State.step] at h
    split at h
    · cases h
    · exact h
  | write b | insert | abandon | send =>
    rw [State.step] at h
    split at h <;> exact h
  | receive =>
    rw [State.step] at h
    split at h
    · exact h
    · split at h
      · cases h
      · dsimp only at h
        split at h <;> exact h
  | read size => exact (read_fellBack size).symm.trans h

theorem fellBack_of_foldl {events : List Event}
    (h : (events.foldl (State.step cfg aead keyStream version) st).fellBack = false) :
    st.fellBack = false := by
  induction events generalizing st with
  | nil => exact h
  | cons event events ih => exact fellBack_of_step (ih h)

/-- What the events of a run have to meet. -/
def Event.Ok (cfg : Config) (aead : Aead) : Event → Prop
  | .carrier rec => Foreign cfg aead rec
  | .read size => size ≠ 0
  | _ => True

theorem Invariant.step (h : Invariant cfg aead keyStream version live st) {event : Event}
    (hok : event.Ok cfg aead) (hinsert : event = .insert → live)
    (hback : (st.step cfg aead keyStream version event).fellBack = false) :
    Invariant cfg aead keyStream version (live ∧ event ≠ .abandon)
      (st.step cfg aead keyStream version event) := by
  cases event with
  | carrier rec => exact (h.carrier hok hback).mono And.left
  | write b => exact (h.write b).mono And.left
  | insert => exact (h.insert (hinsert rfl)).mono And.left
  | abandon => exact h.abandon.mono fun hlive => hlive.2 rfl
  | send => exact h.send.mono And.left
  | receive => exact (h.receive hback).mono And.left
  | read size => exact (h.read hok).mono And.left

theorem invariant_start : Invariant cfg aead keyStream version live start :=
  ⟨newNonce, newNonce, newNonce, ⟨replicate 8 0, none⟩, [], [],
    ⟨⟨.inl ⟨rfl, rfl⟩, rfl, fun _ => rfl, rfl⟩, nofun, .nil _ _, .nil _, rfl, rfl⟩, fun _ => rfl⟩

/-- No record is inserted after an insertion was given up. -/
def NoneAfterAbandon (events : List Event) : Prop :=
  events.Pairwise fun event later => event = .abandon → later ≠ .insert

/-- The generator matters as long as insertions are to come. -/
theorem Invariant.foldl {events : List Event} (hok : ∀ event ∈ events, event.Ok cfg aead)
    (habandon : NoneAfterAbandon events)
    (h : Invariant cfg aead keyStream version (.insert ∈ events) st)
    (hback : (events.foldl (State.step cfg aead keyStream version) st).fellBack = false) :
    Invariant cfg aead keyStream version False
      (events.foldl (State.step cfg aead keyStream version) st) := by
  induction events generalizing st with
  | nil => exact h.mono False.elim
  | cons event events ih =>
    obtain ⟨hlater, habandon⟩ := pairwise_cons.mp habandon
    have hstep := h.step (hok event mem_cons_self) (fun he => he ▸ mem_cons_self)
      (fellBack_of_foldl hback)
    refine ih (fun other hother => hok other (mem_cons_of_mem _ hother)) habandon
      (hstep.mono fun hmem => ⟨mem_cons_of_mem _ hmem, fun he => ?_⟩) hback
    exact hlater _ hmem he rfl

theorem Invariant.transparent (h : Invariant cfg aead keyStream version live st) :
    Transparent st := by
  obtain ⟨nonce, nonce', last, tx, sent, queued, hflight, -⟩ := h
  refine ⟨⟨_, hflight.carrier_eq.symm⟩, ⟨_, hflight.written_eq.symm⟩, ?_⟩
  intro hqueue hwire
  have honWire := hflight.onWire
  have hinQueue := hflight.inQueue
  rw [hwire] at honWire
  rw [hqueue] at hinQueue
  obtain rfl := honWire.eq_nil
  cases hinQueue
  exact ⟨by simpa [carried] using hflight.carrier_eq.symm,
    by simpa [hidden] using hflight.written_eq.symm⟩

end Run

/-- In every run without a fallback in which no empty slice is read into and nothing is inserted
after an insertion was given up, the peer of the carrier sees the records of the carrier and `Read`
returns what was written. -/
theorem transparent_run (cfg : Config) (aead : Aead) (keyStream : Nat → UInt8)
    (version : UInt8 × UInt8) (events : List Event)
    (hcarrier : ∀ rec, .carrier rec ∈ events → Foreign cfg aead rec)
    (hread : ∀ size, .read size ∈ events → size ≠ 0) (habandon : NoneAfterAbandon events)
    (hback : (run cfg aead keyStream version events).fellBack = false) :
    Transparent (run cfg aead keyStream version events) := by
  refine (Invariant.foldl (fun event hevent => ?_) habandon invariant_start hback).transparent
  cases event with
  | carrier rec => exact hcarrier rec hevent
  | read size => exact hread size hevent
  | write b | insert | abandon | send | receive => trivial

/-- Sixteen bytes that show a nonce. -/
def tagOf (nonce : GoString) : GoString :=
  (nonce ++ List.replicate 8 0).take 8 ++ List.replicate 8 0xaa

def openTagged (nonce text : GoString) : Option GoString :=
  if text.drop (text.length - 16) = tagOf nonce then some (text.take (text.length - 16)) else none

/-- A cipher whose tag shows the nonce. -/
def tagged : Aead where
  sealWith nonce plain := plain ++ tagOf nonce
  openSealed := openTagged
  open_sealWith nonce plain := by simp [openTagged, tagOf]
  length_sealWith nonce plain := by simp [tagOf]

def carrierText : GoString := lit "sealed by the carrier for its own peer"

/-- A record of the carrier, then some events, two bytes that are hidden, and a call of `Read`. -/
def hiddenPair (between : List Event) (size : Nat) : List Event :=
  .carrier ⟨recordTypeApplicationData, (3, 3), carrierText, false⟩ ::
    (between ++ [.write [1, 2], .insert, .send, .send, .receive, .receive, .read size])

theorem foreign_carrierText :
    Foreign ⟨true, true, true⟩ tagged ⟨recordTypeApplicationData, (3, 3), carrierText, false⟩ := by
  refine ⟨rfl, by decide, by decide, fun nonce => if_neg fun htag => ?_⟩
  -- a tag ends in eight fixed bytes
  have hend : (tagOf nonce).drop 8 = List.replicate 8 0xaa := drop_left' (by simp)
  rw [← htag] at hend
  revert hend
  decide

/-- `Read` with an empty slice throws away what has arrived, and a record that is inserted after an
insertion was given up is forwarded to the peer of the carrier. -/
theorem not_transparent_hiddenPair :
    (¬ ∀ (cfg : Config) (aead : Aead) (keyStream : Nat → UInt8) (version : UInt8 × UInt8)
      (events : List Event), (∀ rec, .carrier rec ∈ events → Foreign cfg aead rec) →
      NoneAfterAbandon events → (run cfg aead keyStream version events).fellBack = false →
      Transparent (run cfg aead keyStream version events)) ∧
    ¬ ∀ (cfg : Config) (aead : Aead) (keyStream : Nat → UInt8) (version : UInt8 × UInt8)
      (events : List Event), (∀ rec, .carrier rec ∈ events → Foreign cfg aead rec) →
      (∀ size, .read size ∈ events → size ≠ 0) →
      (run cfg aead keyStream version events).fellBack = false →
      Transparent (run cfg aead keyStream version events) := by
  constructor
  · intro h
    have hrun := h ⟨true, true, true⟩ tagged (fun _ => 0x5a) (3, 3) (hiddenPair [] 0)
      (by simp [hiddenPair, foreign_carrierText]) (by simp [NoneAfterAbandon, hiddenPair])
      (by decide +kernel)
    have hread := (hrun.drained (by decide +kernel) (by decide +kernel)).2
    revert hread
    decide +kernel
  · intro h
    have hrun := h ⟨true, true, true⟩ tagged (fun _ => 0x5a) (3, 3)
      (hiddenPair [.write [0], .abandon] 1) (by simp [hiddenPair, foreign_carrierText])
      (by simp [hiddenPair]) (by decide +kernel)
    have hforwarded := (hrun.drained (by decide +kernel) (by decide +kernel)).1
    revert hforwarded
    decide +kernel

theorem transparent_hiddenPair :
    Transparent (run ⟨true, true, true⟩ tagged (fun _ => 0x5a) (3, 3)
      (hiddenPair [] 1 ++ [.write [3], .abandon])) :=
  transparent_run _ _ _ _ _ (by simp [hiddenPair, foreign_carrierText]) (by simp [hiddenPair])
    (by simp [NoneAfterAbandon, hiddenPair]) (by decide +kernel)

end Hako.TlsMirror
