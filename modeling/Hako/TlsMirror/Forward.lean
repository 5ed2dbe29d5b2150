import Hako.GoLib.Io
import Hako.TlsMirror.Mirror

/-!
# Forwarding before anything is inserted

A worker reads the bytes of one side and forwards them to the other. It forwards the first record
piece by piece while it waits for its end, then reads records and hands them to the goroutine that
writes them. Whenever it meets something that it does not understand it falls back to copying what
it has and what is still to come.

Both workers are modelled, as long as no record is inserted: then the hooks let every record pass
as it is. What the other worker has found out by now is part of an action.
-/

namespace Hako.TlsMirror.Forward

open GoLib GoLib.Binary List

/-! ### The first record -/

/-- Why a worker does not take its first bytes for a hello. -/
inductive FirstError where
  | recordType
  | version
  | tooLarge
deriving DecidableEq

inductive Peek where
  | needMore (n : Nat)
  | reject (err : FirstError)
  | record (rec : Record) (processed : Nat)
deriving DecidableEq

def versionOk (v₀ v₁ : UInt8) : Bool := v₀ = 1 || v₀ = 2 || (v₀ = 3 && v₁ ≤ 3)

def peekFirstHandshakeRecord : GoString → Peek
  | type :: v₀ :: v₁ :: l₀ :: l₁ :: rest =>
    if type ≠ recordTypeHandshake then .reject .recordType
    else if ¬ versionOk v₀ v₁ then .reject .version
    else if maxTLSRecordPayload < uint16 [l₀, l₁] then .reject .tooLarge
    else if rest.length < uint16 [l₀, l₁] then .needMore (5 + uint16 [l₀, l₁])
    else .record ⟨type, (v₀, v₁), rest.take (uint16 [l₀, l₁]), false⟩ (5 + uint16 [l₀, l₁])
  | _ => .needMore 5

/-- `parseClientRandom` -/
def parseClientRandom (fragment : GoString) : Option GoString :=
  if fragment.length < 38 ∨ fragment.head? ≠ some 1 then none
  else some ((fragment.take 38).drop 6)

/-- `parseServerHello` -/
def parseServerHello (fragment : GoString) : Option (GoString × Nat) :=
  if fragment.length < 41 ∨ fragment.head? ≠ some 2 then none
  else
    let cipherSuiteOffset := 39 + (fragment.getD 38 0).toNat
    if fragment.length < cipherSuiteOffset + 2 then none
    else
      some ((fragment.take 38).drop 6,
        uint16 [fragment.getD cipherSuiteOffset 0, fragment.getD (cipherSuiteOffset + 1) 0])

/-- The first record is a hello of its side. -/
def isHello (c2s : Bool) (fragment : GoString) : Bool :=
  if c2s then (parseClientRandom fragment).isSome else (parseServerHello fragment).isSome

/-! ### One direction -/

/-- `writeTask` -/
structure Task where
  record : Option Record
  raw : GoString
  fallback : Bool

/-- What the writer writes for a task. -/
def Task.bytes (task : Task) : GoString := (task.record.map Record.bytes).getD [] ++ task.raw

inductive Stage where
  /-- `captureFirstHandshakeRecord`, with the bytes that it has copied. -/
  | capture (buffer : GoString)
  /-- The worker has its first record and the bytes of it that are not forwarded. -/
  | hello (first : Record) (raw : GoString)
  /-- The worker reads records, unless it has finished, and the writer writes them. -/
  | mirroring (worker : Option Worker) (queue : List Task)
  /-- `copyFlush`, of the worker or of the writer. -/
  | copying
  | stopped

/-- The worker and the writer of one direction. -/
structure Relay where
  /-- What the source will still give. -/
  wire : Wire
  stage : Stage
  /-- What the buffered reader has read and nobody has taken. -/
  reader : GoString
  received : GoString
  forwarded : GoString
  /-- The copy has come to the end of the stream. -/
  copied : Bool

def start (wire : Wire) : Relay := ⟨wire, .capture [], [], [], [], false⟩

inductive Action where
  /-- A read of `captureFirstHandshakeRecord`, and what it does with it. -/
  | capture
  /-- The worker looks at its first record and forwards the rest of it. -/
  | hello
  /-- The buffered reader reads. -/
  | fill (n : Nat)
  /-- The worker reads a record, with what it sees of the other worker. -/
  | record (explicitReady tls12Explicit : Bool)
  /-- The writer takes a task. -/
  | write
  /-- The copy takes some bytes, -/
  | copy (n : Nat)
  /-- or meets the end of the stream. -/
  | finish
  /-- The worker finds its context done. -/
  | stopWorker
  /-- The writer does, or fails to write. -/
  | stopWriter

namespace Relay

def readBufferSize : Nat := 65536

/-- One read of the source into a buffer of some size. -/
def readPiece (s : Relay) (n : Nat) : GoString × Relay :=
  match s.wire with
  | [] => ([], s)
  | piece :: wire =>
    (piece.take n, { s with
      wire := if n < piece.length then piece.drop n :: wire else wire
      received := s.received ++ piece.take n })

def capture (s : Relay) (buffer : GoString) : Relay :=
  if s.wire = [] then { s with stage := .stopped }
  else
    let (read, s) := s.readPiece (readBufferSize - buffer.length)
    let copied := buffer.length
    let buffer := buffer ++ read
    match peekFirstHandshakeRecord buffer with
    | .reject _ => { s with forwarded := s.forwarded ++ buffer, stage := .copying }
    | .needMore _ => { s with forwarded := s.forwarded ++ read, stage := .capture buffer }
    | .record rec processed =>
      { s with
          stage := .hello rec ((buffer.take processed).drop copied)
          reader := buffer.drop processed }

/-- The first bytes of the reader are the header of a record that is too large. -/
def oversized : GoString → Bool
  | _ :: _ :: _ :: l₀ :: l₁ :: _ => maxTLSRecordPayload < uint16 [l₀, l₁]
  | _ => false

/-- The loop of a worker, for one record. -/
def record (c2s : Bool) (s : Relay) (worker : Worker) (queue : List Task)
    (explicitReady tls12Explicit : Bool) : Relay :=
  match readRecord s.reader with
  | some (rec, rest) =>
    if worker.FallsBack rec ∨
        c2s ∧ rec.recordType = recordTypeChangeCipherSpec ∧ ¬ explicitReady then
      { s with reader := rest, stage := .mirroring none (queue ++ [⟨some rec, [], true⟩]) }
    else
      { s with
          reader := rest
          stage := .mirroring (some (worker.pass ⟨false, false, tls12Explicit⟩ rec))
            (queue ++ [⟨some rec, [], false⟩]) }
  | none =>
    if oversized s.reader then
      { s with
          reader := s.reader.drop 5
          stage := .mirroring none (queue ++ [⟨none, s.reader.take 5, true⟩]) }
    else if s.wire = [] then
      { s with reader := [], stage := .mirroring none (queue ++ [⟨none, s.reader, true⟩]) }
    else s

/-- `recordWriter`, for one task. -/
def write (s : Relay) (worker : Option Worker) (task : Task) (queue : List Task) : Relay :=
  if task.record.map Record.recordType = some recordTypeAlert then
    -- an alert ends the connection
    { s with
        forwarded := s.forwarded ++ (task.record.map Record.bytes).getD []
        stage := .stopped }
  else
    { s with
        forwarded := s.forwarded ++ task.bytes
        stage := if task.fallback then .copying else .mirroring worker queue }

def step (c2s : Bool) (s : Relay) : Action → Relay
  | .capture =>
    match s.stage with
    | .capture buffer => s.capture buffer
    | _ => s
  | .hello =>
    match s.stage with
    | .hello first raw =>
      { s with
          forwarded := s.forwarded ++ raw
          stage := if isHello c2s first.fragment then .mirroring (some ⟨false, false⟩) []
            else .copying }
    | _ => s
  | .fill n =>
    match s.stage with
    | .mirroring _ _ | .copying =>
      let (read, s) := s.readPiece n
      { s with reader := s.reader ++ read }
    | _ => s
  | .record explicitReady tls12Explicit =>
    match s.stage with
    | .mirroring (some worker) queue => s.record c2s worker queue explicitReady tls12Explicit
    | _ => s
  | .write =>
    match s.stage with
    | .mirroring worker (task :: queue) => s.write worker task queue
    | _ => s
  | .copy n =>
    match s.stage with
    | .copying =>
      { s with forwarded := s.forwarded ++ s.reader.take n, reader := s.reader.drop n }
    | _ => s
  | .finish =>
    match s.stage with
    | .copying =>
      if s.reader = [] ∧ s.wire = [] then { s with stage := .stopped, copied := true } else s
    | _ => s
  | .stopWorker =>
    match s.stage with
    | .mirroring _ queue => { s with stage := .mirroring none queue }
    | _ => { s with stage := .stopped }
  | .stopWriter => { s with stage := .stopped }

def run (c2s : Bool) (s : Relay) (actions : List Action) : Relay := actions.foldl (step c2s) s

end Relay

/-- What is forwarded is a prefix of what was received, every byte at most once and in order, and
all of the stream once the copy has come to its end. -/
structure Exact (total : GoString) (s : Relay) : Prop where
  forwarded : s.forwarded <+: s.received
  received : s.received <+: total
  copied : s.copied = true → s.forwarded = total

/-- The first bytes are no hello record. -/
def Rejected (bytes : GoString) : Prop := ∃ err, peekFirstHandshakeRecord bytes = .reject err

/-- Some reads give fewer than five bytes, but not nothing. -/
def SplitStart (wire : Wire) : Prop :=
  ∃ k, 0 < (wire.take k).flatten.length ∧ (wire.take k).flatten.length < 5

/-! ### Records and their bytes -/

variable {rec : Record} {bytes : GoString} {n : Nat}

/-- A record that was read is the bytes that were there. -/
theorem bytes_of_readRecord {reader rest : GoString}
    (h : readRecord reader = some (rec, rest)) : rec.bytes ++ rest = reader := by
  unfold readRecord at h
  split at h
  · next type v₀ v₁ l₀ l₁ tail =>
    split at h
    · cases h
    · next hbound =>
      cases h
      rw [not_or, not_lt, not_lt] at hbound
      rw [Record.bytes, length_take, min_eq_left hbound.2, putUint16_uint16]
      simp only [cons_append, nil_append, take_append_drop]
  · cases h

/-- Whether the first bytes are rejected shows in five of them. -/
theorem rejected_append (h : 5 ≤ bytes.length) (more : GoString) :
    Rejected (bytes ++ more) ↔ Rejected bytes := by
  match bytes, h with
  | type :: v₀ :: v₁ :: l₀ :: l₁ :: rest, _ =>
    simp only [Rejected, cons_append, peekFirstHandshakeRecord]
    split
    · rfl
    · split
      · rfl
      · split
        · rfl
        · constructor
          · rintro ⟨err, herr⟩
            split at herr <;> cases herr
          · rintro ⟨err, herr⟩
            split at herr <;> cases herr

theorem five_le_of_rejected (h : Rejected bytes) : 5 ≤ bytes.length := by
  obtain ⟨err, herr⟩ := h
  unfold peekFirstHandshakeRecord at herr
  split at herr
  · simp only [length_cons]
    omega
  · cases herr

/-- Bytes that are not enough are few. -/
theorem length_of_needMore (h : peekFirstHandshakeRecord bytes = .needMore n) :
    bytes.length < n ∧ n ≤ 5 + maxTLSRecordPayload := by
  unfold peekFirstHandshakeRecord at h
  split at h
  · split at h
    · cases h
    · split at h
      · cases h
      · split at h
        · cases h
        · split at h
          · cases h
            simp only [length_cons]
            omega
          · cases h
  · next hshort =>
    cases h
    refine ⟨not_le.mp fun hle => ?_, by decide⟩
    match bytes, hle with
    | type :: v₀ :: v₁ :: l₀ :: l₁ :: rest, _ => exact hshort type v₀ v₁ l₀ l₁ rest rfl

theorem needMore_of_length (h : bytes.length < 5) :
    peekFirstHandshakeRecord bytes = .needMore 5 := by
  unfold peekFirstHandshakeRecord
  split
  · simp only [length_cons] at h
    omega
  · rfl

/-- The first record ends behind the bytes that were not enough for it. -/
theorem length_le_processed {more : GoString} {processed : Nat}
    (h : peekFirstHandshakeRecord bytes = .needMore n)
    (hrec : peekFirstHandshakeRecord (bytes ++ more) = .record rec processed) :
    bytes.length ≤ processed := by
  by_cases hshort : bytes.length < 5
  · unfold peekFirstHandshakeRecord at hrec
    split at hrec
    · split_ifs at hrec
      cases hrec
      omega
    · cases hrec
  · match bytes, not_lt.mp hshort with
    | type :: v₀ :: v₁ :: l₀ :: l₁ :: rest, _ =>
      simp only [peekFirstHandshakeRecord, cons_append] at h hrec
      split_ifs at h hrec
      cases hrec
      simp only [length_cons]
      omega

/-! ### What is on its way -/

/-- A task that falls back is the last one. -/
def FallbackLast (queue : List Task) : Prop :=
  ∀ before task after, queue = before ++ task :: after → task.fallback = true → after = []

theorem FallbackLast.tail {task : Task} {queue : List Task} (h : FallbackLast (task :: queue)) :
    FallbackLast queue :=
  fun before t after heq => h (task :: before) t after (by rw [heq, cons_append])

theorem fallbackLast_concat {queue : List Task} (h : ∀ task ∈ queue, task.fallback = false)
    (last : Task) : FallbackLast (queue ++ [last]) := by
  intro before task after heq hfallback
  obtain rfl | ⟨after', x, rfl⟩ := eq_nil_or_concat' after
  · rfl
  · -- a task with others behind it was queued before
    rw [← cons_append, ← append_assoc] at heq
    have hmem : task ∈ queue := by
      rw [append_inj_left' heq rfl]
      exact mem_append_right _ mem_cons_self
    rw [h task hmem] at hfallback
    cases hfallback

/-- If the first bytes are no hello, then no bytes are copied before they all are there. -/
def Whole (buffer : GoString) (wire : Wire) : Prop :=
  Rejected (buffer ++ wire.flatten) → buffer = [] ∧ ¬ SplitStart wire

/-- What is forwarded and what is on its way make up what was received. -/
def Relay.Accounted (s : Relay) : Stage → Prop
  | .capture buffer => s.forwarded = buffer ∧ s.received = buffer ∧ Whole buffer s.wire ∧
      ∃ n, peekFirstHandshakeRecord buffer = .needMore n
  | .hello _ raw => s.forwarded ++ raw ++ s.reader = s.received
  | .mirroring worker queue =>
    s.forwarded ++ queue.flatMap Task.bytes ++ s.reader = s.received ∧ FallbackLast queue ∧
      (worker.isSome → ∀ task ∈ queue, task.fallback = false)
  | .copying => s.forwarded ++ s.reader = s.received
  | .stopped => s.forwarded <+: s.received

structure Inv (total : GoString) (s : Relay) : Prop where
  stream : s.received ++ s.wire.flatten = total
  accounted : s.Accounted s.stage
  copied : s.copied = true → s.stage = .stopped ∧ s.forwarded = total
  reader : (∃ buffer, s.stage = .capture buffer) → s.reader = []

section Steps

variable {s : Relay} {total : GoString}

theorem Relay.Accounted.forwarded {stage : Stage} (h : s.Accounted stage) :
    s.forwarded <+: s.received := by
  cases stage with
  | capture buffer => exact ⟨[], by simp [h.1, h.2.1]⟩
  | hello first raw =>
    rw [← h, append_assoc]
    exact prefix_append _ _
  | mirroring worker queue =>
    rw [← h.1, append_assoc]
    exact prefix_append _ _
  | copying => exact ⟨_, h⟩
  | stopped => exact h

theorem Inv.account {stage : Stage} (h : Inv total s) (hs : s.stage = stage) : s.Accounted stage :=
  hs ▸ h.accounted

theorem Inv.exact (h : Inv total s) : Exact total s :=
  ⟨h.accounted.forwarded, ⟨_, h.stream⟩, fun hc => (h.copied hc).2⟩

/-- A step that leaves the copy where it was. -/
theorem Inv.of {s' : Relay} (h : Inv total s) (hs : s.stage ≠ .stopped)
    (hstream : s'.received ++ s'.wire.flatten = s.received ++ s.wire.flatten)
    (haccounted : s'.Accounted s'.stage) (hcopied : s'.copied = s.copied)
    (hreader : (∃ buffer, s'.stage = .capture buffer) → s'.reader = []) : Inv total s' where
  stream := hstream.trans h.stream
  accounted := haccounted
  copied hc := absurd (h.copied (hcopied ▸ hc)).1 hs
  reader := hreader

/-- One read takes its bytes off the front of the stream. -/
theorem flatten_readPiece (piece : GoString) (wire : Wire) (n : Nat) :
    piece.take n ++ (if n < piece.length then piece.drop n :: wire else wire).flatten =
      (piece :: wire).flatten := by
  rw [flatten_cons]
  split
  · rw [flatten_cons, ← append_assoc, take_append_drop]
  · next hshort => rw [take_of_length_le (not_lt.mp hshort)]

variable {buffer : GoString} {worker : Worker} {task : Task}

/-- A start that is no hello stays whole while it is not enough to tell. -/
theorem Whole.needMore {piece : GoString} {wire : Wire} (h : Whole buffer (piece :: wire))
    {size n : Nat} (hsize : 5 ≤ size)
    (hmore : peekFirstHandshakeRecord (buffer ++ piece.take size) = .needMore n) :
    Whole (buffer ++ piece.take size)
      (if size < piece.length then piece.drop size :: wire else wire) := by
  intro hrejected
  have htotal := flatten_readPiece piece wire size
  obtain ⟨rfl, hsplit⟩ := h (by rwa [← htotal, ← append_assoc])
  obtain rfl | hpiece := eq_or_ne piece []
  · -- nothing was read
    rw [if_neg (by simp)]
    refine ⟨take_nil, fun ⟨k, hk⟩ => hsplit ⟨k + 1, ?_⟩⟩
    rwa [take_succ_cons, flatten_cons, nil_append]
  · -- all five bytes were read, and they are enough
    have hlong : 5 ≤ piece.length := not_lt.mp fun hlt => hsplit
      ⟨1, by simpa using ⟨length_pos_iff.mpr hpiece, hlt⟩⟩
    have hread : 5 ≤ (piece.take size).length := by
      rw [length_take]
      exact Nat.le_min.mpr ⟨hsize, hlong⟩
    obtain ⟨err, herr⟩ := (rejected_append hread _).mp hrejected
    cases hmore.symm.trans herr

/-- What was copied of the first record, its rest and what is behind it. -/
theorem append_slices {bytes : GoString} {copied processed : Nat} (h : copied ≤ processed) :
    bytes.take copied ++ (bytes.take processed).drop copied ++ bytes.drop processed = bytes := by
  have htake : bytes.take copied = (bytes.take processed).take copied := by
    rw [take_take, min_eq_left h]
  rw [htake, take_append_drop, take_append_drop]

variable (h : Inv total s)
include h

theorem Inv.capture (hs : s.stage = .capture buffer) :
    Inv total (s.capture buffer) := by
  have hstage : s.stage ≠ .stopped := by
    rw [hs]
    nofun
  have hreader := h.reader ⟨buffer, hs⟩
  obtain ⟨hforwarded, hreceived, hwhole, n, hmore⟩ := h.account hs
  have hsize : 5 ≤ Relay.readBufferSize - buffer.length := by
    have hfew := length_of_needMore hmore
    simp only [Relay.readBufferSize, maxTLSRecordPayload] at hfew ⊢
    omega
  cases hwire : s.wire with
  | nil =>
    rw [Relay.capture, if_pos hwire]
    exact h.of hstage rfl h.accounted.forwarded rfl nofun
  | cons piece wire =>
    rw [Relay.capture, if_neg (by rw [hwire]; exact cons_ne_nil _ _)]
    simp only [Relay.readPiece, hwire]
    rw [hwire] at hwhole
    have hstream := flatten_readPiece piece wire (Relay.readBufferSize - buffer.length)
    generalize Relay.readBufferSize - buffer.length = size at hsize hstream
    have hstream' : s.received ++ piece.take size ++
        (if size < piece.length then piece.drop size :: wire else wire).flatten =
        s.received ++ s.wire.flatten := by
      rw [append_assoc, hstream, hwire]
    split
    · -- the start is no hello, so nothing of it was copied before
      next err herr =>
      have hnil : buffer = [] := by
        refine (hwhole ?_).1
        rw [← hstream, ← append_assoc]
        exact (rejected_append (five_le_of_rejected ⟨err, herr⟩) _).mpr ⟨err, herr⟩
      refine h.of hstage hstream' ?_ rfl nofun
      change s.forwarded ++ (buffer ++ piece.take size) ++ s.reader = s.received ++ piece.take size
      rw [hforwarded, hreceived, hreader, hnil, append_nil, nil_append]
    · next m hm =>
      refine h.of hstage hstream' ⟨?_, ?_, hwhole.needMore hsize hm, m, hm⟩ rfl fun _ => hreader
      · exact congrArg (· ++ _) hforwarded
      · exact congrArg (· ++ _) hreceived
    · next rec processed hrecord =>
      refine h.of hstage hstream' ?_ rfl nofun
      change s.forwarded ++ ((buffer ++ piece.take size).take processed).drop buffer.length ++
        (buffer ++ piece.take size).drop processed = s.received ++ piece.take size
      have hslices := @append_slices (buffer ++ piece.take size) _ _
        (length_le_processed hmore hrecord)
      rw [take_left] at hslices
      rw [hforwarded, hreceived, hslices]

theorem Inv.hello {first : Record} {raw : GoString}
    (hs : s.stage = .hello first raw) (c2s : Bool) : Inv total (s.step c2s .hello) := by
  have haccounted := h.account hs
  have hstage : s.stage ≠ .stopped := by
    rw [hs]
    nofun
  simp only [Relay.step, hs]
  split
  · refine h.of hstage rfl ⟨?_, ?_, fun _ => nofun⟩ rfl nofun
    · change s.forwarded ++ raw ++ [] ++ s.reader = s.received
      rw [append_nil, haccounted]
    · exact fun before task after heq => absurd heq (by simp)
  · exact h.of hstage rfl haccounted rfl nofun

/-- The buffered reader puts what it reads behind what it has. -/
theorem Inv.fill (n : Nat)
    (hs : (∃ worker queue, s.stage = .mirroring worker queue) ∨ s.stage = .copying) :
    Inv total { (s.readPiece n).2 with
      reader := (s.readPiece n).2.reader ++ (s.readPiece n).1 } := by
  have hstage : s.stage ≠ .stopped := by
    rintro hstopped
    obtain ⟨worker, queue, hmirroring⟩ | hcopying := hs
    · cases hstopped.symm.trans hmirroring
    · cases hstopped.symm.trans hcopying
  have hnocapture : ∀ buffer, s.stage ≠ .capture buffer := by
    rintro buffer hcapture
    obtain ⟨worker, queue, hmirroring⟩ | hcopying := hs
    · cases hcapture.symm.trans hmirroring
    · cases hcapture.symm.trans hcopying
  have haccounted := h.accounted
  unfold Relay.readPiece
  split
  · refine h.of hstage rfl ?_ rfl fun ⟨buffer, hc⟩ => absurd hc (hnocapture buffer)
    rw [append_nil]
    exact haccounted
  · next piece wire hwire =>
    refine h.of hstage ?_ ?_ rfl fun ⟨buffer, hc⟩ => absurd hc (hnocapture buffer)
    · dsimp only
      rw [append_assoc, flatten_readPiece, hwire]
    · unfold Relay.Accounted at haccounted ⊢
      obtain ⟨worker, queue, hmirroring⟩ | hcopying := hs
      · rw [hmirroring] at haccounted ⊢
        refine ⟨?_, haccounted.2⟩
        rw [← append_assoc, haccounted.1]
      · rw [hcopying] at haccounted ⊢
        rw [← append_assoc, haccounted]

/-- The worker puts a task into the queue, with bytes that it takes from the reader. -/
theorem Inv.queue {queue : List Task}
    (hs : s.stage = .mirroring (some worker) queue) {rest : GoString}
    (hbytes : task.bytes ++ rest = s.reader) {worker' : Option Worker}
    (hworker : worker'.isSome → task.fallback = false) :
    Inv total { s with reader := rest, stage := .mirroring worker' (queue ++ [task]) } := by
  obtain ⟨hbalance, -, hnone⟩ := h.account hs
  have hnone := hnone rfl
  refine h.of (by rw [hs]; nofun) rfl ⟨?_, fallbackLast_concat hnone task, fun hw => ?_⟩ rfl nofun
  · dsimp only
    rw [flatMap_append, flatMap_singleton, append_assoc, append_assoc, hbytes,
      ← append_assoc, hbalance]
  · exact forall_mem_append.mpr ⟨hnone, forall_mem_singleton.mpr (hworker hw)⟩

theorem Inv.record {queue : List Task}
    (hs : s.stage = .mirroring (some worker) queue) (c2s explicitReady tls12Explicit : Bool) :
    Inv total (s.record c2s worker queue explicitReady tls12Explicit) := by
  unfold Relay.record
  split
  · next rec rest hread =>
    have hbytes := bytes_of_readRecord hread
    split
    · exact h.queue hs (by rw [← hbytes, Task.bytes]; simp) nofun
    · exact h.queue hs (by rw [← hbytes, Task.bytes]; simp) fun _ => rfl
  · split
    · exact h.queue hs (take_append_drop 5 s.reader) nofun
    · split
      · exact h.queue hs (append_nil s.reader) nofun
      · exact h

theorem Inv.write {worker : Option Worker} {queue : List Task}
    (hs : s.stage = .mirroring worker (task :: queue)) : Inv total (s.write worker task queue) := by
  have hstage : s.stage ≠ .stopped := by
    rw [hs]
    nofun
  obtain ⟨hbalance, hlast, hnone⟩ := h.account hs
  rw [flatMap_cons] at hbalance
  unfold Relay.write
  split
  · refine h.of hstage rfl ?_ rfl nofun
    rw [Relay.Accounted, ← hbalance, Task.bytes]
    exact ⟨task.raw ++ (queue.flatMap Task.bytes ++ s.reader), by simp only [append_assoc]⟩
  · refine h.of hstage rfl ?_ rfl ?_
    · unfold Relay.Accounted
      cases hfallback : task.fallback with
      | true =>
        -- nothing is queued behind a fallback
        obtain rfl := hlast [] task queue rfl hfallback
        rw [flatMap_nil, append_nil] at hbalance
        rwa [if_pos rfl]
      | false =>
        rw [if_neg Bool.false_ne_true]
        refine ⟨?_, hlast.tail, fun hw t ht => hnone hw t (mem_cons_of_mem _ ht)⟩
        rw [← hbalance, append_assoc s.forwarded]
    · rintro ⟨buffer, hcapture⟩
      dsimp only at hcapture
      split at hcapture <;> cases hcapture

theorem Inv.step (c2s : Bool) (action : Action) :
    Inv total (s.step c2s action) := by
  have hstopped : Inv total { s with stage := .stopped } := by
    by_cases hs : s.stage = .stopped
    · rw [← hs]
      exact h
    · exact h.of hs rfl h.accounted.forwarded rfl nofun
  cases action with
  | capture =>
    rw [Relay.step]
    split
    · next buffer hs => exact h.capture hs
    · exact h
  | hello =>
    cases hs : s.stage with
    | hello first raw => exact h.hello hs c2s
    | _ =>
      simp only [Relay.step, hs]
      exact h
  | fill n =>
    rw [Relay.step]
    split
    · next worker queue hs => exact h.fill n (.inl ⟨worker, queue, hs⟩)
    · next hs => exact h.fill n (.inr hs)
    · exact h
  | record explicitReady tls12Explicit =>
    rw [Relay.step]
    split
    · next worker queue hs => exact h.record hs c2s explicitReady tls12Explicit
    · exact h
  | write =>
    rw [Relay.step]
    split
    · next worker task queue hs => exact h.write hs
    · exact h
  | copy n =>
    rw [Relay.step]
    split
    · next hs =>
      have haccounted := h.account hs
      refine h.of (by rw [hs]; nofun) rfl ?_ rfl fun ⟨buffer, hc⟩ => nomatch hs.symm.trans hc
      simp only [Relay.Accounted, hs]
      rw [append_assoc, take_append_drop, haccounted]
    · exact h
  | finish =>
    rw [Relay.step]
    split
    · next hs =>
      split
      · next hend =>
        have haccounted := h.account hs
        rw [Relay.Accounted, hend.1, append_nil] at haccounted
        have hstream := h.stream
        rw [hend.2, flatten_nil, append_nil] at hstream
        refine ⟨h.stream, ?_, fun _ => ⟨rfl, haccounted.trans hstream⟩, nofun⟩
        exact h.accounted.forwarded
      · exact h
    · exact h
  | stopWorker =>
    rw [Relay.step]
    split
    · next worker queue hs =>
      have haccounted := h.account hs
      exact h.of (by rw [hs]; nofun) rfl ⟨haccounted.1, haccounted.2.1, nofun⟩ rfl nofun
    · exact hstopped
  | stopWriter => exact hstopped

theorem Inv.run (c2s : Bool) (actions : List Action) :
    Inv total (s.run c2s actions) := by
  induction actions generalizing s with
  | nil => exact h
  | cons action actions ih => exact ih (h.step c2s action)

end Steps

theorem inv_start {wire : Wire} (h : ¬(Rejected wire.flatten ∧ SplitStart wire)) :
    Inv wire.flatten (start wire) where
  stream := rfl
  accounted := ⟨rfl, rfl, fun hrejected => ⟨rfl, fun hsplit => h ⟨hrejected, hsplit⟩⟩, 5, rfl⟩
  copied := nofun
  reader _ := rfl

/-! ### A start in pieces -/

/-- A worker that has forwarded some bytes forwards them again when it sees that they are the start
of no hello. -/
theorem forwards_twice (c2s : Bool) {s : Relay} {buffer : GoString} (hs : s.stage = .capture buffer)
    (hforwarded : s.forwarded = buffer) (hreceived : s.received = buffer)
    (hshort : buffer.length < 5) (hrejected : Rejected (buffer ++ s.wire.flatten))
    (hsplit : buffer ≠ [] ∨ SplitStart s.wire) :
    ∃ actions, ¬ (s.run c2s actions).forwarded <+: (s.run c2s actions).received := by
  induction hwire : s.wire generalizing s buffer with
  | nil =>
    rw [hwire, flatten_nil, append_nil] at hrejected
    exact absurd (five_le_of_rejected hrejected) (not_le.mpr hshort)
  | cons piece wire ih =>
    rw [hwire] at hrejected hsplit
    have hsize : 5 < Relay.readBufferSize - buffer.length := by
      simp only [Relay.readBufferSize]
      omega
    have hstep : s.step c2s .capture = s.capture buffer := by rw [Relay.step, hs]
    have hcapture := hstep
    rw [Relay.capture, if_neg (by rw [hwire]; exact cons_ne_nil _ _)] at hcapture
    simp only [Relay.readPiece, hwire] at hcapture
    generalize Relay.readBufferSize - buffer.length = size at hsize hcapture
    by_cases hfew : (buffer ++ piece).length < 5
    · -- still not enough to tell
      have hlen : piece.length ≤ size := by
        rw [length_append] at hfew
        omega
      rw [take_of_length_le hlen, if_neg (not_lt.mpr hlen), needMore_of_length hfew] at hcapture
      rw [flatten_cons, ← append_assoc] at hrejected
      have hsplit' : buffer ++ piece ≠ [] ∨ SplitStart wire := by
        by_cases hpiece : buffer ++ piece = []
        · obtain ⟨hbuffer, rfl⟩ := append_eq_nil_iff.mp hpiece
          obtain hne | ⟨k, hk⟩ := hsplit
          · exact absurd hbuffer hne
          · cases k with
            | zero => exact absurd hk.1 (by simp)
            | succ k => exact .inr ⟨k, by simpa using hk⟩
        · exact .inl hpiece
      obtain ⟨actions, hnot⟩ := ih (s := s.step c2s .capture) (by rw [hcapture])
        (by rw [hcapture]; exact congrArg (· ++ piece) hforwarded)
        (by rw [hcapture]; exact congrArg (· ++ piece) hreceived) hfew
        (by rw [hcapture]; exact hrejected) (by rw [hcapture]; exact hsplit') (by rw [hcapture])
      exact ⟨.capture :: actions, hnot⟩
    · have hne : buffer ≠ [] := by
        rintro rfl
        obtain hne | ⟨k, hk⟩ := hsplit
        · exact hne rfl
        · cases k with
          | zero => exact absurd hk.1 (by simp)
          | succ k =>
            rw [take_succ_cons, flatten_cons, length_append] at hk
            rw [nil_append] at hfew
            omega
      have hread : 5 ≤ (buffer ++ piece.take size).length := by
        rw [length_append, length_take] at *
        omega
      obtain ⟨err, herr⟩ : Rejected (buffer ++ piece.take size) := by
        refine (rejected_append hread (piece.drop size ++ wire.flatten)).mp ?_
        rwa [append_assoc, ← append_assoc (piece.take size), take_append_drop]
      rw [herr] at hcapture
      refine ⟨[.capture], fun hstart => ?_⟩
      have hlength := hstart.length_le
      change (s.step c2s .capture).forwarded.length ≤ (s.step c2s .capture).received.length
        at hlength
      rw [hcapture] at hlength
      simp only [hforwarded, hreceived, length_append] at hlength
      have hpos := length_pos_iff.mpr hne
      omega

/-- In both directions and for all streams, however they are divided into reads: all runs forward
what they receive if and only if it is not so that the stream starts with five bytes that are no
hello record and some of them come before the others. -/
theorem forwards_iff (c2s : Bool) (wire : Wire) :
    (∀ actions, Exact wire.flatten ((start wire).run c2s actions)) ↔
      ¬(Rejected wire.flatten ∧ SplitStart wire) := by
  constructor
  · rintro h ⟨hrejected, hsplit⟩
    obtain ⟨actions, hnot⟩ := @forwards_twice c2s (start wire) [] rfl rfl rfl (by decide) hrejected
      (.inr hsplit)
    exact hnot (h actions).forwarded
  · intro h actions
    exact ((inv_start h).run c2s actions).exact

/-- `GET /` in two reads: the first three bytes are forwarded twice. -/
theorem start_forwarded_twice :
    ((start [lit "GET", lit " /"]).run true [.capture, .capture]).forwarded = lit "GETGET /" ∧
      ¬ Exact (lit "GET /") ((start [lit "GET", lit " /"]).run true [.capture, .capture]) := by
  refine ⟨by decide, fun hexact => ?_⟩
  have hprefix := hexact.forwarded
  revert hprefix
  decide

end Hako.TlsMirror.Forward
