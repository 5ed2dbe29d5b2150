import Hako.GoLib.Codec
import Hako.GoLib.Binary
import Hako.GoLib.Io
import Hako.Lib.Reads
import Hako.Sudoku.Record

/-!
# Record connections on a reliable channel

The bytes of a record on the wire are its length, its header and its ciphertext. With nobody in
between, a reader finds the records as they were sealed, and gives their contents or says what it
has against their position.

The epoch is a number of 32 bits that starts anywhere and is counted up by key updates, and the
reader takes a lower epoch for an old one. So the contents arrive if and only if no record is sealed
after the epoch has wrapped around.
-/

namespace Hako.Sudoku.Record

open GoLib Lib Binary List Nat Receiver Sealed Sender

/-! ### On the wire -/

def header (epoch : UInt32) (seq : UInt64) : List UInt8 := putUint32 epoch ++ putUint64 seq

theorem length_header (epoch : UInt32) (seq : UInt64) :
    (header epoch seq).length = recordHeaderSize := by
  rw [header, length_append, length_putUint32, length_putUint64]
  rfl

theorem uint32_header (epoch : UInt32) (seq : UInt64) : uint32 (header epoch seq) = epoch :=
  uint32_putUint32 ..

theorem uint64_header (epoch : UInt32) (seq : UInt64) :
    uint64 ((header epoch seq).drop 4) = seq := by
  rw [header, drop_left' (length_putUint32 epoch), ← append_nil (putUint64 seq), uint64_putUint64]

variable {epoch : UInt32} {seq : UInt64} {ku : Int64} {log : List Sealed} {s : Sender}

theorem header_inj {epoch' : UInt32} {seq' : UInt64} :
    header epoch seq = header epoch' seq' ↔ epoch = epoch' ∧ seq = seq' := by
  refine ⟨fun h => ⟨?_, ?_⟩, fun ⟨hepoch, hseq⟩ => by rw [hepoch, hseq]⟩
  · rw [← uint32_header epoch seq, h, uint32_header]
  · rw [← uint64_header epoch seq, h, uint64_header]

/-- Why `Read` fails. -/
inductive ReadError where
  | frameTooShort
  | frameTooLarge
  | replayedEpoch (got want : UInt32)
  | outOfOrder (epoch : UInt32) (got want : UInt64)
  | epochJump (got : UInt32)
  | decryptionFailed (epoch : UInt32) (seq : UInt64)
  | eof
deriving DecidableEq

/-- What calls of `Read` give, one after the other. -/
inductive Item where
  | byte (b : UInt8)
  | error (err : ReadError)
deriving DecidableEq

/-- The error of `validateRecvPosition`. -/
def Receiver.positionError (r : Receiver) (epoch : UInt32) (seq : UInt64) : Option ReadError :=
  if ¬ r.recvInitialized then none
  else if epoch < r.recvEpoch then some (.replayedEpoch epoch r.recvEpoch)
  else if epoch = r.recvEpoch ∧ seq ≠ r.recvSeq then some (.outOfOrder epoch seq r.recvSeq)
  else if r.recvEpoch < epoch ∧ 8 < epoch - r.recvEpoch then some (.epochJump (epoch - r.recvEpoch))
  else none

theorem Receiver.positionError_eq_none {r : Receiver} :
    r.positionError epoch seq = none ↔ r.validateRecvPosition epoch seq = true := by
  rw [positionError, validateRecvPosition]
  split_ifs <;> simp

/-- `readBuf.Read` -/
def Receiver.drain (n : Nat) (r : Receiver) : List Item × Receiver :=
  if r.readBuf = [] then (if n = 0 then [] else [.error .eof], r)
  else ((r.readBuf.take n).map .byte, { r with readBuf := r.readBuf.drop n })

section Conn

variable {K : Type*} (cipherOf : K → AEAD) (deriveEpochKey : UInt32 → K)

/-- The bytes that `Write` sends for a record. -/
def Sealed.frame (record : Sealed) : List UInt8 :=
  putUint16 (recordHeaderSize + (record.plain.length + overhead)) ++
    (header record.epoch record.seq ++ (cipherOf (deriveEpochKey record.epoch)).sealText
      (header record.epoch record.seq) record.plain (header record.epoch record.seq))

/-- `Read` from where it has the body of a record. -/
def Receiver.readRecord (n : Nat) (body : List UInt8) (r : Receiver) : List Item × Receiver :=
  let header := body.take recordHeaderSize
  let ciphertext := body.drop recordHeaderSize
  let epoch := uint32 header
  let seq := uint64 (header.drop 4)
  match r.positionError epoch seq with
  | some err => ([.error err], r)
  | none =>
    match (cipherOf (deriveEpochKey epoch)).openText header ciphertext header with
    | none => ([.error (.decryptionFailed epoch seq)], r)
    | some plaintext => { r.markRecvPosition epoch seq with readBuf := plaintext }.drain n

/-- The reading half of a connection. -/
structure RecordConn where
  wire : Wire
  receiver : Receiver

/-- `Read` into a slice of `n` bytes; none while it waits for the wire. -/
def RecordConn.read (n : Nat) (c : RecordConn) : Option (List Item × RecordConn) :=
  if c.receiver.readBuf ≠ [] then
    let (items, receiver) := c.receiver.drain n
    some (items, { c with receiver := receiver })
  else do
    let (lenBuf, wire) ← c.wire.readFull 2
    let bodyLen := uint16 lenBuf
    if bodyLen < recordHeaderSize then some ([.error .frameTooShort], { c with wire := wire })
    else if maxFrameBodySize < bodyLen then
      some ([.error .frameTooLarge], { c with wire := wire })
    else do
      let (body, wire) ← wire.readFull bodyLen
      let (items, receiver) := c.receiver.readRecord cipherOf deriveEpochKey n body
      some (items, ⟨wire, receiver⟩)

/-! ### What a reader tells of the records -/

/-- What a reader gives for the records that are to come. -/
def Receiver.told (r : Receiver) : List Sealed → List Item
  | [] => []
  | record :: records =>
    match r.positionError record.epoch record.seq with
    | some err => .error err :: r.told records
    | none =>
      record.plain.map .byte ++ (r.markRecvPosition record.epoch record.seq).told records

theorem Receiver.told_withBuf (r : Receiver) (readBuf : List UInt8) (records : List Sealed) :
    ({ r with readBuf := readBuf } : Receiver).told records = r.told records := by
  induction records generalizing r with
  | nil => rfl
  | cons record records ih =>
    have hsame : ({ r with readBuf := readBuf } : Receiver).positionError record.epoch record.seq =
        r.positionError record.epoch record.seq := rfl
    rw [told, told, hsame]
    cases r.positionError record.epoch record.seq with
    | none => exact congrArg _ (ih (r.markRecvPosition record.epoch record.seq))
    | some err => exact congrArg _ (ih r)

/-- The contents of the records that `Write` seals. -/
def Sized (records : List Sealed) : Prop :=
  ∀ record ∈ records, record.plain ≠ [] ∧ record.plain.length ≤ maxPlain

/-- A connection has the bytes of its buffer left to give, and what it tells of the records. -/
inductive Left : RecordConn → List Item → Prop
  | mk {c : RecordConn} {records : List Sealed} (hsized : Sized records)
    (hwire : c.wire.flatten = records.flatMap (frame cipherOf deriveEpochKey)) :
    Left c (c.receiver.readBuf.map .byte ++ c.receiver.told records)

variable {cipherOf deriveEpochKey} {c : RecordConn} {n : Nat}
  {r : Receiver} {record : Sealed} {records : List Sealed}

theorem Receiver.drain_eq (h : r.readBuf ≠ []) (n : Nat) :
    r.drain n = ((r.readBuf.take n).map .byte, { r with readBuf := r.readBuf.drop n }) := if_neg h

/-- The body of a record, as it was sealed. -/
theorem readRecord_frame (n : Nat) (record : Sealed) (r : Receiver) :
    r.readRecord cipherOf deriveEpochKey n (header record.epoch record.seq ++
      (cipherOf (deriveEpochKey record.epoch)).sealText (header record.epoch record.seq)
        record.plain (header record.epoch record.seq)) =
      match r.positionError record.epoch record.seq with
      | some err => ([.error err], r)
      | none =>
        { r.markRecvPosition record.epoch record.seq with readBuf := record.plain }.drain n := by
  have hlength := length_header record.epoch record.seq
  simp only [readRecord, take_left' hlength, drop_left' hlength, uint32_header,
    uint64_header, AEAD.openText_sealText]

theorem read_frame (hbuf : c.receiver.readBuf = []) {record : Sealed} {rest : List UInt8}
    (hmax : record.plain.length ≤ maxPlain)
    (hwire : c.wire.flatten = record.frame cipherOf deriveEpochKey ++ rest) (n : Nat) :
    ∃ wire', wire'.flatten = rest ∧ c.read cipherOf deriveEpochKey n =
      match c.receiver.positionError record.epoch record.seq with
      | some err => some ([.error err], ⟨wire', c.receiver⟩)
      | none =>
        let (items, receiver) := { c.receiver.markRecvPosition record.epoch record.seq with
          readBuf := record.plain }.drain n
        some (items, ⟨wire', receiver⟩) := by
  rw [frame, append_assoc] at hwire
  obtain ⟨wire₁, hread₁, hwire₁⟩ := Wire.readFull_of_flatten hwire (length_putUint16 _)
  have hlen : recordHeaderSize + (record.plain.length + overhead) ≤ maxFrameBodySize := by
    simp only [maxPlain, recordHeaderSize, overhead, maxFrameBodySize] at hmax ⊢
    omega
  have hbodyLen := uint16_putUint16 (lt_succ_of_le hlen) []
  rw [append_nil] at hbodyLen
  obtain ⟨wire₂, hread₂, hwire₂⟩ := @Wire.readFull_of_flatten
    (recordHeaderSize + (record.plain.length + overhead)) _ _ _ hwire₁ (by
      rw [length_append, length_header, AEAD.length_sealText]
      rfl)
  refine ⟨wire₂, hwire₂, ?_⟩
  rw [RecordConn.read, if_neg (not_not.mpr hbuf)]
  simp only [hread₁, Option.bind_eq_bind, Option.bind_some, hbodyLen]
  rw [if_neg (not_lt.mpr (le_add_right ..)), if_neg (not_lt.mpr hlen), hread₂,
    Option.bind_some, readRecord_frame]
  cases c.receiver.positionError record.epoch record.seq with
  | none => rfl
  | some err => rfl

/-- One call on a connection that has a record to read. -/
theorem read_step (hbuf : c.receiver.readBuf = []) (hsized : Sized (record :: records))
    (hwire : c.wire.flatten = (record :: records).flatMap (frame cipherOf deriveEpochKey))
    (n : Nat) :
    ∃ out rest c', c.read cipherOf deriveEpochKey n = some (out, c') ∧
      c.receiver.told (record :: records) = out ++ rest ∧
      Left cipherOf deriveEpochKey c' rest ∧ (0 < n → out ≠ []) := by
  obtain ⟨⟨hplain, hmax⟩, hrest⟩ := forall_mem_cons.mp hsized
  obtain ⟨wire', hwire', hread⟩ := read_frame hbuf hmax (by rw [hwire, flatMap_cons]) n
  rw [told]
  cases hpos : c.receiver.positionError record.epoch record.seq with
  | some err =>
    rw [hpos] at hread
    refine ⟨[.error err], _, _, hread, rfl, ?_, fun _ => cons_ne_nil _ _⟩
    have hleft := @Left.mk _ cipherOf deriveEpochKey ⟨wire', c.receiver⟩ records hrest hwire'
    rwa [hbuf] at hleft
  | none =>
    rw [hpos, drain_eq hplain] at hread
    have hleft := @Left.mk _ cipherOf deriveEpochKey
      ⟨wire', { c.receiver.markRecvPosition record.epoch record.seq with
        readBuf := record.plain.drop n }⟩ records hrest hwire'
    rw [told_withBuf] at hleft
    refine ⟨_, _, _, hread, ?_, hleft, fun hn hout => ?_⟩
    · rw [← append_assoc, ← map_append, take_append_drop]
    · rw [map_eq_nil_iff, take_eq_nil_iff] at hout
      exact hout.elim (ne_of_gt hn) hplain

theorem read_left {items : List Item} (hleft : Left cipherOf deriveEpochKey c items)
    (hitems : items ≠ []) (n : Nat) :
    ∃ out rest c', c.read cipherOf deriveEpochKey n = some (out, c') ∧ items = out ++ rest ∧
      Left cipherOf deriveEpochKey c' rest ∧ (0 < n → out ≠ []) := by
  cases hleft with | @mk records hsized hwire => ?_
  by_cases hbuf : c.receiver.readBuf = []
  · cases records with
    | nil =>
      rw [hbuf] at hitems
      exact absurd rfl hitems
    | cons record records =>
      rw [hbuf]
      exact read_step hbuf hsized hwire n
  · refine ⟨_, (c.receiver.readBuf.drop n).map .byte ++ c.receiver.told records, _,
      by rw [RecordConn.read, if_pos hbuf, drain_eq hbuf], ?_, ?_, fun hn hout => ?_⟩
    · rw [← append_assoc, ← map_append, take_append_drop]
    · rw [← told_withBuf c.receiver (c.receiver.readBuf.drop n)]
      exact @Left.mk _ cipherOf deriveEpochKey { c with
        receiver := { c.receiver with readBuf := c.receiver.readBuf.drop n } } records hsized hwire
    · rw [map_eq_nil_iff, take_eq_nil_iff] at hout
      exact hout.elim (ne_of_gt hn) hbuf

theorem told_ne_nil (hplain : record.plain ≠ []) : r.told (record :: records) ≠ [] := by
  rw [told]
  cases r.positionError record.epoch record.seq with
  | some err => exact cons_ne_nil _ _
  | none => exact append_ne_nil_of_left_ne_nil (mt map_eq_nil_iff.mp hplain) _

theorem read_waits (hleft : Left cipherOf deriveEpochKey c []) :
    c.read cipherOf deriveEpochKey n = none := by
  generalize hitems : ([] : List Item) = items at hleft
  cases hleft with | @mk records hsized hwire => ?_
  obtain ⟨hbuf, htold⟩ := append_eq_nil_iff.mp hitems.symm
  cases records with
  | nil =>
    rw [RecordConn.read, if_neg (not_not.mpr (map_eq_nil_iff.mp hbuf)),
      Wire.readFull_eq_none (by rw [hwire]; exact two_pos)]
    rfl
  | cons record records => exact absurd htold (told_ne_nil (hsized record mem_cons_self).1)

theorem serves :
    Serves (RecordConn.read cipherOf deriveEpochKey) (0 < ·) (Left cipherOf deriveEpochKey) where
  waits _ hleft := read_waits hleft
  gives {_ _ n} hn hleft hitems := by
    obtain ⟨out, rest, c', hread, hsplit, hrest, hne⟩ := read_left hleft hitems n
    exact ⟨out, rest, c', hread, hsplit, hrest, hne hn⟩
  idle {c items n out c'} _ hleft hread := by
    by_cases hitems : items = []
    · subst hitems
      rw [read_waits hleft] at hread
      cases hread
    · obtain ⟨out', rest, c'', hread', hsplit, hrest, -⟩ := read_left hleft hitems n
      cases hread'.symm.trans hread
      exact ⟨rest, hsplit, hrest⟩

end Conn

/-! ### What is sealed -/

/-- Calls of `Write` in a row, and the records they seal. -/
def Sender.writes (ku : Int64) (s : Sender) : List (List UInt8) → Sender × List Sealed
  | [] => (s, [])
  | p :: ps =>
    let (s, records) := s.write ku p
    let (s, more) := s.writes ku ps
    (s, records ++ more)

/-- One round of the loop of `Write`, as a state and its log. -/
def Sender.round (ku : Int64) (s : Sender) (plain : List UInt8) : Sender :=
  ({ s with sendSeq := s.sendSeq + 1 }).maybeBumpSendEpoch ku plain.length

/-- The record of a round. -/
def Sender.next (s : Sender) (plain : List UInt8) : Sealed :=
  ⟨s.sendEpoch, s.sendSeq, plain, s.updates⟩

/-- What holds of the log after every round holds after calls of `Write`. -/
theorem writes_invariant {Inv : List Sealed → Sender → Prop}
    (hround : ∀ {log s plain}, plain ≠ [] → plain.length ≤ maxPlain → Inv log s →
      Inv (log ++ [s.next plain]) (s.round ku plain)) (h : Inv log s) (ps : List (List UInt8)) :
    Inv (log ++ (s.writes ku ps).2) (s.writes ku ps).1 := by
  have hloop : ∀ (rounds : Nat) {log : List Sealed} {s : Sender} (p : List UInt8), Inv log s →
      Inv (log ++ (s.writeLoop ku rounds p).2) (s.writeLoop ku rounds p).1 := by
    intro rounds
    induction rounds with
    | zero =>
      intro log s p h
      rwa [writeLoop, append_nil]
    | succ rounds ih =>
      intro log s p h
      rw [writeLoop]
      split
      · rwa [append_nil]
      · next hp =>
        dsimp only
        rw [← singleton_append, ← append_assoc]
        refine ih _ (hround ?_ (length_take_le _ _) h)
        rw [ne_eq, take_eq_nil_iff, not_or]
        exact ⟨by decide, hp⟩
  induction ps generalizing log s with
  | nil => rwa [writes, append_nil]
  | cons p ps ih =>
    rw [writes]
    rw [← append_assoc]
    exact ih (hloop p.length p h)

variable (ku)

theorem sized_writes (s : Sender) (ps : List (List UInt8)) : Sized (s.writes ku ps).2 :=
  @writes_invariant ku [] s (fun log _ => Sized log)
    (fun hplain hmax h => forall_mem_append.mpr ⟨h, forall_mem_singleton.mpr
      ⟨hplain, hmax⟩⟩) nofun ps

theorem Ordered.writes {first : UInt32} (h : Ordered first [] s) (ku : Int64)
    (ps : List (List UInt8)) : Ordered first (s.writes ku ps).2 (s.writes ku ps).1 :=
  @writes_invariant ku [] s (Ordered first)
    (fun {_ _ plain} _ _ h => (h.seal plain).bump rfl ku _) h ps

/-- What `Write` cuts its bytes into. -/
def chunks (p : List UInt8) : List (List UInt8) :=
  if _ : p = [] then [] else p.take maxPlain :: chunks (p.drop maxPlain)
termination_by p.length
decreasing_by
  rw [length_drop]
  exact Nat.sub_lt (length_pos_iff.mpr ‹_›) (by decide)

theorem writeLoop_chunks {rounds : Nat} (s : Sender) {p : List UInt8}
    (h : p.length ≤ rounds) : (s.writeLoop ku rounds p).2.map plain = chunks p := by
  induction rounds generalizing s p with
  | zero =>
    obtain rfl := length_eq_zero_iff.mp (le_zero.mp h)
    rw [chunks]
    rfl
  | succ rounds ih =>
    rw [writeLoop, chunks]
    split
    · rfl
    · next hp =>
      rw [map_cons, ih _ (length_drop_maxPlain hp h)]

theorem writes_chunks (s : Sender) (ps : List (List UInt8)) :
    (s.writes ku ps).2.map plain = ps.flatMap chunks := by
  induction ps generalizing s with
  | nil => rfl
  | cons p ps ih =>
    rw [writes]
    rw [map_append, ih, flatMap_cons, write, writeLoop_chunks ku s (le_refl _)]

theorem writes_plain (s : Sender) (ps : List (List UInt8)) :
    (s.writes ku ps).2.flatMap plain = ps.flatten := by
  induction ps generalizing s with
  | nil => rfl
  | cons p ps ih =>
    rw [writes]
    rw [flatMap_append, ih, flatten_cons, write, writeLoop_plain ku s (le_refl _)]

variable {ku}

/-! ### Key updates -/

/-- The bytes that are counted and the key updates so far, and one more record: it makes an update
if the bytes have reached the threshold of the next one. -/
def count (ku : Int64) (counted : Int64 × Nat) (size : Nat) : Int64 × Nat :=
  if ku ≤ 0 then counted
  else
    let bytes := counted.1 + Int64.ofNat size
    if bytes < ku * Int64.ofNat ((counted.2 % 2 ^ 32 + 1) % 2 ^ 32) then (bytes, counted.2)
    else (bytes, counted.2 + 1)

/-- The key updates that records of some sizes make. -/
def keyUpdates (ku : Int64) (sizes : List Nat) : Nat := (sizes.foldl (count ku) (0, 0)).2

/-- The log and the sender have counted the key updates. -/
structure Counted (ku : Int64) (log : List Sealed) (s : Sender) : Prop where
  now : (s.sendBytes, s.updates) = (log.map (·.plain.length)).foldl (count ku) (0, 0)
  before : ∀ {k a}, log[k]? = some a → a.updates = keyUpdates ku ((log.map (·.plain.length)).take k)

theorem count_round (ku : Int64) (s : Sender) (plain : List UInt8) :
    ((s.round ku plain).sendBytes, (s.round ku plain).updates) =
      count ku (s.sendBytes, s.updates) plain.length := by
  rw [Sender.round, Sender.maybeBumpSendEpoch, count]
  split
  · rfl
  · dsimp only
    split
    · rfl
    · rfl

theorem Counted.round (h : Counted ku log s)
    (plain : List UInt8) : Counted ku (log ++ [s.next plain]) (s.round ku plain) where
  now := by
    rw [count_round, h.now, map_append, foldl_append]
    rfl
  before {k a} hk := by
    rw [map_append]
    by_cases hlt : k < log.length
    · rw [take_append_of_le_length (by rw [length_map]; exact le_of_lt hlt)]
      exact h.before (by rwa [getElem?_append_left hlt] at hk)
    · have hk' := (List.getElem?_eq_some_iff.mp hk).1
      rw [length_append, length_singleton] at hk'
      obtain rfl : k = log.length := by omega
      rw [getElem?_concat_length] at hk
      cases hk
      rw [take_left' (length_map _), keyUpdates, ← h.now]
      rfl

theorem Counted.writes (h : Counted ku [] s) (ps : List (List UInt8)) :
    Counted ku (s.writes ku ps).2 (s.writes ku ps).1 :=
  @writes_invariant ku [] s (Counted ku) (fun {_ _ plain} _ _ h => h.round plain) h ps

/-! ### Epochs that do not wrap around -/

section Epochs

variable {first : UInt32} {r : Receiver} {a b : Sealed} {log : List Sealed}

theorem toNat_epoch (hepoch : b.epoch = first + UInt32.ofNat b.updates) :
    b.epoch.toNat = (first.toNat + b.updates) % 2 ^ 32 := by
  rw [hepoch, UInt32.toNat_add, UInt32.toNat_ofNat']
  omega

/-- The reader takes the next record if its epoch has not wrapped around. -/
theorem positionError_next (hafter : r.After (some a)) (hnext : Next a b)
    (ha : a.epoch.toNat = first.toNat + a.updates) (hb : b.epoch = first + UInt32.ofNat b.updates) :
    r.positionError b.epoch b.seq = none ↔ first.toNat + b.updates < 2 ^ 32 := by
  obtain ⟨hinit, hepoch, hseq⟩ := hafter
  have hlta := a.epoch.toNat_lt
  have htoNat := toNat_epoch hb
  rw [positionError_eq_none, validateRecvPosition, hinit, hepoch, hseq, if_neg (not_not.mpr rfl)]
  obtain ⟨hsame, hseq'⟩ | hbump := hnext
  · -- the same epoch, and the sequence number that is expected
    have heq : b.epoch = a.epoch := UInt32.toNat_inj.mp (by omega)
    rw [heq, if_neg (UInt32.lt_irrefl _), if_neg fun h => h.2 hseq',
      if_neg fun h => UInt32.lt_irrefl _ h.1]
    simp only [true_iff]
    omega
  · by_cases hwrap : first.toNat + b.updates < 2 ^ 32
    · have hone : b.epoch.toNat = a.epoch.toNat + 1 := by omega
      have hlt : a.epoch < b.epoch := UInt32.lt_iff_toNat_lt.mpr (by omega)
      have hsub : (b.epoch - a.epoch).toNat = 1 := by
        rw [UInt32.toNat_sub_of_le _ _ (UInt32.le_of_lt hlt)]
        omega
      rw [if_neg (UInt32.not_lt.mpr (UInt32.le_of_lt hlt)),
        if_neg fun h => UInt32.ne_of_lt hlt h.1.symm, if_neg fun h => ?_]
      · exact ⟨fun _ => hwrap, fun _ => rfl⟩
      · have hjump := UInt32.lt_iff_toNat_lt.mp h.2
        rw [hsub] at hjump
        exact absurd hjump (by decide)
    · -- the epoch after the last one is zero
      have hlt : b.epoch < a.epoch := UInt32.lt_iff_toNat_lt.mpr (by omega)
      rw [if_pos hlt]
      exact ⟨by simp, fun h => absurd h hwrap⟩

theorem not_told_error {records : List Sealed} {err : ReadError} {items : List Item} :
    .error err :: items ≠ (records.flatMap plain).map .byte := by
  intro h
  have hmem : Item.error err ∈ (records.flatMap plain).map .byte := h ▸ mem_cons_self
  obtain ⟨b, -, hb⟩ := mem_map.mp hmem
  cases hb

/-- The reader tells the contents of all records if and only if no epoch has wrapped around. -/
theorem told_eq_iff (hafter : r.After (some a)) (hchain : (a :: log).IsChain Next)
    (ha : a.epoch.toNat = first.toNat + a.updates)
    (hlog : ∀ record ∈ log, record.epoch = first + UInt32.ofNat record.updates) :
    r.told log = (log.flatMap plain).map .byte ↔
      ∀ record ∈ log, first.toNat + record.updates < 2 ^ 32 := by
  induction log generalizing r a with
  | nil => exact ⟨fun _ => nofun, fun _ => rfl⟩
  | cons b log ih =>
    obtain ⟨hnext, hchain⟩ := isChain_cons_cons.mp hchain
    obtain ⟨hb, hlog⟩ := forall_mem_cons.mp hlog
    have hiff := positionError_next hafter hnext ha hb
    rw [forall_mem_cons, ← hiff, told]
    cases hpos : r.positionError b.epoch b.seq with
    | some err => exact ⟨fun h => absurd h not_told_error, fun h => nomatch h.1⟩
    | none =>
      have hb' : b.epoch.toNat = first.toNat + b.updates := by
        rw [toNat_epoch hb, mod_eq_of_lt (hiff.mp hpos)]
      rw [flatMap_cons, map_append, append_cancel_left_eq, ih ⟨rfl, rfl, rfl⟩ hchain hb' hlog]
      exact ⟨fun h => ⟨rfl, h⟩, fun h => h.2⟩

/-- The same from the start, where the reader takes any position. -/
theorem told_start_iff {s : Sender} (h : Ordered first log s)
    (hzero : ∀ a ∈ log.head?, a.updates = 0) :
    (⟨0, 0, false, []⟩ : Receiver).told log = (log.flatMap plain).map .byte ↔
      ∀ record ∈ log, first.toNat + record.updates < 2 ^ 32 := by
  cases log with
  | nil => exact ⟨fun _ => nofun, fun _ => rfl⟩
  | cons a log =>
    obtain ⟨hea, hlog⟩ := forall_mem_cons.mp h.epoch_eq
    have hfirst : first.toNat + a.updates < 2 ^ 32 := by
      rw [hzero a rfl]
      exact first.toNat_lt
    have ha : a.epoch.toNat = first.toNat + a.updates := by
      rw [toNat_epoch hea, mod_eq_of_lt hfirst]
    rw [told, flatMap_cons, map_append, forall_mem_cons]
    change _ ++ _ = _ ++ _ ↔ _
    rw [append_cancel_left_eq, told_eq_iff ⟨rfl, rfl, rfl⟩ h.chain ha hlog]
    exact ⟨fun hall => ⟨hfirst, hall⟩, fun hall => hall.2⟩

/-- Without a wrap, a position is used twice only if so many records are sealed in one epoch. -/
theorem Ordered.pairwise_iff {s : Sender} (h : Ordered first log s)
    (hwrap : ∀ record ∈ log, first.toNat + record.updates < 2 ^ 32) :
    log.Pairwise (fun a b => ¬(a.epoch = b.epoch ∧ a.seq = b.seq)) ↔
      ∀ k a b, log[k]? = some a → log[k + 2 ^ 64]? = some b → a.updates < b.updates := by
  rw [pairwise_iff_getElem]
  constructor
  · intro hdistinct k a b ha hb
    obtain ⟨hle, hseq⟩ := h.later ha hb
    refine lt_of_le_of_ne hle fun hsame => ?_
    obtain ⟨hk, rfl⟩ := List.getElem?_eq_some_iff.mp ha
    obtain ⟨hk', rfl⟩ := List.getElem?_eq_some_iff.mp hb
    refine hdistinct k (k + 2 ^ 64) hk hk' (by omega) ⟨?_, ?_⟩
    · rw [h.epoch_eq _ (getElem_mem hk), h.epoch_eq _ (getElem_mem hk'), hsame]
    · rw [hseq hsame]
      exact (UInt64.add_zero _).symm
  · rintro hfew i j hi hj hij ⟨hepoch, hseq⟩
    have hepoch' := congrArg UInt32.toNat hepoch
    have hwi := hwrap _ (getElem_mem hi)
    have hwj := hwrap _ (getElem_mem hj)
    rw [toNat_epoch (h.epoch_eq _ (getElem_mem hi)),
      toNat_epoch (h.epoch_eq _ (getElem_mem hj)), mod_eq_of_lt hwi,
      mod_eq_of_lt hwj] at hepoch'
    have hsame : log[i].updates = log[j].updates := add_left_cancel hepoch'
    obtain ⟨d, rfl⟩ := Nat.exists_eq_add_of_lt hij
    -- the sequence numbers are as far apart as the records
    have hcount := (h.later (getElem?_eq_getElem hi) (k := d + 1) (getElem?_eq_getElem hj)).2 hsame
    have hfar : 2 ^ 64 ≤ d + 1 := by
      have hmod := congrArg UInt64.toNat (hseq.trans hcount)
      rw [UInt64.toNat_add, UInt64.toNat_ofNat'] at hmod
      have hlt := log[i].seq.toNat_lt
      omega
    have hmid : i + 2 ^ 64 < log.length := by omega
    have hless := hfew i _ _ (getElem?_eq_getElem hi) (getElem?_eq_getElem hmid)
    obtain ⟨e, he⟩ := Nat.exists_eq_add_of_le hfar
    have hlater := (h.later (getElem?_eq_getElem hmid) (k := e)
      (b := log[i + d + 1]) (List.getElem?_eq_some_iff.mpr ⟨by omega, by congr 1; omega⟩)).1
    omega

end Epochs

/-! ### Delivery -/

/-- The numbers that `randomRecordCounters` draws. -/
def randomRecordCounters (epoch : UInt32) (seq : UInt64) : Bool :=
  epoch ≠ 0 ∧ epoch ≠ 0xFFFFFFFF ∧ seq ≠ 0 ∧ seq ≠ 0xFFFFFFFFFFFFFFFF

section Delivery

variable {K : Type*} (cipherOf : K → AEAD) (deriveEpochKey : UInt32 → K)

/-- Whatever the pieces that the wire comes in and the sizes of the buffers, the calls of `Read`
give these bytes and no error, and wait only if they were given to the end. -/
def Delivers (log : List Sealed) (bytes : List UInt8) : Prop :=
  ∀ wire : Wire, wire.flatten = log.flatMap (frame cipherOf deriveEpochKey) →
    ∀ out c, Reads (RecordConn.read cipherOf deriveEpochKey) ⟨wire, ⟨0, 0, false, []⟩⟩ out c →
      out <+: bytes.map .byte ∧ ∀ n, 0 < n →
        (c.read cipherOf deriveEpochKey n = none ↔ out = bytes.map .byte) ∧
        ∀ more c', c.read cipherOf deriveEpochKey n = some (more, c') → more ≠ []

/-- What is written arrives if and only if the reader has nothing against the records. -/
theorem delivers_iff {log : List Sealed} (hsized : Sized log) (bytes : List UInt8) :
    Delivers cipherOf deriveEpochKey log bytes ↔
      (⟨0, 0, false, []⟩ : Receiver).told log = bytes.map .byte := by
  have hleft : ∀ {wire : Wire}, wire.flatten = log.flatMap (frame cipherOf deriveEpochKey) →
      Left cipherOf deriveEpochKey ⟨wire, ⟨0, 0, false, []⟩⟩
        ((⟨0, 0, false, []⟩ : Receiver).told log) := fun hwire => .mk hsized hwire
  constructor
  · intro h
    -- read byte by byte to the end: there a call waits
    have hwire := flatten_singleton (l := log.flatMap (frame cipherOf deriveEpochKey))
    obtain ⟨c, hreads⟩ := serves.complete one_pos (hleft hwire) (.refl _)
    have hwaits := ((serves.exact (hleft hwire) hreads).2 1 one_pos).1.mpr rfl
    exact ((h _ hwire _ c hreads).2 1 one_pos).1.mp hwaits
  · intro htold wire hwire out c hreads
    rw [← htold]
    exact serves.exact (hleft hwire) hreads

/-- For every initial epoch and sequence number, sequence numbers drawn later, threshold and calls
of `Write`: what is written arrives and no two records are sealed with the same key and nonce if and
only if no record is sealed after so many key updates that the epoch has wrapped around, and no
2 ^ 64 records are sealed between two key updates. -/
theorem delivered_iff (ku : Int64) (epoch : UInt32) (seq : UInt64) (draws : Nat → UInt64)
    (ps : List (List UInt8)) :
    let log := ((⟨epoch, seq, 0, 0, draws⟩ : Sender).writes ku ps).2
    let sizes := (ps.flatMap chunks).map length
    (Delivers cipherOf deriveEpochKey log ps.flatten ∧
      log.Pairwise fun a b => ¬(deriveEpochKey a.epoch = deriveEpochKey b.epoch ∧
        header a.epoch a.seq = header b.epoch b.seq)) ↔
      (∀ k < sizes.length, epoch.toNat + keyUpdates ku (sizes.take k) < 2 ^ 32) ∧
      ∀ k, k + 2 ^ 64 < sizes.length →
        keyUpdates ku (sizes.take k) < keyUpdates ku (sizes.take (k + 2 ^ 64)) := by
  intro log sizes
  have hordered : Ordered epoch log _ := Ordered.writes (ordered_start epoch seq draws) ku ps
  have hcounted : Counted ku log _ := Counted.writes ⟨rfl, nofun⟩ ps
  have hsizes : log.map (·.plain.length) = sizes := by
    change _ = (ps.flatMap chunks).map length
    rw [← writes_chunks ku ⟨epoch, seq, 0, 0, draws⟩ ps, map_map]
    rfl
  have hlength : log.length = sizes.length := by rw [← hsizes, length_map]
  have hupdates : ∀ {k : Nat} (hk : k < log.length),
      log[k].updates = keyUpdates ku (sizes.take k) := by
    intro k hk
    rw [hcounted.before (getElem?_eq_getElem hk), hsizes]
  have hzero : ∀ a ∈ log.head?, a.updates = 0 := by
    intro a ha
    rw [head?_eq_getElem?] at ha
    exact hcounted.before ha
  have hbytes : log.flatMap plain = ps.flatten := writes_plain ..
  have hnonces : (log.Pairwise fun a b => ¬(deriveEpochKey a.epoch = deriveEpochKey b.epoch ∧
      header a.epoch a.seq = header b.epoch b.seq)) ↔
      log.Pairwise fun a b => ¬(a.epoch = b.epoch ∧ a.seq = b.seq) := by
    refine List.Pairwise.iff fun {a b} => not_congr ?_
    rw [header_inj]
    exact ⟨fun h => h.2, fun h => ⟨congrArg deriveEpochKey h.1, h⟩⟩
  have hwrap : (∀ record ∈ log, epoch.toNat + record.updates < 2 ^ 32) ↔
      ∀ k < sizes.length, epoch.toNat + keyUpdates ku (sizes.take k) < 2 ^ 32 := by
    rw [forall_mem_iff_getElem, ← hlength]
    refine forall₂_congr fun k hk => ?_
    rw [hupdates hk]
  have hsized : Sized log := sized_writes ku _ ps
  rw [delivers_iff cipherOf deriveEpochKey hsized, ← hbytes,
    told_start_iff hordered hzero, hnonces, ← hwrap]
  refine and_congr_right fun hall => ?_
  rw [hordered.pairwise_iff hall]
  constructor
  · intro h k hk
    have hk' : k + 2 ^ 64 < log.length := hlength ▸ hk
    rw [← hupdates (by omega : k < log.length), ← hupdates hk']
    exact h k _ _ (getElem?_eq_getElem _) (getElem?_eq_getElem _)
  · intro h k a b ha hb
    obtain ⟨hk, rfl⟩ := List.getElem?_eq_some_iff.mp ha
    obtain ⟨hk', rfl⟩ := List.getElem?_eq_some_iff.mp hb
    rw [hupdates hk, hupdates hk']
    exact h k (hlength ▸ hk')

end Delivery

/-- Epoch `0xFFFFFFFE`, a key update after every record, and three records: the third has epoch zero
and is refused. -/
theorem third_record_refused :
    randomRecordCounters 0xFFFFFFFE 1 = true ∧
    ∃ out c, Reads (RecordConn.read (fun _ : UInt32 => plainAEAD) id)
      ⟨[((⟨0xFFFFFFFE, 1, 0, 0, fun _ => 1⟩ : Sender).writes 1 [[1], [2], [3]]).2.flatMap
        (frame (fun _ => plainAEAD) id)], ⟨0, 0, false, []⟩⟩ out c ∧
      out = [.byte 1, .byte 2, .error (.replayedEpoch 0 0xFFFFFFFF)] :=
  ⟨by decide, _, _, .tail (n := 1) (.tail (n := 1) (.tail (n := 1) (.refl _) rfl) rfl) rfl, rfl⟩

end Hako.Sudoku.Record
