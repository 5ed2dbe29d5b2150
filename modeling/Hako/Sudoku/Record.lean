import Mathlib

/-!
# Record connections

A record carries an epoch and a sequence number, which are its nonce. The sender starts from random
numbers, counts the sequence up, and takes a new epoch with a new random sequence number after some
bytes. The receiver takes its first record and the first one of each epoch as they come, and after
that insists on the next sequence number. Between the two stands an adversary that delivers any
header with any ciphertext.

The cipher is ideal: a record opens only under the header it was sealed with.
-/

namespace Hako.Sudoku.Record

open List Option

/-! ### Records -/

/-- A record as it was sealed. `updates` is not on the wire: the number of key updates before. -/
structure Sealed where
  epoch : UInt32
  seq : UInt64
  plain : List UInt8
  updates : Nat
deriving DecidableEq

/-- What stands behind the header of a record on the wire. -/
inductive Cipher where
  | sealed (record : Sealed)
  | forged
deriving DecidableEq

/-- `aead.Open` with the header as nonce and as additional data. -/
def open? (epoch : UInt32) (seq : UInt64) : Cipher → Option Sealed
  | .sealed record => if record.epoch = epoch ∧ record.seq = seq then some record else none
  | .forged => none

def maxFrameBodySize : Nat := 65535

def recordHeaderSize : Nat := 12

/-- `aead.Overhead()` of both methods. -/
def overhead : Nat := 16

def maxPlain : Nat := maxFrameBodySize - recordHeaderSize - overhead

/-! ### Sending -/

structure Sender where
  sendEpoch : UInt32
  sendSeq : UInt64
  sendBytes : Int64
  /-- All the key updates so far; the code keeps this number in 32 bits. -/
  updates : Nat
  /-- The sequence numbers that will be drawn. -/
  draws : Nat → UInt64

/-- `maybeBumpSendEpochLocked`, where `ku` is `KeyUpdateAfterBytes`. -/
def Sender.maybeBumpSendEpoch (ku : Int64) (s : Sender) (addedPlain : Nat) : Sender :=
  if ku ≤ 0 then s
  else
    let s := { s with sendBytes := s.sendBytes + Int64.ofNat addedPlain }
    let sendEpochUpdates := s.updates % 2 ^ 32
    if s.sendBytes < ku * Int64.ofNat ((sendEpochUpdates + 1) % 2 ^ 32) then s
    else
      { s with
          sendEpoch := s.sendEpoch + 1
          updates := s.updates + 1
          sendSeq := s.draws 0
          draws := fun n => s.draws (n + 1) }

/-- The loop of `Write`: the records in the order they are sealed in. -/
def Sender.writeLoop (ku : Int64) : Nat → Sender → List UInt8 → Sender × List Sealed
  | 0, s, _ => (s, [])
  | rounds + 1, s, p =>
    if p = [] then (s, [])
    else
      let chunk := p.take maxPlain
      let record : Sealed := ⟨s.sendEpoch, s.sendSeq, chunk, s.updates⟩
      let s := { s with sendSeq := s.sendSeq + 1 }
      let (s, records) := writeLoop ku rounds (s.maybeBumpSendEpoch ku chunk.length) (p.drop maxPlain)
      (s, record :: records)

/-- `Write`; every round takes a byte at least. -/
def Sender.write (ku : Int64) (s : Sender) (p : List UInt8) : Sender × List Sealed :=
  s.writeLoop ku p.length p

/-! ### Receiving -/

structure Receiver where
  recvEpoch : UInt32
  recvSeq : UInt64
  recvInitialized : Bool
  readBuf : List UInt8

/-- `validateRecvPosition` -/
def Receiver.validateRecvPosition (r : Receiver) (epoch : UInt32) (seq : UInt64) : Bool :=
  if ¬ r.recvInitialized then true
  else if epoch < r.recvEpoch then false
  else if epoch = r.recvEpoch ∧ seq ≠ r.recvSeq then false
  else if r.recvEpoch < epoch ∧ 8 < epoch - r.recvEpoch then false
  else true

/-- `markRecvPosition` -/
def Receiver.markRecvPosition (r : Receiver) (epoch : UInt32) (seq : UInt64) : Receiver :=
  { r with recvEpoch := epoch, recvSeq := seq + 1, recvInitialized := true }

/-- `Read` into a slice of some length, with the record that the adversary has put there: the bytes
that are returned, and the record if it was accepted. After an error nothing is returned. -/
def Receiver.read (r : Receiver) (size : Nat) (epoch : UInt32) (seq : UInt64) (cipher : Cipher) :
    Receiver × List UInt8 × Option Sealed :=
  if r.readBuf ≠ [] then ({ r with readBuf := r.readBuf.drop size }, r.readBuf.take size, none)
  else if ¬ r.validateRecvPosition epoch seq then (r, [], none)
  else
    match open? epoch seq cipher with
    | none => (r, [], none)
    | some record =>
      let r := r.markRecvPosition epoch seq
      ({ r with readBuf := record.plain.drop size }, record.plain.take size, some record)

/-! ### Both ends -/

/-- The two ends of one direction, what was written and sealed at the one, and what was accepted
and returned at the other. -/
structure System where
  sender : Sender
  receiver : Receiver
  written : List UInt8
  log : List Sealed
  accepted : List Sealed
  returned : List UInt8

/-- A call of `Write`, or a call of `Read` for which the adversary puts a header of its own before
the ciphertext of some sealed record, or before one of its own making. -/
inductive Action where
  | write (p : List UInt8)
  | read (size : Nat) (epoch : UInt32) (seq : UInt64) (body : Option Nat)

/-- The ciphertexts an adversary has: those that were sealed so far, and others that never open. -/
def pickCipher (log : List Sealed) (body : Option Nat) : Cipher :=
  match body.bind (log[·]?) with
  | some record => .sealed record
  | none => .forged

def System.step (ku : Int64) (c : System) : Action → System
  | .write p =>
    let (sender, records) := c.sender.write ku p
    { c with sender := sender, written := c.written ++ p, log := c.log ++ records }
  | .read size epoch seq body =>
    let (receiver, bytes, record) := c.receiver.read size epoch seq (pickCipher c.log body)
    { c with
        receiver := receiver
        returned := c.returned ++ bytes
        accepted := c.accepted ++ record.toList }

/-- Both ends after `NewRecordConn`, with the numbers that were drawn. -/
def System.start (epoch : UInt32) (seq : UInt64) (draws : Nat → UInt64) : System where
  sender := ⟨epoch, seq, 0, 0, draws⟩
  receiver := ⟨0, 0, false, []⟩
  written := []
  log := []
  accepted := []
  returned := []

def System.run (ku : Int64) (c : System) (actions : List Action) : System := actions.foldl (step ku) c

/-! ### What is accepted -/

/-- The positions that `validateRecvPosition` lets follow: the next one of the epoch, or any one of
the next epochs. -/
def Accepts (a b : Sealed) : Prop :=
  a.epoch = b.epoch ∧ b.seq = a.seq + 1 ∨ a.epoch < b.epoch ∧ b.epoch - a.epoch ≤ 8

/-- Where the receiver stands after the last record it has accepted. -/
def Receiver.After (r : Receiver) : Option Sealed → Prop
  | none => r.recvInitialized = false
  | some a => r.recvInitialized = true ∧ r.recvEpoch = a.epoch ∧ r.recvSeq = a.seq + 1

variable {log : List Sealed} {c : System} {first : UInt32} {s : Sender}

variable {r : Receiver} {record : Sealed} {rounds : Nat} {p : List UInt8}

theorem Receiver.After.withBuf {last : Option Sealed} (h : r.After last)
    (readBuf : List UInt8) : ({ r with readBuf := readBuf } : Receiver).After last := by
  cases last with
  | none => exact h
  | some a => exact h

theorem accepts_of_validate {a b : Sealed} (h : r.After (some a))
    (hvalid : r.validateRecvPosition b.epoch b.seq = true) : Accepts a b := by
  obtain ⟨hinit, hepoch, hseq⟩ := h
  simp only [Receiver.validateRecvPosition, hinit, hepoch, hseq, not_true_eq_false, if_false] at hvalid
  split at hvalid
  · cases hvalid
  · next hnlt =>
    split at hvalid
    · cases hvalid
    · next hsame =>
      split at hvalid
      · cases hvalid
      · next hjump =>
        by_cases heq : b.epoch = a.epoch
        · exact .inl ⟨heq.symm, by simpa [heq] using hsame⟩
        · have hlt : a.epoch < b.epoch := by
            rw [UInt32.lt_iff_toNat_lt] at hnlt ⊢
            have hne : b.epoch.toNat ≠ a.epoch.toNat := fun h => heq (UInt32.toNat_inj.mp h)
            omega
          exact .inr ⟨hlt, UInt32.not_lt.mp fun h => hjump ⟨hlt, h⟩⟩

theorem open?_eq_some {epoch : UInt32} {seq : UInt64} {body : Option Nat}
    (h : open? epoch seq (pickCipher log body) = some record) :
    record ∈ log ∧ record.epoch = epoch ∧ record.seq = seq := by
  unfold pickCipher at h
  cases hbody : body.bind (log[·]?) with
  | none =>
    rw [hbody] at h
    cases h
  | some found =>
    rw [hbody] at h
    simp only [open?] at h
    split at h
    · next hheader =>
      cases h
      obtain ⟨i, -, hi⟩ := bind_eq_some_iff.mp hbody
      exact ⟨mem_of_getElem? hi, hheader⟩
    · cases h

/-- What is returned comes from records that were sealed, each accepted after the one before. -/
structure Sound (c : System) : Prop where
  returned : c.returned ++ c.receiver.readBuf = c.accepted.flatMap Sealed.plain
  mem_log : ∀ record ∈ c.accepted, record ∈ c.log
  chain : c.accepted.IsChain Accepts
  after : c.receiver.After c.accepted.getLast?
  written : c.log.flatMap Sealed.plain = c.written

theorem length_drop_maxPlain (hp : p ≠ [])
    (h : p.length ≤ rounds + 1) : (p.drop maxPlain).length ≤ rounds := by
  have hpos := length_pos_iff.mpr hp
  have hmax : 0 < maxPlain := by decide
  rw [length_drop]
  omega

theorem writeLoop_plain (ku : Int64) (s : Sender)
    (h : p.length ≤ rounds) : (s.writeLoop ku rounds p).2.flatMap Sealed.plain = p := by
  induction rounds generalizing s p with
  | zero => exact (length_eq_zero_iff.mp (Nat.le_zero.mp h)).symm
  | succ rounds ih =>
    rw [Sender.writeLoop]
    by_cases hp : p = []
    · rw [if_pos hp, hp]
      rfl
    · rw [if_neg hp]
      rw [flatMap_cons, ih _ (length_drop_maxPlain hp h)]
      exact take_append_drop ..

theorem Sound.write (h : Sound c) (ku : Int64) (p : List UInt8) : Sound (c.step ku (.write p)) where
  returned := h.returned
  mem_log record hmem := mem_append_left _ (h.mem_log record hmem)
  chain := h.chain
  after := h.after
  written := by
    change (c.log ++ (c.sender.write ku p).2).flatMap Sealed.plain = c.written ++ p
    rw [flatMap_append, h.written, Sender.write, writeLoop_plain ku c.sender (le_refl _)]

theorem Sound.read (h : Sound c) (ku : Int64) (size : Nat) (epoch : UInt32) (seq : UInt64)
    (body : Option Nat) : Sound (c.step ku (.read size epoch seq body)) := by
  by_cases hbuf : c.receiver.readBuf = []
  · have hret : c.returned = c.accepted.flatMap Sealed.plain := by
      rw [← h.returned, hbuf, append_nil]
    cases hvalid : c.receiver.validateRecvPosition epoch seq with
    | false => simpa [System.step, Receiver.read, hbuf, hvalid] using h
    | true =>
      cases hopen : open? epoch seq (pickCipher c.log body) with
      | none => simpa [System.step, Receiver.read, hbuf, hvalid, hopen] using h
      | some record =>
        obtain ⟨hmem, rfl, rfl⟩ := open?_eq_some hopen
        simp only [System.step, Receiver.read, hbuf, hvalid, hopen, ne_eq, not_true_eq_false, if_false,
          toList_some]
        refine ⟨?_, ?_, ?_, ?_, h.written⟩
        · rw [flatMap_append, append_assoc, take_append_drop, hret]
          simp
        · exact forall_mem_append.mpr ⟨h.mem_log, by simpa using hmem⟩
        · -- the record comes after the last one that was accepted
          refine isChain_append.mpr ⟨h.chain, isChain_singleton _, fun a ha b hb => ?_⟩
          have hafter := h.after
          rw [mem_def.mp ha] at hafter
          cases hb
          exact accepts_of_validate hafter hvalid
        · rw [getLast?_concat]
          exact ⟨rfl, rfl, rfl⟩
  · simp only [System.step, Receiver.read, ne_eq, hbuf, not_false_eq_true, if_true,
      toList_none, append_nil]
    refine ⟨?_, h.mem_log, h.chain, ?_, h.written⟩
    · rw [append_assoc, take_append_drop, h.returned]
    · exact h.after.withBuf _

theorem Sound.run (h : Sound c) (ku : Int64) (actions : List Action) :
    Sound (c.run ku actions) := by
  induction actions generalizing c with
  | nil => exact h
  | cons action actions ih =>
    cases action with
    | write p => exact ih (h.write ku p)
    | read size epoch seq body => exact ih (h.read ku size epoch seq body)

variable (epoch : UInt32) (seq : UInt64) (draws : Nat → UInt64)

theorem sound_start : Sound (System.start epoch seq draws) := ⟨rfl, nofun, .nil, rfl, rfl⟩

/-! ### The order of the records -/

/-- Consecutive records: the next sequence number, or a key update. -/
def Next (a b : Sealed) : Prop :=
  b.updates = a.updates ∧ b.seq = a.seq + 1 ∨ b.updates = a.updates + 1

/-- The records in the order they were sealed in, and where the sender stands behind the last. -/
structure Ordered (first : UInt32) (log : List Sealed) (s : Sender) : Prop where
  epoch_eq : ∀ record ∈ log, record.epoch = first + UInt32.ofNat record.updates
  le_updates : ∀ record ∈ log, record.updates ≤ s.updates
  chain : log.IsChain Next
  sendEpoch_eq : s.sendEpoch = first + UInt32.ofNat s.updates
  last : ∀ a ∈ log.getLast?, s.updates = a.updates ∧ s.sendSeq = a.seq + 1 ∨
    s.updates = a.updates + 1

theorem Ordered.seal (h : Ordered first log s) (plain : List UInt8) :
    Ordered first (log ++ [⟨s.sendEpoch, s.sendSeq, plain, s.updates⟩])
      { s with sendSeq := s.sendSeq + 1 } where
  epoch_eq := forall_mem_append.mpr ⟨h.epoch_eq, by simpa using h.sendEpoch_eq⟩
  le_updates := forall_mem_append.mpr ⟨h.le_updates, by simp⟩
  chain := by
    refine isChain_append.mpr ⟨h.chain, isChain_singleton _, fun a ha b hb => ?_⟩
    cases hb
    exact h.last a ha
  sendEpoch_eq := h.sendEpoch_eq
  last a ha := by
    rw [getLast?_concat] at ha
    cases ha
    exact .inl ⟨rfl, rfl⟩

theorem Ordered.bump (h : Ordered first (log ++ [record]) s)
    (hnow : s.updates = record.updates) (ku : Int64) (n : Nat) :
    Ordered first (log ++ [record]) (s.maybeBumpSendEpoch ku n) := by
  unfold Sender.maybeBumpSendEpoch
  split
  · exact h
  · dsimp only
    split
    · exact { h with }
    · refine ⟨h.epoch_eq, fun r hr => Nat.le_succ_of_le (h.le_updates r hr), h.chain, ?_, ?_⟩
      · dsimp only
        rw [h.sendEpoch_eq, UInt32.ofNat_add, ← UInt32.add_assoc]
        rfl
      · intro a ha
        rw [getLast?_concat] at ha
        cases ha
        exact .inr (by rw [← hnow])

theorem Ordered.writeLoop (h : Ordered first log s) (ku : Int64) (rounds : Nat) (p : List UInt8) :
    Ordered first (log ++ (s.writeLoop ku rounds p).2) (s.writeLoop ku rounds p).1 := by
  induction rounds generalizing log s p with
  | zero =>
    rw [Sender.writeLoop, append_nil]
    exact h
  | succ rounds ih =>
    rw [Sender.writeLoop]
    split
    · rw [append_nil]
      exact h
    · dsimp only
      rw [← singleton_append, ← append_assoc]
      exact ih ((h.seal _).bump rfl ku _) _

theorem Ordered.run (h : Ordered first c.log c.sender) (ku : Int64) (actions : List Action) :
    Ordered first (c.run ku actions).log (c.run ku actions).sender := by
  induction actions generalizing c with
  | nil => exact h
  | cons action actions ih =>
    cases action with
    | write p => exact ih (c := c.step ku (.write p)) (h.writeLoop ku p.length p)
    | read size epoch seq body => exact ih (c := c.step ku (.read size epoch seq body)) h

theorem ordered_start :
    Ordered epoch (System.start epoch seq draws).log (System.start epoch seq draws).sender :=
  ⟨nofun, nofun, .nil, (UInt32.add_zero _).symm, nofun⟩

section Positions

variable {first : UInt32} {log : List Sealed} {s : Sender}
  {i : Nat} {a : Sealed} {accepted : List Sealed} (h : Ordered first log s)
include h

/-- Key updates are counted up along the log, and sequence numbers between two of them. -/
theorem Ordered.later {k : Nat} {b : Sealed} (ha : log[i]? = some a)
    (hb : log[i + k]? = some b) : a.updates ≤ b.updates ∧
      (a.updates = b.updates → b.seq = a.seq + UInt64.ofNat k) := by
  induction k generalizing b with
  | zero =>
    cases ha.symm.trans hb
    exact ⟨le_refl _, fun _ => (UInt64.add_zero _).symm⟩
  | succ k ih =>
    obtain ⟨hlt, rfl⟩ := List.getElem?_eq_some_iff.mp hb
    have hprev : log[i + k]? = some log[i + k] := getElem?_eq_getElem (by omega)
    obtain ⟨hle, hseq⟩ := ih hprev
    obtain ⟨heq, hnext⟩ | hbump := isChain_iff_getElem.mp h.chain (i + k) hlt
    · refine ⟨by rw [← heq] at hle; exact hle, fun hsame => ?_⟩
      refine hnext.trans ?_
      rw [hseq (hsame.trans heq), UInt64.add_assoc, UInt64.ofNat_add]
      rfl
    · have hbump' : log[i + (k + 1)].updates = log[i + k].updates + 1 := hbump
      exact ⟨by omega, fun hsame => by omega⟩

section

variable (hupdates : s.updates < 2 ^ 32 - 8)
include hupdates

variable (hlen : log.length < 2 ^ 64)
include hlen

/-- A record that is accepted after another one was sealed after it, and next to it if their epochs
are the same. -/
theorem Ordered.lt_of_accepts {j : Nat} {b : Sealed} (ha : log[i]? = some a)
    (hb : log[j]? = some b) (hacc : Accepts a b) : i < j ∧ (a.epoch = b.epoch → j = i + 1) := by
  have hma := mem_of_getElem? ha
  have hmb := mem_of_getElem? hb
  have hua := h.le_updates a hma
  have hub := h.le_updates b hmb
  have hea : a.epoch.toNat = (first.toNat + a.updates) % 2 ^ 32 := by
    rw [h.epoch_eq a hma, UInt32.toNat_add, UInt32.toNat_ofNat']
    omega
  have heb : b.epoch.toNat = (first.toNat + b.updates) % 2 ^ 32 := by
    rw [h.epoch_eq b hmb, UInt32.toNat_add, UInt32.toNat_ofNat']
    omega
  have hfirst := first.toNat_lt
  have hi : i < log.length := (List.getElem?_eq_some_iff.mp ha).1
  have hj : j < log.length := (List.getElem?_eq_some_iff.mp hb).1
  obtain ⟨hepoch, hseq⟩ | ⟨hlt, hjump⟩ := hacc
  · -- the same epoch means the same key updates
    have hsame : a.updates = b.updates := by
      have heq := congrArg UInt32.toNat hepoch
      omega
    have hcount : ∀ {x y : Sealed} {k : Nat}, y.seq = x.seq + UInt64.ofNat k →
        y.seq.toNat = (x.seq.toNat + k) % 2 ^ 64 := by
      intro x y k hk
      rw [hk, UInt64.toNat_add, UInt64.toNat_ofNat']
      omega
    have hone : b.seq.toNat = (a.seq.toNat + 1) % 2 ^ 64 := hcount (k := 1) hseq
    have hlta := a.seq.toNat_lt
    have hltb := b.seq.toNat_lt
    have hj : j = i + 1 := by
      obtain hle | hgt := le_total i j
      · obtain ⟨k, rfl⟩ := Nat.exists_eq_add_of_le hle
        have hk := hcount ((h.later ha hb).2 hsame)
        omega
      · obtain ⟨k, rfl⟩ := Nat.exists_eq_add_of_le hgt
        have hk := hcount ((h.later hb ha).2 hsame.symm)
        omega
    exact ⟨by omega, fun _ => hj⟩
  · have hlt' := UInt32.lt_iff_toNat_lt.mp hlt
    have hjump' : b.epoch.toNat - a.epoch.toNat ≤ 8 := by
      have := UInt32.le_iff_toNat_le.mp hjump
      rw [UInt32.toNat_sub_of_le _ _ (UInt32.le_of_lt hlt)] at this
      exact this
    -- so few steps forward do not lead around all the epochs
    have hmore : a.updates < b.updates := by omega
    refine ⟨?_, fun heq => absurd heq (UInt32.ne_of_lt hlt)⟩
    by_contra hnot
    obtain ⟨k, rfl⟩ := Nat.exists_eq_add_of_le (Nat.le_of_not_lt hnot)
    have := (h.later hb ha).1
    omega

variable (hmem : ∀ record ∈ accepted, record ∈ log)
include hmem

variable (hchain : accepted.IsChain Accepts)
include hchain

/-- With few key updates, what was accepted is a part of the log, in its order. -/
theorem Ordered.sublist : accepted.Sublist log := by
  classical
  have hindex : ∀ record : {r // r ∈ accepted}, ∃ i : Fin log.length, log[i] = record.1 :=
    fun ⟨record, hr⟩ => by
      obtain ⟨i, hi, heq⟩ := mem_iff_getElem.mp (hmem record hr)
      exact ⟨⟨i, hi⟩, heq⟩
  choose index hindex using hindex
  have heq : accepted = (accepted.attach.map index).map fun i => log[i] := by
    rw [List.map_map]
    refine (attach_map_subtype_val accepted).symm.trans (map_congr_left fun r _ => ?_)
    exact (hindex r).symm
  rw [heq]
  refine map_getElem_sublist ?_
  have hattach : accepted.attach.IsChain fun a b => index a < index b := by
    rw [isChain_iff_getElem] at hchain ⊢
    intro i hi
    have hi' : i < accepted.attach.length := Nat.lt_of_succ_lt hi
    have hacc : Accepts accepted.attach[i].1 accepted.attach[i + 1].1 := by
      simpa using hchain i (by simpa using hi)
    have hlt := (h.lt_of_accepts hupdates hlen (List.getElem?_eq_some_iff.mpr ⟨_, hindex _⟩)
      (List.getElem?_eq_some_iff.mpr ⟨_, hindex _⟩) hacc).1
    exact hlt
  rw [← isChain_iff_pairwise, isChain_map]
  exact hattach

/-- Next to each other in the log. -/
def Adjacent (log : List Sealed) (a b : Sealed) : Prop :=
  ∃ i, log[i]? = some a ∧ log[i + 1]? = some b

theorem Ordered.adjacent : accepted.IsChain fun a b => a.epoch = b.epoch → Adjacent log a b := by
  rw [isChain_iff_getElem] at hchain ⊢
  intro k hk hepoch
  obtain ⟨i, hi⟩ := mem_iff_getElem?.mp (hmem accepted[k] (getElem_mem _))
  obtain ⟨j, hj⟩ := mem_iff_getElem?.mp (hmem accepted[k + 1] (getElem_mem _))
  have hnext := (h.lt_of_accepts hupdates hlen hi hj (hchain k hk)).2 hepoch
  exact ⟨i, hi, hnext ▸ hj⟩

end

/-- A record stands in one place of the log. -/
theorem Ordered.index_unique (hlen : log.length < 2 ^ 64) {j : Nat}
    (hi : log[i]? = some a) (hj : log[j]? = some a) : i = j := by
  have hbound : ∀ {i : Nat}, log[i]? = some a → i < log.length := fun hi =>
    (List.getElem?_eq_some_iff.mp hi).1
  have hzero : ∀ {i k : Nat}, log[i]? = some a → log[i + k]? = some a → k = 0 := by
    intro i k hi hk
    have hlt := hbound hk
    have hseq := congrArg UInt64.toNat ((h.later hi hk).2 rfl)
    rw [UInt64.toNat_add, UInt64.toNat_ofNat'] at hseq
    have := a.seq.toNat_lt
    omega
  obtain hle | hle := le_total i j
  · obtain ⟨k, rfl⟩ := Nat.exists_eq_add_of_le hle
    rw [hzero hi hj, add_zero]
  · obtain ⟨k, rfl⟩ := Nat.exists_eq_add_of_le hle
    rw [hzero hj hi, add_zero]

/-- Records that are next to each other, one after the other, are a piece of the log. -/
theorem Ordered.prefix_drop (hlen : log.length < 2 ^ 64)
    (hchain : (a :: accepted).IsChain (Adjacent log)) (hi : log[i]? = some a) :
    a :: accepted <+: log.drop i := by
  induction accepted generalizing a i with
  | nil =>
    obtain ⟨hlt, rfl⟩ := List.getElem?_eq_some_iff.mp hi
    rw [drop_eq_getElem_cons hlt]
    exact (prefix_cons_inj _).mpr nil_prefix
  | cons b accepted ih =>
    obtain ⟨hadj, htail⟩ := isChain_cons_cons.mp hchain
    obtain ⟨j, hj, hb⟩ := hadj
    rw [h.index_unique hlen hj hi] at hb
    obtain ⟨hlt, rfl⟩ := List.getElem?_eq_some_iff.mp hi
    rw [drop_eq_getElem_cons hlt]
    exact (prefix_cons_inj _).mpr (ih htail hb)

end Positions

/-- What `Read` returns is, as far as it goes, the contents of accepted records, and these were all
sealed by the peer. As long as positions are not used twice they are in the order they were sealed
in, and inside an epoch none is left out. So if the first accepted record is the first one sealed,
and none is left out where a new epoch begins, what is returned is the beginning of what was
written. -/
theorem returned_in_order (ku : Int64) (epoch : UInt32) (seq : UInt64) (draws : Nat → UInt64)
    (actions : List Action) (c : System) (hc : c = (System.start epoch seq draws).run ku actions) :
    (c.returned <+: c.accepted.flatMap Sealed.plain ∧ (∀ record ∈ c.accepted, record ∈ c.log) ∧
      c.log.flatMap Sealed.plain = c.written) ∧
    (c.sender.updates < 2 ^ 32 - 8 → c.log.length < 2 ^ 64 → c.accepted.Sublist c.log ∧
      c.accepted.IsChain (fun a b => a.epoch = b.epoch → Adjacent c.log a b) ∧
      ((∀ a ∈ c.accepted.head?, c.log.head? = some a) →
        c.accepted.IsChain (fun a b => a.epoch ≠ b.epoch → Adjacent c.log a b) →
        c.returned <+: c.written)) := by
  have hsound : Sound c := hc ▸ (sound_start epoch seq draws).run ku actions
  have hordered : Ordered epoch c.log c.sender := hc ▸ (ordered_start epoch seq draws).run ku actions
  have hreturned : c.returned <+: c.accepted.flatMap Sealed.plain := ⟨_, hsound.returned⟩
  refine ⟨⟨hreturned, hsound.mem_log, hsound.written⟩, fun hupdates hlen => ?_⟩
  have hinside := hordered.adjacent hupdates hlen hsound.mem_log hsound.chain
  refine ⟨hordered.sublist hupdates hlen hsound.mem_log hsound.chain, hinside, fun hfirst hacross => ?_⟩
  have hchain : c.accepted.IsChain (Adjacent c.log) := by
    rw [isChain_iff_getElem] at hinside hacross ⊢
    intro i hi
    by_cases heq : c.accepted[i].epoch = c.accepted[i + 1].epoch
    · exact hinside i hi heq
    · exact hacross i hi heq
  have hprefix : c.accepted <+: c.log := by
    cases haccepted : c.accepted with
    | nil => exact nil_prefix
    | cons a accepted =>
      rw [haccepted] at hchain hfirst
      have hhead : c.log[0]? = some a := head?_eq_getElem?.symm.trans (hfirst a rfl)
      exact hordered.prefix_drop hlen hchain hhead
  obtain ⟨rest, hrest⟩ := hprefix
  rw [← hsound.written, ← hrest, flatMap_append]
  exact hreturned.trans (prefix_append _ _)

/-- Two records are written and the first one is dropped: the receiver takes the second for the
first. -/
theorem first_record_dropped :
    ∃ c, c = (System.start 1 1 fun _ => 1).run 0 [.write [1], .write [2], .read 8 1 2 (some 1)] ∧
      c.written = [1, 2] ∧ c.returned = [2] ∧ ¬ c.returned <+: c.written :=
  ⟨_, rfl, rfl, rfl, by decide⟩

theorem honest_channel_in_order :
    ∃ c, c = (System.start 1 1 fun _ => 1).run 0
        [.write [1], .read 8 1 1 (some 0), .write [2], .read 8 1 2 (some 1)] ∧
      c.returned = [1, 2] ∧ c.returned <+: c.written :=
  ⟨_, rfl, rfl, ((returned_in_order 0 1 1 (fun _ => 1)
    [.write [1], .read 8 1 1 (some 0), .write [2], .read 8 1 2 (some 1)] _ rfl).2 (by decide)
      (by decide)).2.2 (fun a ha => ha) (isChain_pair.mpr fun hne => absurd rfl hne)⟩

end Hako.Sudoku.Record
