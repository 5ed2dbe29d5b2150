import Hako.GoLib.Codec
import Hako.GoLib.Binary
import Hako.GoLib.Io
import Hako.Lib.Reads

/-!
# VLESS encryption connections

An established connection sends records of at most 8192 bytes, each sealed under the next nonce. A
record that is sealed when the nonce is at its maximum still uses the old key, with the nonce that
follows by wrapping around; the key for the records after it is derived from its bytes, and the
nonce starts again from zero. The reader derives the same key from the same bytes before it opens
the record in place.

The derivation of keys is injective, and the records of a run that are sealed under different keys
are different.
-/

namespace Hako.Vless

open GoLib Lib Binary List Nat

variable {K : Type}

/-- The key of a cipher, and the nonce it was used with last. -/
structure NonceAEAD (K : Type) where
  key : K
  nonce : List UInt8

/-- `IncreaseNonce`, which counts from the last byte. -/
def increaseNonce (nonce : List UInt8) : List UInt8 := (increment nonce.reverse).reverse

def maxNonce : List UInt8 := List.replicate 12 255

def zeroNonce : List UInt8 := List.replicate 12 0

/-- `EncodeHeader` -/
def encodeHeader (l : Nat) : List UInt8 := [23, 3, 3] ++ putUint16 l

/-- `DecodeHeader` -/
def decodeHeader (h : List UInt8) : Option Nat :=
  let l := if h.take 3 ≠ [23, 3, 3] then 0 else uint16 (h.drop 3)
  if l < 17 ∨ 17000 < l then none else some l

/-- A record. Its bytes are the header and the ciphertext; the rest is not on the wire: its key and
nonce, its plaintext, and what the writer goes on with. -/
structure Sealed (K : Type) where
  bytes : List UInt8
  key : K
  nonce : List UInt8
  plain : List UInt8
  next : NonceAEAD K

/-- What the caller of `Read` is told, a byte at a time. -/
inductive Item
  | byte (b : UInt8)
  | error (message : String)

section Connection

variable (cipherOf : K → AEAD) (deriveKey : List UInt8 → K)

/-- `NewAEAD` for the keys of a connection. -/
def newAEAD (ctx : List UInt8) : NonceAEAD K := ⟨deriveKey ctx, zeroNonce⟩

/-- What a side goes on with after the record `bytes`. -/
def NonceAEAD.after (a : NonceAEAD K) (bytes : List UInt8) : NonceAEAD K :=
  if a.nonce = maxNonce then newAEAD deriveKey bytes else ⟨a.key, increaseNonce a.nonce⟩

/-! ### Writing -/

/-- One round of `Write`, for at most 8192 bytes. -/
def NonceAEAD.sealRecord (a : NonceAEAD K) (b : List UInt8) : Sealed K :=
  let header := encodeHeader (b.length + 16)
  let nonce := increaseNonce a.nonce
  let bytes := header ++ (cipherOf a.key).sealText nonce b header
  ⟨bytes, a.key, nonce, b, a.after deriveKey bytes⟩

def maxChunk : Nat := 8192

/-- The loop of `Write`: the records in order, and what is left in `AEAD`. -/
def writeLoop (a : NonceAEAD K) (b : List UInt8) : NonceAEAD K × List (Sealed K) :=
  if _ : b = [] then (a, [])
  else
    let record := a.sealRecord cipherOf deriveKey (b.take maxChunk)
    let rest := writeLoop record.next (b.drop maxChunk)
    (rest.1, record :: rest.2)
termination_by b.length
decreasing_by
  rw [length_drop]
  exact Nat.sub_lt (length_pos_iff.mpr ‹_›) (by decide)

/-- The writing half; `preWrite` is what a handshake has left to be sent with the first record. -/
structure Writer (K : Type) where
  aead : NonceAEAD K
  preWrite : Option (List UInt8)

/-- `Write`: the records, and the bytes that go out. -/
def Writer.write (w : Writer K) (b : List UInt8) : Writer K × List (Sealed K) × List UInt8 :=
  if b = [] then (w, [], [])
  else
    let records := writeLoop cipherOf deriveKey w.aead b
    (⟨records.1, none⟩, records.2, w.preWrite.getD [] ++ records.2.flatMap Sealed.bytes)

/-- Calls of `Write` in a row. -/
def Writer.writes (w : Writer K) : List (List UInt8) → Writer K × List (Sealed K) × List UInt8
  | [] => (w, [], [])
  | b :: bs =>
    let first := w.write cipherOf deriveKey b
    let rest := first.1.writes bs
    (rest.1, first.2.1 ++ rest.2.1, first.2.2 ++ rest.2.2)

/-! ### Reading -/

/-- The reading half. A client that has skipped the handshake has no `peerAEAD` yet, and one that
has not may have to skip a padding of some length. -/
structure CommonConn (K : Type) where
  wire : Wire
  client : Bool
  peerAEAD : Option (NonceAEAD K)
  peerPadding : Option Nat
  input : List UInt8

namespace CommonConn

/-- The cipher of the peer, which the first bytes make if there is none. -/
def peer (c : CommonConn K) : Option (NonceAEAD K × CommonConn K) :=
  match c.peerAEAD with
  | some a => some (a, c)
  | none => do
    let (serverRandom, wire) ← c.wire.readFull 16
    let a := newAEAD deriveKey serverRandom
    return (a, { c with wire := wire, peerAEAD := some a })

/-- Skips the padding, if there is one. -/
def skipPadding (c : CommonConn K) (a : NonceAEAD K) :
    Option (Except String (NonceAEAD K) × CommonConn K) :=
  match c.peerPadding with
  | none => some (.ok a, c)
  | some length => do
    let (padding, wire) ← c.wire.readFull length
    let nonce := increaseNonce a.nonce
    let a' : NonceAEAD K := ⟨a.key, nonce⟩
    match (cipherOf a.key).openText nonce padding [] with
    | none =>
      return (.error "cipher: message authentication failed",
        { c with wire := wire, peerAEAD := some a' })
    | some _ => return (.ok a', { c with wire := wire, peerAEAD := some a', peerPadding := none })

/-- Reads a record into a buffer of `n` bytes; what does not fit is kept. -/
def readRecord (n : Nat) (c : CommonConn K) (a : NonceAEAD K) :
    Option (List Item × CommonConn K) := do
  let (peerHeader, wire) ← c.wire.readFull 5
  match decodeHeader peerHeader with
  | none =>
    return ([.error (if c.client then "new handshake needed" else "invalid header")],
      { c with wire := wire })
  | some l =>
    let (peerData, wire) ← wire.readFull l
    let c : CommonConn K :=
      { c with
        wire := wire
        client := false
        peerAEAD := some (a.after deriveKey (peerHeader ++ peerData)) }
    match (cipherOf a.key).openText (increaseNonce a.nonce) peerData peerHeader with
    | none => return ([.error "cipher: message authentication failed"], c)
    | some plain => return ((plain.take n).map .byte, { c with input := plain.drop n })

/-- `Read` for a buffer of `n` bytes; none while it waits. -/
def read (n : Nat) (c : CommonConn K) : Option (List Item × CommonConn K) :=
  if n = 0 then some ([], c)
  else do
    let (a, c) ← c.peer deriveKey
    match ← c.skipPadding cipherOf a with
    | (.error message, c) => return ([.error message], c)
    | (.ok a, c) =>
      if c.input ≠ [] then
        return ((c.input.take n).map .byte, { c with input := c.input.drop n })
      else c.readRecord cipherOf deriveKey n a

end CommonConn

end Connection

/-! ### Records one after the other -/

section Records

variable {cipherOf : K → AEAD} {deriveKey : List UInt8 → K} {a a' a'' : NonceAEAD K}

/-- The records that lead a writer from one state of its cipher to another. -/
inductive Seals (cipherOf : K → AEAD) (deriveKey : List UInt8 → K) :
    NonceAEAD K → List (Sealed K) → NonceAEAD K → Prop
  | nil {a : NonceAEAD K} : Seals cipherOf deriveKey a [] a
  | cons {a a' : NonceAEAD K} {b : List UInt8} {records : List (Sealed K)} (hne : b ≠ [])
    (hle : b.length ≤ maxChunk)
    (h : Seals cipherOf deriveKey (a.sealRecord cipherOf deriveKey b).next records a') :
    Seals cipherOf deriveKey a (a.sealRecord cipherOf deriveKey b :: records) a'

variable {records log : List (Sealed K)} {c : CommonConn K} {n : Nat} {ctx : List UInt8}

theorem Seals.trans {records' : List (Sealed K)} (h : Seals cipherOf deriveKey a records a')
    (h' : Seals cipherOf deriveKey a' records' a'') :
    Seals cipherOf deriveKey a (records ++ records') a'' := by
  induction h with
  | nil => exact h'
  | cons hne hle _ ih => exact .cons hne hle (ih h')

theorem writeLoop_seals (a : NonceAEAD K) (b : List UInt8) :
    Seals cipherOf deriveKey a (writeLoop cipherOf deriveKey a b).2
        (writeLoop cipherOf deriveKey a b).1 ∧
      (writeLoop cipherOf deriveKey a b).2.flatMap Sealed.plain = b := by
  fun_induction writeLoop cipherOf deriveKey a b with
  | case1 a => exact ⟨.nil, rfl⟩
  | case2 a b hb record rest ih =>
    obtain ⟨hseals, hplain⟩ := ih
    refine ⟨.cons ?_ (length_take_le _ _) hseals, ?_⟩
    · rw [ne_eq, take_eq_nil_iff, not_or]
      exact ⟨by decide, hb⟩
    · rw [flatMap_cons, hplain]
      exact take_append_drop _ _

theorem writes_seals {w : Writer K} (hw : w.preWrite = none) (bs : List (List UInt8)) :
    Seals cipherOf deriveKey w.aead (w.writes cipherOf deriveKey bs).2.1
        (w.writes cipherOf deriveKey bs).1.aead ∧
      (w.writes cipherOf deriveKey bs).2.1.flatMap Sealed.plain = bs.flatten ∧
      (w.writes cipherOf deriveKey bs).2.2 =
        (w.writes cipherOf deriveKey bs).2.1.flatMap Sealed.bytes := by
  induction bs generalizing w with
  | nil => exact ⟨.nil, rfl, rfl⟩
  | cons b bs ih =>
    rw [Writer.writes, Writer.write]
    by_cases hb : b = []
    · subst hb
      exact ih hw
    · rw [if_neg hb]
      obtain ⟨hseals, hplain⟩ := @writeLoop_seals K cipherOf deriveKey w.aead b
      obtain ⟨hseals', hplain', hbytes'⟩ :=
        @ih ⟨(writeLoop cipherOf deriveKey w.aead b).1, none⟩ rfl
      refine ⟨hseals.trans hseals', ?_, ?_⟩
      · rw [flatMap_append, hplain, hplain', flatten_cons]
      · rw [flatMap_append, hbytes', hw]
        rfl

/-! ### Reading records -/

theorem length_encodeHeader (l : Nat) : (encodeHeader l).length = 5 := by
  rw [encodeHeader, length_append, length_putUint16]
  rfl

theorem decodeHeader_encodeHeader {l : Nat} (hlow : 17 ≤ l) (hhigh : l ≤ 17000) :
    decodeHeader (encodeHeader l) = some l := by
  have htake : (encodeHeader l).take 3 = [23, 3, 3] := rfl
  have hdrop : uint16 ((encodeHeader l).drop 3) = l := by
    have hback := uint16_putUint16 (n := l) (by omega) []
    rwa [append_nil] at hback
  rw [decodeHeader, if_neg (not_not_intro htake), hdrop, if_neg (by omega)]

/-- The reader that goes on with `a`, between records. -/
def CommonConn.Between (c : CommonConn K) (a : NonceAEAD K) : Prop :=
  c.peerAEAD = some a ∧ c.peerPadding = none

theorem read_between (h : c.Between a) (hn : n ≠ 0) :
    c.read cipherOf deriveKey n =
      if c.input ≠ [] then
        some ((c.input.take n).map .byte, { c with input := c.input.drop n })
      else c.readRecord cipherOf deriveKey n a := by
  obtain ⟨wire, client, peerAEAD, peerPadding, input⟩ := c
  obtain ⟨rfl, rfl⟩ : peerAEAD = some a ∧ peerPadding = none := h
  rw [CommonConn.read, if_neg hn]
  rfl

/-- A record is read back, and takes the reader to where it took the writer. -/
theorem readRecord_sealRecord {b rest : List UInt8} (hne : b ≠ []) (hle : b.length ≤ maxChunk)
    (hwire : c.wire.flatten = (a.sealRecord cipherOf deriveKey b).bytes ++ rest) (n : Nat) :
    ∃ wire', c.readRecord cipherOf deriveKey n a = some ((b.take n).map .byte,
      { wire := wire', client := false,
        peerAEAD := some (a.sealRecord cipherOf deriveKey b).next,
        peerPadding := c.peerPadding, input := b.drop n }) ∧ wire'.flatten = rest := by
  have hlength : b.length ≠ 0 := mt length_eq_zero_iff.mp hne
  have hmax : maxChunk = 8192 := rfl
  have hheader := @decodeHeader_encodeHeader (b.length + 16) (by omega) (by omega)
  rw [NonceAEAD.sealRecord, append_assoc] at hwire
  obtain ⟨wire₁, hread₁, hwire₁⟩ := Wire.readFull_of_flatten hwire (length_encodeHeader _)
  obtain ⟨wire₂, hread₂, hwire₂⟩ := Wire.readFull_of_flatten hwire₁ (AEAD.length_sealText ..)
  replace hread₂ : wire₁.readFull (b.length + 16) = _ := hread₂
  refine ⟨wire₂, ?_, hwire₂⟩
  rw [CommonConn.readRecord, hread₁]
  simp only [Option.bind_eq_bind, Option.bind_some, hheader, hread₂, AEAD.openText_sealText]
  rfl

/-! ### Delivery -/

/-- What a side goes on with after the records `done`, having started from `a`. -/
def stateAfter (a : NonceAEAD K) (done : List (Sealed K)) : NonceAEAD K :=
  (done.getLast?.map Sealed.next).getD a

theorem stateAfter_concat (a : NonceAEAD K) (done : List (Sealed K)) (record : Sealed K) :
    stateAfter a (done ++ [record]) = record.next := by
  rw [stateAfter, getLast?_concat]
  rfl

/-- The reader has read the records `done` of all records, and `records` are on the wire. -/
structure At (first : NonceAEAD K) (all done records : List (Sealed K)) (c : CommonConn K) :
    Prop where
  split : all = done ++ records
  wire : c.wire.flatten = records.flatMap Sealed.bytes
  between : c.Between (stateAfter first done)

/-- What the reader has still to tell its caller. -/
def Left (cipherOf : K → AEAD) (deriveKey : List UInt8 → K) (first : NonceAEAD K)
    (all : List (Sealed K)) (c : CommonConn K) (items : List Item) : Prop :=
  ∃ done records a', At first all done records c ∧
    Seals cipherOf deriveKey (stateAfter first done) records a' ∧
    items = (c.input ++ records.flatMap Sealed.plain).map .byte

variable {first : NonceAEAD K} {all : List (Sealed K)}

theorem read_gives {items : List Item} (hn : 0 < n)
    (hleft : Left cipherOf deriveKey first all c items) (hitems : items ≠ []) :
    ∃ out rest c', c.read cipherOf deriveKey n = some (out, c') ∧ items = out ++ rest ∧
      Left cipherOf deriveKey first all c' rest ∧ out ≠ [] := by
  obtain ⟨done, records, a', hat, hseals, rfl⟩ := hleft
  have hne : n ≠ 0 := pos_iff_ne_zero.mp hn
  rw [read_between hat.between hne]
  by_cases hinput : c.input = []
  · rw [if_neg (not_not_intro hinput)]
    generalize hstate : stateAfter first done = a at hseals
    cases hseals with
    | nil => exact absurd (by rw [hinput]; rfl) hitems
    | cons hb hle hseals =>
      rename_i b records
      have hwire := hat.wire
      rw [flatMap_cons] at hwire
      obtain ⟨wire', hread, hwire'⟩ := readRecord_sealRecord hb hle hwire n
      refine ⟨_, ((b.drop n) ++ records.flatMap Sealed.plain).map .byte, _, hread, ?_, ?_, ?_⟩
      · rw [hinput, nil_append, flatMap_cons, ← map_append, ← append_assoc, take_append_drop]
        rfl
      · refine ⟨done ++ [a.sealRecord cipherOf deriveKey b], records, a', ⟨?_, hwire', ?_⟩, ?_, rfl⟩
        · rw [hat.split, append_assoc, singleton_append]
        · rw [stateAfter_concat]
          exact ⟨rfl, hat.between.2⟩
        · rw [stateAfter_concat]
          exact hseals
      · simpa [hne] using hb
  · rw [if_pos hinput]
    refine ⟨_, _, _, rfl, ?_, ⟨done, records, a', ⟨hat.split, hat.wire, hat.between⟩, hseals, rfl⟩,
      ?_⟩
    · rw [← map_append, ← append_assoc, take_append_drop]
    · simpa [hne] using hinput

theorem read_waits (hn : 0 < n) (hleft : Left cipherOf deriveKey first all c []) :
    c.read cipherOf deriveKey n = none := by
  obtain ⟨done, records, a', hat, hseals, hitems⟩ := hleft
  obtain ⟨hinput, hplain⟩ := append_eq_nil_iff.mp (map_eq_nil_iff.mp hitems.symm)
  have hwire := hat.wire
  rw [read_between hat.between (pos_iff_ne_zero.mp hn), if_neg (not_not_intro hinput),
    CommonConn.readRecord, Wire.readFull_eq_none]
  · rfl
  · -- a record that is left would have something in it
    cases hseals with
    | nil =>
      rw [hwire]
      exact zero_lt_succ 4
    | cons hne => exact absurd (append_eq_nil_iff.mp hplain).1 hne

theorem serves :
    Serves (CommonConn.read cipherOf deriveKey) (0 < ·) (Left cipherOf deriveKey first all) where
  waits := read_waits
  gives := read_gives
  idle := by
    intro c items n out c' hzero hleft hread
    rw [CommonConn.read, if_pos (Nat.eq_zero_of_not_pos hzero)] at hread
    cases hread
    exact ⟨items, rfl, hleft⟩

/-! ### Keys and nonces -/

/-- The number of a nonce. -/
def nonceValue (nonce : List UInt8) : Nat := littleEndian nonce.reverse

theorem length_increaseNonce (nonce : List UInt8) :
    (increaseNonce nonce).length = nonce.length := by
  rw [increaseNonce, length_reverse, length_increment, length_reverse]

theorem nonceValue_increaseNonce (nonce : List UInt8) :
    nonceValue (increaseNonce nonce) = (nonceValue nonce + 1) % 256 ^ nonce.length := by
  rw [nonceValue, increaseNonce, reverse_reverse, littleEndian_increment, length_reverse,
    nonceValue]

theorem nonceValue_maxNonce : nonceValue maxNonce + 1 = 256 ^ 12 := by decide

theorem nonceValue_lt {nonce : List UInt8} (hlength : nonce.length = 12) (hne : nonce ≠ maxNonce) :
    nonceValue nonce + 1 < 256 ^ 12 := by
  have hlt := littleEndian_lt nonce.reverse
  rw [length_reverse, hlength] at hlt
  refine lt_of_le_of_ne hlt fun heq => hne ?_
  have hfull := @eq_replicate_of_littleEndian nonce.reverse
    (by rw [length_reverse, hlength]; exact heq)
  rw [length_reverse, hlength] at hfull
  rw [← reverse_reverse nonce, hfull, reverse_replicate]
  rfl

/-- What an ideal cipher gives for a run: records under different keys are different, and none is
the context that the first key was derived from. -/
structure Ideal (ctx : List UInt8) (log : List (Sealed K)) : Prop where
  key_eq : ∀ r ∈ log, ∀ r' ∈ log, r.bytes = r'.bytes → r.key = r'.key
  ne_ctx : ∀ r ∈ log, r.bytes ≠ ctx

/-- Where the writer stands behind the records of a log. -/
structure Fresh (deriveKey : List UInt8 → K) (ctx : List UInt8) (log : List (Sealed K))
    (a : NonceAEAD K) : Prop where
  length : a.nonce.length = 12
  pairwise : log.Pairwise fun r r' => ¬(r.key = r'.key ∧ r.nonce = r'.nonce)
  /-- Under the key in use only nonces up to the current one were used, and zero was not. -/
  below : ∀ r ∈ log, r.key = a.key → 0 < nonceValue r.nonce ∧ nonceValue r.nonce ≤ nonceValue a.nonce
  /-- Every key but the first was derived from a record with the nonce zero. -/
  derived : ∀ k, (k = a.key ∨ ∃ r ∈ log, r.key = k) →
    k = deriveKey ctx ∨ ∃ r ∈ log, nonceValue r.nonce = 0 ∧ k = deriveKey r.bytes

theorem Fresh.snoc (hinj : Function.Injective deriveKey) (h : Fresh deriveKey ctx log a)
    {b : List UInt8} (hideal : Ideal ctx (log ++ [a.sealRecord cipherOf deriveKey b])) :
    Fresh deriveKey ctx (log ++ [a.sealRecord cipherOf deriveKey b])
      (a.sealRecord cipherOf deriveKey b).next := by
  set record := a.sealRecord cipherOf deriveKey b with hrecord
  have hmem : record ∈ log ++ [record] := mem_append_right _ (mem_singleton_self _)
  have hvalue : nonceValue record.nonce = (nonceValue a.nonce + 1) % 256 ^ 12 := by
    have hinc := nonceValue_increaseNonce a.nonce
    rwa [h.length] at hinc
  have hpairwise : (log ++ [record]).Pairwise fun r r' => ¬(r.key = r'.key ∧ r.nonce = r'.nonce) := by
    refine pairwise_append.mpr ⟨h.pairwise, pairwise_singleton _ _, ?_⟩
    rintro r hr r' hr' ⟨hkey, hnonce⟩
    obtain rfl := mem_singleton.mp hr'
    obtain ⟨hpos, hle⟩ := h.below r hr hkey
    rw [hnonce, hvalue] at hpos hle
    by_cases hmax : a.nonce = maxNonce
    · rw [hmax, nonceValue_maxNonce, mod_self] at hpos
      exact absurd hpos (lt_irrefl 0)
    · rw [mod_eq_of_lt (nonceValue_lt h.length hmax)] at hle
      omega
  by_cases hmax : a.nonce = maxNonce
  · -- the record wraps the nonce around, and the key changes
    have hzero : nonceValue record.nonce = 0 := by
      rw [hvalue, hmax, nonceValue_maxNonce, mod_self]
    have hnext : record.next = ⟨deriveKey record.bytes, zeroNonce⟩ := by
      rw [hrecord, NonceAEAD.sealRecord, NonceAEAD.after, if_pos hmax]
      rfl
    rw [hnext]
    have holder : ∀ k, (∃ r ∈ log ++ [record], r.key = k) →
        k = deriveKey ctx ∨ ∃ r ∈ log, nonceValue r.nonce = 0 ∧ k = deriveKey r.bytes := by
      rintro k ⟨r, hr, rfl⟩
      rcases mem_append.mp hr with hr | hr
      · exact h.derived _ (.inr ⟨r, hr, rfl⟩)
      · rw [mem_singleton.mp hr]
        exact h.derived _ (.inl rfl)
    refine ⟨length_replicate, hpairwise, fun r hr hkey => ?_, ?_⟩
    · -- the new key was not in use before
      exfalso
      rcases holder _ ⟨r, hr, rfl⟩ with hfirst | ⟨old, hold, hzero', hderived⟩
      · exact hideal.ne_ctx record hmem (hinj (hkey.symm.trans hfirst))
      · have hbytes := hinj (hkey.symm.trans hderived)
        have hsame := hideal.key_eq record hmem old (mem_append_left _ hold) hbytes
        have hpos := (h.below old hold hsame.symm).1
        omega
    · rintro k (rfl | hk)
      · exact .inr ⟨record, hmem, hzero, rfl⟩
      · exact (holder k hk).imp_right fun ⟨r, hr, hr'⟩ => ⟨r, mem_append_left _ hr, hr'⟩
  · have hnext : record.next = ⟨a.key, record.nonce⟩ := by
      rw [hrecord, NonceAEAD.sealRecord, NonceAEAD.after, if_neg hmax]
    have hlt := nonceValue_lt h.length hmax
    rw [mod_eq_of_lt hlt] at hvalue
    rw [hnext]
    refine ⟨(length_increaseNonce _).trans h.length, hpairwise, fun r hr hkey => ?_, ?_⟩
    · rcases mem_append.mp hr with hr | hr
      · have hbelow := h.below r hr hkey
        exact ⟨hbelow.1, by dsimp only; omega⟩
      · rw [mem_singleton.mp hr]
        exact ⟨by omega, le_refl _⟩
    · rintro k hk
      have hold : k = a.key ∨ ∃ r ∈ log, r.key = k := by
        rcases hk with rfl | ⟨r, hr, rfl⟩
        · exact .inl rfl
        · rcases mem_append.mp hr with hr | hr
          · exact .inr ⟨r, hr, rfl⟩
          · rw [mem_singleton.mp hr]
            exact .inl rfl
      exact (h.derived k hold).imp_right fun ⟨r, hr, hr'⟩ => ⟨r, mem_append_left _ hr, hr'⟩

theorem Ideal.of_subset {log' : List (Sealed K)} (h : Ideal ctx log') (hsub : log ⊆ log') :
    Ideal ctx log :=
  ⟨fun r hr r' hr' => h.key_eq r (hsub hr) r' (hsub hr'), fun r hr => h.ne_ctx r (hsub hr)⟩

theorem Fresh.seals (hinj : Function.Injective deriveKey) (h : Fresh deriveKey ctx log a)
    (hseals : Seals cipherOf deriveKey a records a') (hideal : Ideal ctx (log ++ records)) :
    Fresh deriveKey ctx (log ++ records) a' := by
  induction hseals generalizing log with
  | nil =>
    rw [append_nil]
    exact h
  | cons hne hle _ ih =>
    rename_i a a' b records
    rw [append_cons] at hideal ⊢
    refine ih (h.snoc hinj (hideal.of_subset (subset_append_left _ _))) hideal

/-- Every record is sealed with the key that the records before it have led to, and leads on by the
rule for the change of keys. -/
theorem Seals.chain {done rest : List (Sealed K)} {record : Sealed K}
    (h : Seals cipherOf deriveKey a records a') (hsplit : records = done ++ record :: rest) :
    record.key = (stateAfter a done).key ∧
      record.next = (stateAfter a done).after deriveKey record.bytes := by
  induction h generalizing done with
  | nil => exact absurd hsplit.symm (append_ne_nil_of_right_ne_nil _ (cons_ne_nil _ _))
  | cons hne hle _ ih =>
    cases done with
    | nil =>
      obtain ⟨rfl, rfl⟩ := List.cons.inj hsplit
      exact ⟨rfl, rfl⟩
    | cons first done =>
      obtain ⟨rfl, hrest⟩ := List.cons.inj hsplit
      have hchain := ih hrest
      cases hdone : done.getLast? with
      | none =>
        obtain rfl := getLast?_eq_none_iff.mp hdone
        exact hchain
      | some last =>
        have hstate : ∀ start : NonceAEAD K, stateAfter start (done) = last.next := by
          intro start
          rw [stateAfter, hdone]
          rfl
        rw [stateAfter, getLast?_cons, hdone]
        rwa [hstate] at hchain

end Records

/-- Two connections that start from the same key and nonce, whatever is written, the pieces that the
wire comes in and the sizes of the buffers: the calls of `Read` give what was written, and wait only
if it was given to its end. The records that were read have brought the reader to the key and nonce
that the writer had after them; both change exactly at a record that was sealed at the maximal
nonce, to the key derived from it. If keys are derived injectively and the cipher is ideal, no key
is used twice with a nonce. -/
theorem read_delivers_records (cipherOf : K → AEAD) (deriveKey : List UInt8 → K)
    {first : NonceAEAD K} (hfirst : first.nonce.length = 12) (bs : List (List UInt8)) {wire : Wire}
    (hwire : wire.flatten = ((⟨first, none⟩ : Writer K).writes cipherOf deriveKey bs).2.2)
    (client : Bool) {out : List Item} {c : CommonConn K}
    (hreads : Reads (CommonConn.read cipherOf deriveKey) ⟨wire, client, some first, none, []⟩ out c) :
    let log := ((⟨first, none⟩ : Writer K).writes cipherOf deriveKey bs).2.1
    (out <+: bs.flatten.map .byte ∧
      ∀ n, 0 < n → (c.read cipherOf deriveKey n = none ↔ out = bs.flatten.map .byte) ∧
        ∀ more c', c.read cipherOf deriveKey n = some (more, c') → more ≠ []) ∧
    (∃ done records, At first log done records c) ∧
    (∀ done record rest, log = done ++ record :: rest →
      record.key = (stateAfter first done).key ∧
        record.next = if (stateAfter first done).nonce = maxNonce
          then ⟨deriveKey record.bytes, zeroNonce⟩
          else ⟨record.key, increaseNonce (stateAfter first done).nonce⟩) ∧
    (Function.Injective deriveKey → ∀ ctx, first.key = deriveKey ctx → Ideal ctx log →
      log.Pairwise fun r r' => ¬(r.key = r'.key ∧ r.nonce = r'.nonce)) := by
  intro log
  obtain ⟨hseals, hplain, hbytes⟩ := @writes_seals K cipherOf deriveKey ⟨first, none⟩ rfl bs
  have hleft : Left cipherOf deriveKey first log ⟨wire, client, some first, none, []⟩
      (bs.flatten.map .byte) :=
    ⟨[], log, _, ⟨rfl, hwire.trans hbytes, rfl, rfl⟩, hseals, by rw [nil_append, hplain]⟩
  obtain ⟨rest, -, hrest⟩ := serves.reads hleft hreads
  obtain ⟨done, records, -, hat, -⟩ := hrest
  refine ⟨serves.exact hleft hreads, ⟨done, records, hat⟩, fun done record rest hsplit => ?_,
    fun hinj ctx hkey hideal => ?_⟩
  · obtain ⟨hkey, hnext⟩ := hseals.chain hsplit
    rw [hkey]
    exact ⟨rfl, hnext⟩
  · have hstart : Fresh deriveKey ctx [] first :=
      ⟨hfirst, .nil, nofun, fun k hk => .inl (hk.elim (fun h => h.trans hkey) nofun)⟩
    exact (hstart.seals hinj hseals hideal).pairwise

/-- Two bytes are written at the maximal nonce, so the first record changes the key. -/
theorem read_returns_at_maxNonce :
    let first : NonceAEAD (List UInt8) := ⟨[1], maxNonce⟩
    let written := (⟨first, none⟩ : Writer _).writes (fun _ => plainAEAD) id [[7], [8]]
    CommonConn.read (fun _ => plainAEAD) id 1 ⟨[written.2.2], false, some first, none, []⟩ ≠ none ∧
      ∀ record rest, written.2.1 = record :: rest → record.next = ⟨record.bytes, zeroNonce⟩ := by
  intro first written
  have h := @read_delivers_records _ (fun _ => plainAEAD) id first (by decide) [[7], [8]]
    [written.2.2] (append_nil _) false _ _ (.refl _)
  exact ⟨fun hwaits => absurd ((h.1.2 1 one_pos).1.mp hwaits) nofun,
    fun record rest hlog => (h.2.2.1 [] record rest hlog).2⟩

end Hako.Vless
