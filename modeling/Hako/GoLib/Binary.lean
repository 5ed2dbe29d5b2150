import Hako.GoLib.Netip

/-!
# Numbers as bytes

`binary.BigEndian` for numbers of two, four and eight bytes, and the counters that ciphers use as
nonces: adding one to a number that is kept as bytes, least significant first.
-/

namespace Hako.GoLib.Binary

open Addr

/-- `binary.BigEndian.PutUint16` of a number that was cut to sixteen bits. -/
def putUint16 (n : Nat) : List UInt8 := bytesOf 2 n

/-- `binary.BigEndian.Uint16` -/
def uint16 (bytes : List UInt8) : Nat := ofBytes (bytes.take 2)

theorem length_putUint16 (n : Nat) : (putUint16 n).length = 2 := length_bytesOf 2 n

theorem uint16_putUint16 {n : Nat} (h : n < 2 ^ 16) (rest : List UInt8) :
    uint16 (putUint16 n ++ rest) = n := by
  rw [uint16, List.take_left' (length_putUint16 n), putUint16, ofBytes_bytesOf]
  exact Nat.mod_eq_of_lt h

theorem putUint16_eq (n : Nat) : putUint16 n = [UInt8.ofNat (n / 256), UInt8.ofNat n] := rfl

theorem uint16_pair {n : Nat} (h : n < 2 ^ 16) :
    uint16 [UInt8.ofNat (n / 256), UInt8.ofNat n] = n :=
  uint16_putUint16 h []

theorem putUint16_uint16 (b₀ b₁ : UInt8) : putUint16 (uint16 [b₀, b₁]) = [b₀, b₁] :=
  bytesOf_ofBytes [b₀, b₁]

/-- `binary.BigEndian.PutUint32` -/
def putUint32 (n : UInt32) : List UInt8 := bytesOf 4 n.toNat

/-- `binary.BigEndian.Uint32` -/
def uint32 (bytes : List UInt8) : UInt32 := UInt32.ofNat (ofBytes (bytes.take 4))

variable (n : UInt32) (bytes : List UInt8)

theorem length_putUint32 : (putUint32 n).length = 4 := length_bytesOf 4 _

theorem uint32_putUint32 (rest : List UInt8) : uint32 (putUint32 n ++ rest) = n := by
  rw [uint32, List.take_left' (length_putUint32 n), putUint32, ofBytes_bytesOf]
  have hlt : n.toNat < 256 ^ 4 := n.toNat_lt
  rw [Nat.mod_eq_of_lt hlt, UInt32.ofNat_toNat]

/-- `binary.BigEndian.PutUint64` -/
def putUint64 (n : UInt64) : List UInt8 := bytesOf 8 n.toNat

/-- `binary.BigEndian.Uint64` -/
def uint64 (bytes : List UInt8) : UInt64 := UInt64.ofNat (ofBytes (bytes.take 8))

theorem length_putUint64 (n : UInt64) : (putUint64 n).length = 8 := length_bytesOf 8 _

theorem uint64_putUint64 (n : UInt64) (rest : List UInt8) : uint64 (putUint64 n ++ rest) = n := by
  rw [uint64, List.take_left' (length_putUint64 n), putUint64, ofBytes_bytesOf]
  have hlt : n.toNat < 256 ^ 8 := n.toNat_lt
  rw [Nat.mod_eq_of_lt hlt, UInt64.ofNat_toNat]

theorem putUint64_uint64 (h : bytes.length = 8) : putUint64 (uint64 bytes) = bytes := by
  have hlt : ofBytes bytes < 2 ^ 64 := by simpa [h] using ofBytes_lt bytes
  rw [uint64, List.take_of_length_le h.le, putUint64, UInt64.toNat_ofNat_of_lt' hlt, ← h,
    bytesOf_ofBytes]

/-! ### Counters -/

/-- Adds one, with the carry to the bytes behind. -/
def increment : List UInt8 → List UInt8
  | [] => []
  | b :: bytes => if b + 1 ≠ 0 then (b + 1) :: bytes else 0 :: increment bytes

def littleEndian : List UInt8 → Nat
  | [] => 0
  | b :: bytes => b.toNat + 256 * littleEndian bytes

theorem length_increment : (increment bytes).length = bytes.length := by
  induction bytes with
  | nil => rfl
  | cons b bytes ih =>
    rw [increment]
    split
    · rfl
    · rw [List.length_cons, ih, List.length_cons]

theorem littleEndian_lt : littleEndian bytes < 256 ^ bytes.length := by
  induction bytes with
  | nil => exact Nat.one_pos
  | cons b bytes ih =>
    have hb := b.toNat_lt
    rw [littleEndian, List.length_cons, Nat.pow_succ]
    omega

theorem littleEndian_increment :
    littleEndian (increment bytes) = (littleEndian bytes + 1) % 256 ^ bytes.length := by
  induction bytes with
  | nil => rfl
  | cons b bytes ih =>
    have hb := b.toNat_lt
    have hlt := littleEndian_lt bytes
    rw [increment]
    split
    · rename_i hne
      -- no carry: the first byte is not the last one there is
      have hsmall : b.toNat + 1 < 256 := by
        refine Nat.lt_of_le_of_ne hb fun heq => hne ?_
        refine UInt8.toNat_inj.mp ?_
        rw [UInt8.toNat_add]
        change (b.toNat + 1) % 256 = 0
        rw [heq]
      rw [littleEndian, littleEndian, UInt8.toNat_add, List.length_cons, Nat.pow_succ]
      change (b.toNat + 1) % 256 + _ = _
      rw [Nat.mod_eq_of_lt hsmall, Nat.mod_eq_of_lt (by omega)]
      omega
    · rename_i hzero
      have hfull : b.toNat = 255 := by
        have hsum := congrArg UInt8.toNat (not_not.mp hzero)
        rw [UInt8.toNat_add] at hsum
        change (b.toNat + 1) % 256 = 0 at hsum
        omega
      rw [littleEndian, littleEndian, ih, hfull, List.length_cons, Nat.pow_succ]
      change 0 + 256 * _ = _
      have hsplit : 255 + 256 * littleEndian bytes + 1 = 256 * (littleEndian bytes + 1) := by omega
      rw [hsplit, Nat.mul_comm (256 ^ bytes.length), Nat.mul_mod_mul_left, Nat.zero_add]

/-- Only the last number has nothing but full bytes. -/
theorem eq_replicate_of_littleEndian {bytes : List UInt8}
    (h : littleEndian bytes + 1 = 256 ^ bytes.length) :
    bytes = List.replicate bytes.length 255 := by
  induction bytes with
  | nil => rfl
  | cons b bytes ih =>
    have hb := b.toNat_lt
    have hlt := littleEndian_lt bytes
    rw [littleEndian, List.length_cons, Nat.pow_succ] at h
    have hfull : b = 255 := UInt8.toNat_inj.mp (by change b.toNat = 255; omega)
    rw [List.length_cons, List.replicate_succ, ← ih (by omega), hfull]

end Hako.GoLib.Binary
