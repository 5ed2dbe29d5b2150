import Mathlib

/-!
# Packet numbers of QUIC

The sniffer gets the low bytes of a packet number and completes them to the number that is nearest
to the one it expects next.
-/

namespace Hako.Sniffer

/-- Packet numbers are below `2 ^ 62`, so that no sum here leaves the range of `int64`. -/
def decodeQUICPacketNumber (length : Nat) (largest truncated : Int) : Int :=
  let expected := largest + 1
  let window : Int := 1 <<< (length * 8)
  let halfWindow := window / 2
  let mask := window - 1
  let candidate := (expected.land mask.lnot).lor truncated
  if candidate ≤ expected - halfWindow ∧ candidate < 1 <<< 62 - window then candidate + window
  else if candidate > expected + halfWindow ∧ candidate ≥ window then candidate - window
  else candidate

/-- The candidate has the high bits of what is expected and the low bits that were sent. -/
theorem lor_land_lnot {k t : Nat} (e : Nat) (ht : t < 2 ^ k) :
    ((e : Int).land ((1 <<< k : Nat) - 1 : Int).lnot).lor t = e / 2 ^ k * 2 ^ k + t := by
  have hmask : ((1 <<< k : Nat) - 1 : Int) = (2 ^ k - 1 : Nat) := by
    rw [Nat.one_shiftLeft, Nat.cast_sub Nat.one_le_two_pow, Nat.cast_one]
  have hhigh : Nat.ldiff e (2 ^ k - 1) = (e >>> k) <<< k := by
    refine Nat.eq_of_testBit_eq fun i => ?_
    rw [Nat.testBit_ldiff, Nat.testBit_two_pow_sub_one, Nat.testBit_shiftLeft,
      Nat.testBit_shiftRight]
    by_cases hi : k ≤ i
    · simp [hi]
    · simp [hi, Nat.lt_of_not_le hi]
  rw [hmask]
  change ((Nat.ldiff e (2 ^ k - 1) ||| t : Nat) : Int) = _
  rw [hhigh, ← Nat.shiftLeft_add_eq_or_of_lt ht, Nat.shiftLeft_eq, Nat.shiftRight_eq_div_pow]
  simp

/-- A packet number within half a window of the expected one is found from its low bytes. -/
theorem decodeQUICPacketNumber_eq {length : Nat} (hmin : 1 ≤ length) (hmax : length ≤ 4)
    {largest : Int} (hfirst : -1 ≤ largest) (hlast : largest ≤ 2 ^ 62 - 2) {n : Nat}
    (hn : n < 2 ^ 62) (hlow : largest + 1 - 2 ^ (length * 8) / 2 < n)
    (hhigh : n ≤ largest + 1 + 2 ^ (length * 8) / 2) :
    decodeQUICPacketNumber length largest (n % 2 ^ (length * 8) : Nat) = n := by
  obtain ⟨e, he⟩ := Int.eq_ofNat_of_zero_le (show 0 ≤ largest + 1 by omega)
  have ht := Nat.mod_lt n (Nat.two_pow_pos (length * 8))
  rw [he] at hlow hhigh
  simp only [decodeQUICPacketNumber, he, lor_land_lnot e ht]
  -- the candidate is right or one window away, and the guards tell which
  interval_cases length <;> split_ifs <;> omega

theorem decodeQUICPacketNumber_two :
    decodeQUICPacketNumber 2 0xa82f30ea (0xa82f9b32 % 2 ^ (2 * 8) : Nat) = 0xa82f9b32 :=
  decodeQUICPacketNumber_eq (by decide) (by decide) (by decide) (by decide) (by decide)
    (by decide) (by decide)

end Hako.Sniffer
