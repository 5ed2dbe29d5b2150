import Mathlib

/-!
# Rank and select

Bit strings, the number of ones before a place and the place of a one, and bit strings stored
in 64-bit words.
-/

namespace Hako.Lib

open List

/-- The number of ones before the place `i`. -/
def rank (bits : List Bool) (i : Nat) : Nat := (bits.take i).count true

/-- The place of the `i`-th one, counted from zero. -/
def select : List Bool → Nat → Option Nat
  | [], _ => none
  | true :: _, 0 => some 0
  | true :: bits, i + 1 => (select bits i).map (· + 1)
  | false :: bits, i => (select bits i).map (· + 1)

variable {i p k : Nat} {bits : List Bool} {words : List UInt64}

@[simp] theorem rank_zero (bits : List Bool) : rank bits 0 = 0 := by simp [rank]

theorem rank_cons_succ (b : Bool) (bits : List Bool) (i : Nat) :
    rank (b :: bits) (i + 1) = rank bits i + b.toNat := by
  cases b <;> simp [rank]

theorem rank_le (bits : List Bool) (i : Nat) : rank bits i ≤ i :=
  le_trans count_le_length (length_take_le ..)

theorem rank_succ {b : Bool} (h : bits[i]? = some b) :
    rank bits (i + 1) = rank bits i + b.toNat := by
  unfold rank
  rw [take_add_one, h]
  cases b <;> simp

variable (rest : List Bool) (w : UInt64)

theorem rank_append_left (h : i ≤ bits.length) : rank (bits ++ rest) i = rank bits i := by
  rw [rank, take_append_of_le_length h, rank]

/-- A one with `i` ones before it is where `select` finds the `i`-th one. -/
theorem select_eq_some_iff : select bits i = some p ↔ bits[p]? = some true ∧ rank bits p = i := by
  induction bits generalizing i p with
  | nil => simp [select]
  | cons b bits ih =>
    cases p with
    | zero =>
      cases b with
      | false => simp [select]
      | true => cases i <;> simp [select]
    | succ p =>
      rw [getElem?_cons_succ, rank_cons_succ]
      cases b with
      | false => simp [select, ih]
      | true => cases i <;> simp [select, ih]

theorem rank_of_select (h : select bits i = some p) : rank bits (p + 1) = i + 1 := by
  obtain ⟨hone, hrank⟩ := select_eq_some_iff.mp h
  rw [rank_succ hone, hrank]
  rfl

/-- What follows does not move a one. -/
theorem select_append (h : select bits i = some p) : select (bits ++ rest) i = some p := by
  obtain ⟨hone, hrank⟩ := select_eq_some_iff.mp h
  have hlt : p < bits.length := (List.getElem?_eq_some_iff.mp hone).1
  refine select_eq_some_iff.mpr ⟨?_, ?_⟩
  · rw [getElem?_append_left hlt, hone]
  · rw [rank_append_left rest (le_of_lt hlt), hrank]

/-! ### Words -/

/-- The bits of a word, lowest first. -/
def wordBits (w : UInt64) : List Bool := (List.range 64).map w.toNat.testBit

/-- The bits of a list of words. -/
def bitsOf (words : List UInt64) : List Bool := words.flatMap wordBits

@[simp] theorem length_wordBits : (wordBits w).length = 64 := by simp [wordBits]

@[simp] theorem length_bitsOf (words : List UInt64) :
    (bitsOf words).length = 64 * words.length := by
  induction words with
  | nil => rfl
  | cons w words ih =>
    rw [bitsOf, flatMap_cons, length_append, length_wordBits, ← bitsOf, ih, length_cons]
    omega

theorem getElem?_bitsOf (words : List UInt64) (i : Nat) :
    (bitsOf words)[i]? = words[i / 64]?.map fun w => w.toNat.testBit (i % 64) := by
  induction words generalizing i with
  | nil => simp [bitsOf]
  | cons w words ih =>
    rw [bitsOf, flatMap_cons, ← bitsOf]
    rcases Nat.lt_or_ge i 64 with hi | hi
    · rw [getElem?_append_left (by simpa using hi), Nat.div_eq_of_lt hi, Nat.mod_eq_of_lt hi]
      simp [wordBits, hi]
    · rw [getElem?_append_right (by simpa using hi), length_wordBits, ih]
      obtain ⟨k, rfl⟩ := Nat.exists_eq_add_of_le hi
      simp [add_comm 64 k]

theorem toNat_one_shiftLeft (hk : k < 64) : ((1 : UInt64) <<< UInt64.ofNat k).toNat = 2 ^ k := by
  rw [UInt64.toNat_shiftLeft, UInt64.toNat_ofNat', Nat.mod_eq_of_lt (lt_trans hk (by decide)),
    Nat.mod_eq_of_lt hk, UInt64.toNat_one, Nat.one_shiftLeft]
  exact Nat.mod_eq_of_lt (Nat.pow_lt_pow_right (by decide) hk)

/-- The bit `k` of a word, as a mask picks it. -/
theorem and_mask_ne_zero_iff (hk : k < 64) :
    w &&& (1 <<< UInt64.ofNat k) ≠ 0 ↔ w.toNat.testBit k := by
  rw [ne_eq, ← UInt64.toNat_inj, UInt64.toNat_and, toNat_one_shiftLeft hk, UInt64.toNat_zero,
    Nat.and_two_pow]
  cases w.toNat.testBit k <;> simp

/-- The bits of a word after a mask has set the bit `k`. -/
theorem testBit_or_mask (hk : k < 64) (j : Nat) :
    (w ||| (1 <<< UInt64.ofNat k)).toNat.testBit j = (w.toNat.testBit j || k = j) := by
  rw [UInt64.toNat_or, toNat_one_shiftLeft hk, Nat.testBit_or, Nat.testBit_two_pow]

/-! ### Bit strings in words -/

/-- The bit at a place; beyond the words it is zero. -/
def bitAt (words : List UInt64) (i : Nat) : Bool := (bitsOf words)[i]?.getD false

/-- The words store the bits and then zeros. -/
def Stores (words : List UInt64) (bits : List Bool) : Prop :=
  ∀ i, bitAt words i = bits[i]?.getD false

theorem bitAt_eq (words : List UInt64) (i : Nat) :
    bitAt words i = (words[i / 64]?.getD 0).toNat.testBit (i % 64) := by
  rw [bitAt, getElem?_bitsOf]
  cases words[i / 64]? with
  | none => simp
  | some w => rfl

theorem stores_nil : Stores [] [] := fun _ => rfl

section

variable (h : Stores words bits)
include h

variable {words' : List UInt64}

/-- Adding a one. -/
theorem Stores.append_true (hset : ∀ i, bitAt words' i = (bitAt words i || i = bits.length)) :
    Stores words' (bits ++ [true]) := by
  intro i
  rw [hset, h i, getElem?_append, getElem?_singleton]
  rcases Nat.lt_trichotomy i bits.length with hi | hi | hi
  · simp [hi, ne_of_lt hi]
  · simp [hi]
  · simp [Nat.not_lt_of_gt hi, Nat.ne_of_gt hi, Nat.sub_ne_zero_of_lt hi]

/-- Adding a zero changes nothing. -/
theorem Stores.append_false
    (hset : ∀ i, bitAt words' i = bitAt words i) : Stores words' (bits ++ [false]) := by
  intro i
  rw [hset, h i, getElem?_append, getElem?_singleton]
  split
  · rfl
  · rename_i hi
    rw [getElem?_eq_none (Nat.le_of_not_lt hi)]
    split <;> rfl

/-- Up to a stored one the words have the stored bits. -/
theorem Stores.getElem?_of_le {j : Nat} (hj : bits[j]? = some true)
    (hi : i ≤ j) : (bitsOf words)[i]? = bits[i]? := by
  have hlt : j < (bitsOf words).length := by
    by_contra hge
    have := h j
    rw [bitAt, getElem?_eq_none (Nat.le_of_not_lt hge), hj] at this
    cases this
  have hlt' : i < bits.length := lt_of_le_of_lt hi (List.getElem?_eq_some_iff.mp hj).1
  have hbit := h i
  rw [bitAt, getElem?_eq_getElem (lt_of_le_of_lt hi hlt), getElem?_eq_getElem hlt'] at hbit
  rw [getElem?_eq_getElem (lt_of_le_of_lt hi hlt), getElem?_eq_getElem hlt']
  exact congrArg some hbit

end

/-- The stored bits, when the last of them is a one. -/
theorem Stores.bitsOf_eq (h : Stores words (bits ++ [true])) :
    ∃ k, bitsOf words = (bits ++ [true]) ++ List.replicate k false := by
  have hlast : (bits ++ [true])[bits.length]? = some true := by simp
  have hlt : bits.length < (bitsOf words).length := by
    have := h.getElem?_of_le hlast (le_refl _)
    rw [hlast] at this
    exact (List.getElem?_eq_some_iff.mp this).1
  refine ⟨(bitsOf words).length - (bits.length + 1), ext_getElem? fun i => ?_⟩
  rw [getElem?_append]
  split
  · rename_i hi
    rw [length_append, length_singleton] at hi
    exact h.getElem?_of_le hlast (Nat.le_of_lt_succ hi)
  · rename_i hi
    have hbit := h i
    rw [getElem?_eq_none (Nat.le_of_not_lt hi), bitAt] at hbit
    rw [length_append, length_singleton] at hi ⊢
    rw [getElem?_replicate]
    split
    · rw [getElem?_eq_getElem (by omega)] at hbit ⊢
      exact congrArg some hbit
    · rw [getElem?_eq_none (by omega)]

end Hako.Lib
