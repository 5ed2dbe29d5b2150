import Mathlib

/-!
# Byte strings and their runes

A Go string is a sequence of bytes. Ranging over it, or converting it to `[]rune`,
decodes UTF-8 and replaces every byte that starts no well-formed sequence by U+FFFD.
This file gives that decoder and the matching encoder, and the facts about them that
string processing rests on: encoding and decoding valid runes is a round trip, and an
ASCII byte is never swallowed by the sequence in front of it, so decoding commutes with
splitting at ASCII bytes.
-/

namespace Hako.GoLib

open List

/-- A Go string: bytes, not necessarily valid UTF-8. -/
abbrev GoString := List UInt8

instance : LawfulBEq GoString := inferInstance

/-- `utf8.RuneError`, the replacement character. -/
def runeError : Nat := 0xFFFD

/-- `utf8.RuneSelf`: bytes below it are single-byte runes. -/
def runeSelf : Nat := 0x80

/-- The Go string of a literal; every character of it must be ASCII. -/
def lit (s : String) : GoString := s.toList.map fun c => c.toNat.toUInt8

/-- A code point that UTF-8 can carry: no surrogate and not above U+10FFFF. -/
def ValidRune (r : Nat) : Prop := r < 0xD800 ∨ (0xDFFF < r ∧ r ≤ 0x10FFFF)

instance (r : Nat) : Decidable (ValidRune r) := inferInstanceAs (Decidable (_ ∨ _))

/-- A continuation byte. -/
def isTail (b : UInt8) : Bool := 0x80 ≤ b.toNat && b.toNat ≤ 0xBF

/-- The length of the sequence a non-ASCII byte starts and the range its second byte
must lie in (the tables `first` and `acceptRanges` of `unicode/utf8`). -/
def first (b : Nat) : Option (Nat × Nat × Nat) :=
  if b < 0xC2 then none
  else if b < 0xE0 then some (2, 0x80, 0xBF)
  else if b = 0xE0 then some (3, 0xA0, 0xBF)
  else if b = 0xED then some (3, 0x80, 0x9F)
  else if b < 0xF0 then some (3, 0x80, 0xBF)
  else if b = 0xF0 then some (4, 0x90, 0xBF)
  else if b < 0xF4 then some (4, 0x80, 0xBF)
  else if b = 0xF4 then some (4, 0x80, 0x8F)
  else none

/-- The runes of a sequence of two, three or four bytes whose first byte announced it. -/
def decodeTail (b₀ : UInt8) (lo hi : Nat) : Nat → GoString → Nat × Nat
  | 2, b₁ :: _ =>
    if lo ≤ b₁.toNat ∧ b₁.toNat ≤ hi then
      (b₀.toNat % 0x20 * 0x40 + b₁.toNat % 0x40, 2)
    else (runeError, 1)
  | 3, b₁ :: b₂ :: _ =>
    if lo ≤ b₁.toNat ∧ b₁.toNat ≤ hi ∧ isTail b₂ then
      (b₀.toNat % 0x10 * 0x1000 + b₁.toNat % 0x40 * 0x40 + b₂.toNat % 0x40, 3)
    else (runeError, 1)
  | 4, b₁ :: b₂ :: b₃ :: _ =>
    if lo ≤ b₁.toNat ∧ b₁.toNat ≤ hi ∧ isTail b₂ ∧ isTail b₃ then
      (b₀.toNat % 0x08 * 0x40000 + b₁.toNat % 0x40 * 0x1000 + b₂.toNat % 0x40 * 0x40 +
        b₃.toNat % 0x40, 4)
    else (runeError, 1)
  | _, _ => (runeError, 1)

/-- `utf8.DecodeRuneInString`: the first rune of a string and its width in bytes. -/
def decodeRune : GoString → Nat × Nat
  | [] => (runeError, 0)
  | b₀ :: rest =>
    if b₀.toNat < runeSelf then (b₀.toNat, 1)
    else
      match first b₀.toNat with
      | none => (runeError, 1)
      | some (size, lo, hi) => decodeTail b₀ lo hi size rest

/-- `utf8.DecodeLastRuneInString`: the last rune of a string. -/
def decodeLastRune (s : GoString) : Nat :=
  match s.reverse with
  | [] => runeError
  | b :: front =>
    if b.toNat < runeSelf then b.toNat
    else
      -- step back over at most three continuation bytes to a byte that can start a rune
      let back := (front.take 3).takeWhile isTail
      let last := (b :: front.take (back.length + 1)).reverse
      if (decodeRune last).2 = last.length then (decodeRune last).1 else runeError

/-- Decode with `skip` bytes of the current rune still to pass over. -/
def runesSkip : Nat → GoString → List Nat
  | _, [] => []
  | skip + 1, _ :: rest => runesSkip skip rest
  | 0, b :: rest =>
    (decodeRune (b :: rest)).1 :: runesSkip ((decodeRune (b :: rest)).2 - 1) rest

/-- `[]rune(s)`. -/
def runes (s : GoString) : List Nat := runesSkip 0 s

/-- `utf8.AppendRune`: the bytes of one rune; invalid code points become U+FFFD. -/
def encodeRune (r : Nat) : GoString :=
  if r < 0x80 then [r.toUInt8]
  else if r < 0x800 then [(0xC0 + r / 0x40).toUInt8, (0x80 + r % 0x40).toUInt8]
  else if ¬ ValidRune r then [0xEF, 0xBF, 0xBD]
  else if r < 0x10000 then
    [(0xE0 + r / 0x1000).toUInt8, (0x80 + r / 0x40 % 0x40).toUInt8, (0x80 + r % 0x40).toUInt8]
  else
    [(0xF0 + r / 0x40000).toUInt8, (0x80 + r / 0x1000 % 0x40).toUInt8,
      (0x80 + r / 0x40 % 0x40).toUInt8, (0x80 + r % 0x40).toUInt8]

/-- `string(rs)`. -/
def ofRunes (rs : List Nat) : GoString := rs.flatMap encodeRune

variable {b b₀ : UInt8} {hi lo r : Nat} {s : GoString}

@[simp] theorem ofRunes_cons (r : Nat) (rs : List Nat) :
    ofRunes (r :: rs) = encodeRune r ++ ofRunes rs := rfl

@[simp] theorem ofRunes_append (rs rs' : List Nat) :
    ofRunes (rs ++ rs') = ofRunes rs ++ ofRunes rs' := flatMap_append

/-! ### Decoding one rune -/

theorem decodeTail_width (b₀ : UInt8) (lo hi size : Nat) (s : GoString) :
    1 ≤ (decodeTail b₀ lo hi size s).2 := by
  unfold decodeTail
  split <;> first | (split <;> simp) | simp

theorem decodeRune_width_pos (b : UInt8) (s : GoString) : 1 ≤ (decodeRune (b :: s)).2 := by
  simp only [decodeRune]
  split
  · simp
  · split
    · simp
    · exact decodeTail_width _ _ _ _ _

theorem decodeRune_ascii (h : b.toNat < runeSelf) (s : GoString) :
    decodeRune (b :: s) = (b.toNat, 1) := by
  simp [decodeRune, h]

/-! The rows of `first`, by the length they announce. -/

theorem first_none {b : Nat} (h : b < 0xC2 ∨ 0xF4 < b) : first b = none := by
  grind [first]

theorem first_two {b : Nat} (h₁ : 0xC2 ≤ b) (h₂ : b < 0xE0) : first b = some (2, 0x80, 0xBF) := by
  grind [first]

theorem first_three {b : Nat} (h₁ : 0xE0 ≤ b) (h₂ : b < 0xF0) :
    first b = some (3, if b = 0xE0 then 0xA0 else 0x80, if b = 0xED then 0x9F else 0xBF) := by
  grind [first]

theorem first_four {b : Nat} (h₁ : 0xF0 ≤ b) (h₂ : b ≤ 0xF4) :
    first b = some (4, if b = 0xF0 then 0x90 else 0x80, if b = 0xF4 then 0x8F else 0xBF) := by
  grind [first]

theorem first_lo {b size : Nat} (h : first b = some (size, lo, hi)) : 0x80 ≤ lo := by
  grind [first]

/-- What a multi-byte sequence decodes to: a valid rune above ASCII. -/
def HighRune (r : Nat) : Prop := ValidRune r ∧ runeSelf ≤ r

theorem highRune_runeError : HighRune runeError := ⟨by decide, by decide⟩

/-- A sequence that is announced by its first byte decodes to no surrogate, to no code point out of
range and to no ASCII rune. -/
theorem decodeTail_high {size : Nat} (h : first b₀.toNat = some (size, lo, hi)) (s : GoString) :
    HighRune (decodeTail b₀ lo hi size s).1 := by
  unfold first at h
  simp only [decodeTail.eq_def, isTail, Bool.and_eq_true, decide_eq_true_eq]
  split
  case h_4 => exact highRune_runeError
  all_goals
    split
    · simp only [HighRune, ValidRune, runeSelf]
      -- one case for each row of the table
      split_ifs at h <;> simp only [Option.some.injEq, Prod.mk.injEq] at h <;> omega
    · exact highRune_runeError

theorem decodeRune_high (h : ¬ b.toNat < runeSelf) (s : GoString) :
    HighRune (decodeRune (b :: s)).1 := by
  rw [decodeRune, if_neg h]
  split
  · exact highRune_runeError
  · next hfirst => exact decodeTail_high hfirst s

theorem decodeRune_valid (s : GoString) : ValidRune (decodeRune s).1 := by
  cases s with
  | nil => decide
  | cons b s =>
    by_cases h : b.toNat < runeSelf
    · rw [decodeRune_ascii h]
      simp only [runeSelf] at h
      exact Or.inl (by change b.toNat < _; omega)
    · exact (decodeRune_high h s).1

/-! ### Encoding one rune -/

theorem encodeRune_ascii (h : r < runeSelf) : encodeRune r = [r.toUInt8] := by
  simp only [runeSelf] at h
  simp [encodeRune, h]

theorem encodeRune_ne_nil (r : Nat) : encodeRune r ≠ [] := by
  unfold encodeRune
  split_ifs <;> simp

/-- A rune above ASCII is encoded without ASCII bytes. -/
theorem encodeRune_high (h : runeSelf ≤ r) (hb : b ∈ encodeRune r) : runeSelf ≤ b.toNat := by
  simp only [runeSelf] at h ⊢
  unfold encodeRune ValidRune at hb
  split_ifs at hb
  all_goals
    simp only [mem_cons, not_mem_nil, or_false] at hb
    rcases hb with rfl | rfl | rfl | rfl <;> simp <;> omega

/-- Encoding a valid rune and decoding it again gives it back, whatever follows. -/
theorem decodeRune_encodeRune (h : ValidRune r) (s : GoString) :
    decodeRune (encodeRune r ++ s) = (r, (encodeRune r).length) := by
  have hr : r ≤ 0x10FFFF := by unfold ValidRune at h; omega
  have toNat_eq : ∀ n, n < 256 → n.toUInt8.toNat = n := fun n hn => by simp; omega
  have e₁ := toNat_eq (0x80 + r % 0x40) (by omega)
  have e₂ := toNat_eq (0x80 + r / 0x40 % 0x40) (by omega)
  have e₃ := toNat_eq (0x80 + r / 0x1000 % 0x40) (by omega)
  unfold encodeRune
  split_ifs with h₁ h₂ h₃
  · have e₀ := toNat_eq r (by omega)
    simp [decodeRune, runeSelf, e₀, h₁]
  · have e₀ := toNat_eq (0xC0 + r / 0x40) (by omega)
    simp only [cons_append, nil_append, decodeRune, runeSelf, e₀]
    rw [if_neg (by omega), first_two (by omega) (by omega)]
    simp only [decodeTail, e₀, e₁]
    rw [if_pos (by omega)]
    refine Prod.ext ?_ rfl
    omega
  · have e₀ := toNat_eq (0xE0 + r / 0x1000) (by omega)
    simp only [cons_append, nil_append, decodeRune, runeSelf, e₀]
    rw [if_neg (by omega), first_three (by omega) (by omega)]
    simp only [decodeTail, isTail, Bool.and_eq_true, decide_eq_true_eq, e₀, e₁, e₂]
    unfold ValidRune at h
    rw [if_pos ⟨by split <;> omega, by split <;> omega, by omega, by omega⟩]
    refine Prod.ext ?_ rfl
    dsimp only
    omega
  · have e₀ := toNat_eq (0xF0 + r / 0x40000) (by omega)
    simp only [cons_append, nil_append, decodeRune, runeSelf, e₀]
    rw [if_neg (by omega), first_four (by omega) (by omega)]
    simp only [decodeTail, isTail, Bool.and_eq_true, decide_eq_true_eq, e₀, e₁, e₂, e₃]
    rw [if_pos ⟨by split <;> omega, by split <;> omega, ⟨by omega, by omega⟩, by omega, by omega⟩]
    refine Prod.ext ?_ rfl
    dsimp only
    omega

/-! ### Whole strings -/

theorem runesSkip_eq_drop (k : Nat) (s : GoString) : runesSkip k s = runes (s.drop k) := by
  induction s generalizing k with
  | nil => cases k <;> simp [runes, runesSkip]
  | cons b s ih =>
    cases k with
    | zero => rfl
    | succ k => simpa [runesSkip] using ih k

@[simp] theorem runes_nil : runes [] = [] := rfl

/-- Decoding a nonempty string: its first rune, then the rest behind it. -/
theorem runes_cons (b : UInt8) (s : GoString) :
    runes (b :: s) = (decodeRune (b :: s)).1 :: runes ((b :: s).drop (decodeRune (b :: s)).2) := by
  have hw := decodeRune_width_pos b s
  obtain ⟨w, hw⟩ : ∃ w, (decodeRune (b :: s)).2 = w + 1 := ⟨_, (Nat.sub_add_cancel hw).symm⟩
  rw [hw, runes, runesSkip, runesSkip_eq_drop, hw]
  rfl

theorem runes_of_decode {t : GoString} (hs : s ≠ []) (h : decodeRune (s ++ t) = (r, s.length)) :
    runes (s ++ t) = r :: runes t := by
  cases s with
  | nil => exact absurd rfl hs
  | cons b s =>
    rw [cons_append, runes_cons]
    rw [cons_append] at h
    rw [h, ← cons_append, drop_left]

theorem runes_ascii_cons (h : b.toNat < runeSelf) (s : GoString) :
    runes (b :: s) = b.toNat :: runes s :=
  runes_of_decode (s := [b]) (by simp) (decodeRune_ascii h s)

/-- Induction over the runes of a string. -/
theorem runes_induction {P : GoString → Prop} (nil : P [])
    (cons : ∀ b s, P ((b :: s).drop (decodeRune (b :: s)).2) → P (b :: s)) (s : GoString) :
    P s := by
  induction hn : s.length using Nat.strongRecOn generalizing s with
  | ind n ih =>
    cases s with
    | nil => exact nil
    | cons b s =>
      have hw := decodeRune_width_pos b s
      exact cons b s (ih _ (by simp only [length_drop, length_cons] at hn ⊢; omega) _ rfl)

/-- Every decoded rune is valid, whatever the bytes were. -/
theorem validRune_of_mem_runes (h : r ∈ runes s) : ValidRune r := by
  induction s using runes_induction with
  | nil => simp at h
  | cons b s ih =>
    rw [runes_cons, mem_cons] at h
    rcases h with rfl | h
    · exact decodeRune_valid _
    · exact ih h

/-- Decoding undoes encoding. -/
theorem runes_ofRunes {rs : List Nat} (h : ∀ r ∈ rs, ValidRune r) : runes (ofRunes rs) = rs := by
  induction rs with
  | nil => rfl
  | cons r rs ih =>
    rw [ofRunes_cons, runes_of_decode (encodeRune_ne_nil r)
      (decodeRune_encodeRune (h r (by simp)) _), ih fun r' hr' => h r' (by simp [hr'])]

/-! ### Splitting at an ASCII byte -/

/-- A sequence cut short by an ASCII byte decodes as it does at the end of the string. -/
theorem decodeTail_append_ascii (hlo : 0x80 ≤ lo) (hb : b.toNat < runeSelf) (size : Nat)
    (s t : GoString) : decodeTail b₀ lo hi size (s ++ b :: t) = decodeTail b₀ lo hi size s := by
  simp only [runeSelf] at hb
  have htail : isTail b = false := by
    simp only [isTail, Bool.and_eq_false_iff, decide_eq_false_iff_not]
    omega
  have hrange : ¬ (lo ≤ b.toNat) := by omega
  match size, s with
  | 0, _ | 1, _ => simp [decodeTail]
  | 2, [] => simp [decodeTail, hrange]
  | 2, _ :: _ => simp [decodeTail]
  | 3, [] => cases t <;> simp [decodeTail, hrange]
  | 3, [_] => simp [decodeTail, htail]
  | 3, _ :: _ :: _ => simp [decodeTail]
  | 4, [] => rcases t with _ | ⟨_, _ | _⟩ <;> simp [decodeTail, hrange]
  | 4, [_] => cases t <;> simp [decodeTail, htail]
  | 4, [_, _] => simp [decodeTail, htail]
  | 4, _ :: _ :: _ :: _ => simp [decodeTail]
  | _ + 5, _ => simp [decodeTail]

theorem decodeTail_width_le (b₀ : UInt8) (lo hi size : Nat) (s : GoString) :
    (decodeTail b₀ lo hi size s).2 ≤ s.length + 1 := by
  unfold decodeTail
  split <;> first | (split <;> simp) | simp

theorem decodeRune_width_le (b : UInt8) (s : GoString) :
    (decodeRune (b :: s)).2 ≤ (b :: s).length := by
  simp only [decodeRune]
  split
  · simp
  · split
    · simp
    · exact decodeTail_width_le _ _ _ _ _

variable (hb : b.toNat < runeSelf)
include hb

theorem decodeRune_append_ascii (a : UInt8) (s t : GoString) :
    decodeRune (a :: s ++ b :: t) = decodeRune (a :: s) := by
  simp only [cons_append, decodeRune]
  split
  · rfl
  · split
    · rfl
    · rename_i hfirst
      exact decodeTail_append_ascii (first_lo hfirst) hb _ s t

/-- Decoding commutes with cutting a string at an ASCII byte. -/
theorem runes_append_ascii (s t : GoString) :
    runes (s ++ b :: t) = runes s ++ b.toNat :: runes t := by
  induction s using runes_induction with
  | nil => exact runes_ascii_cons hb t
  | cons a s ih =>
    have hdrop : (a :: s ++ b :: t).drop (decodeRune (a :: s)).2 =
        (a :: s).drop (decodeRune (a :: s)).2 ++ b :: t :=
      drop_append_of_le_length (decodeRune_width_le a s)
    calc runes (a :: s ++ b :: t)
        = (decodeRune (a :: s)).1 :: runes ((a :: s).drop (decodeRune (a :: s)).2 ++ b :: t) := by
          rw [← hdrop, ← decodeRune_append_ascii hb a s t]
          exact runes_cons a (s ++ b :: t)
      _ = runes (a :: s) ++ b.toNat :: runes t := by rw [ih, runes_cons a s, cons_append]

omit hb in
/-- ASCII strings are their own runes. -/
theorem runes_of_ascii (h : ∀ b ∈ s, b.toNat < runeSelf) : runes s = s.map UInt8.toNat := by
  induction s with
  | nil => rfl
  | cons b s ih =>
    rw [runes_ascii_cons (h b (by simp)), ih fun b' hb' => h b' (by simp [hb']), map_cons]

/-- An ASCII rune of a string stands there as a byte. -/
theorem toNat_mem_runes_iff (s : GoString) :
    b.toNat ∈ runes s ↔ b ∈ s := by
  constructor
  · intro h
    induction s using runes_induction with
    | nil => simp at h
    | cons a s ih =>
      rw [runes_cons, mem_cons] at h
      rcases h with h | h
      · by_cases ha : a.toNat < runeSelf
        · rw [decodeRune_ascii ha] at h
          rw [UInt8.toNat_inj.mp h]
          exact mem_cons_self
        · have := (decodeRune_high ha s).2
          omega
      · exact mem_of_mem_drop (ih h)
  · intro h
    obtain ⟨s₁, s₂, rfl⟩ := append_of_mem h
    rw [runes_append_ascii hb]
    simp

/-- An ASCII byte of an encoded string is one of its runes. -/
theorem mem_ofRunes_iff (rs : List Nat) :
    b ∈ ofRunes rs ↔ b.toNat ∈ rs := by
  simp only [ofRunes, mem_flatMap]
  constructor
  · rintro ⟨r, hr, hbr⟩
    by_cases h : r < runeSelf
    · rw [encodeRune_ascii h, mem_singleton] at hbr
      have : b.toNat = r := by
        rw [hbr]
        simp only [runeSelf] at h
        simp
        omega
      rwa [this]
    · have := encodeRune_high (Nat.le_of_not_lt h) hbr
      omega
  · intro h
    exact ⟨_, h, by rw [encodeRune_ascii hb]; simp⟩

end Hako.GoLib
