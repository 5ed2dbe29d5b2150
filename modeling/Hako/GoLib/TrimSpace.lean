import Hako.GoLib.Strings

/-!
# Trimmed strings

`strings.TrimSpace` decodes runes from both ends, also in strings that are not valid UTF-8. What it
returns has no white space at its ends, in the sense of `utf8.DecodeRuneInString` and
`utf8.DecodeLastRuneInString`, so that trimming it again changes nothing.
-/

namespace Hako.GoLib

open List

/-- The first and the last rune are no white space; the empty string has none. -/
structure Trimmed (s : GoString) : Prop where
  first : isSpace (decodeRune s).1 = false
  last : isSpace (decodeLastRune s) = false

/-! ### From the left -/

theorem trimSpaceLeft_suffix (skip : Nat) (s : GoString) : trimSpaceLeft skip s <:+ s := by
  induction s generalizing skip with
  | nil => exact suffix_refl []
  | cons b s ih =>
    cases skip with
    | succ skip => exact (ih skip).trans (suffix_cons b s)
    | zero =>
      rw [trimSpaceLeft]
      dsimp only
      split
      · exact (ih _).trans (suffix_cons b s)
      · exact suffix_refl _

theorem first_trimSpaceLeft (skip : Nat) (s : GoString) :
    isSpace (decodeRune (trimSpaceLeft skip s)).1 = false := by
  induction s generalizing skip with
  | nil =>
    rw [trimSpaceLeft]
    decide
  | cons b s ih =>
    cases skip with
    | succ skip => exact ih skip
    | zero =>
      rw [trimSpaceLeft]
      dsimp only
      split
      · exact ih _
      · rename_i h
        simpa using h

variable {s v : GoString} {b a : UInt8}

theorem trimSpaceLeft_of_first (h : isSpace (decodeRune s).1 = false) : trimSpaceLeft 0 s = s := by
  cases s with
  | nil => rfl
  | cons b s =>
    rw [trimSpaceLeft]
    dsimp only
    rw [if_neg (by simpa using h)]

/-- A sequence that is cut short is no white space. -/
theorem decodeTail_cut (b₀ : UInt8) (lo hi size : Nat) (s t : GoString) :
    decodeTail b₀ lo hi size s = decodeTail b₀ lo hi size (s ++ t) ∨
      (decodeTail b₀ lo hi size s).1 = runeError := by
  match size, s with
  | 0, _ | 1, _ | _ + 5, _ => right; simp [decodeTail]
  | 2, [] | 3, [] | 3, [_] | 4, [] | 4, [_] | 4, [_, _] => right; simp [decodeTail]
  | 2, _ :: _ | 3, _ :: _ :: _ | 4, _ :: _ :: _ :: _ => left; simp [decodeTail]

theorem first_of_append {t : GoString} (h : isSpace (decodeRune (s ++ t)).1 = false) :
    isSpace (decodeRune s).1 = false := by
  have herror : isSpace runeError = false := by decide
  cases s with
  | nil => exact herror
  | cons b s =>
    rw [cons_append, decodeRune] at h
    rw [decodeRune]
    by_cases hb : b.toNat < runeSelf
    · rwa [if_pos hb] at h ⊢
    · rw [if_neg hb] at h ⊢
      split at h
      · exact herror
      · rename_i size lo hi _
        rcases decodeTail_cut b lo hi size s t with heq | hcut
        · rw [heq]
          exact h
        · rw [hcut]
          exact herror

/-! ### From the right -/

theorem take_of_trimSpaceRight (rounds : Nat) (s : GoString) : trimSpaceRight rounds s <+: s := by
  induction rounds generalizing s with
  | zero => exact prefix_refl _
  | succ rounds ih =>
    rw [trimSpaceRight]
    split
    · exact (ih _).trans (List.take_prefix _ _)
    · exact prefix_refl _

/-- Every round takes at least one byte away. -/
theorem last_trimSpaceRight {rounds : Nat} (h : s.length ≤ rounds) :
    isSpace (decodeLastRune (trimSpaceRight rounds s)) = false := by
  induction rounds generalizing s with
  | zero =>
    rw [length_eq_zero_iff.mp (Nat.le_zero.mp h)]
    decide
  | succ rounds ih =>
    rw [trimSpaceRight]
    split
    · refine ih ?_
      have := length_pos_iff.mpr (encodeRune_ne_nil (decodeLastRune s))
      rw [length_take]
      omega
    · rename_i hspace
      simpa using hspace

theorem trimSpaceRight_of_last (h : isSpace (decodeLastRune s) = false)
    (rounds : Nat) : trimSpaceRight rounds s = s := by
  cases rounds with
  | zero => rfl
  | succ rounds =>
    rw [trimSpaceRight]
    rw [if_neg (by simpa using h)]

/-! ### From both ends -/

theorem trimmed_trimSpace (s : GoString) : Trimmed (trimSpace s) := by
  refine ⟨?_, last_trimSpaceRight (le_refl _)⟩
  obtain ⟨t, ht⟩ := take_of_trimSpaceRight (trimSpaceLeft 0 s).length (trimSpaceLeft 0 s)
  refine first_of_append (t := t) ?_
  rw [trimSpace, ht]
  exact first_trimSpaceLeft 0 s

theorem trimSpace_subset (s : GoString) : trimSpace s ⊆ s := fun _ hb =>
  (trimSpaceLeft_suffix 0 s).subset ((take_of_trimSpaceRight _ _).subset hb)

/-! ### Behind an ASCII byte -/

theorem takeWhile_take_append {α : Type*} {p : α → Bool} {x : α} (hx : p x = false) (n : Nat)
    (s t : List α) : ((s ++ x :: t).take n).takeWhile p = (s.take n).takeWhile p := by
  induction s generalizing n with
  | nil => cases n <;> simp [hx]
  | cons a s ih =>
    cases n with
    | zero => rfl
    | succ n =>
      simp only [cons_append, take_succ_cons, takeWhile_cons]
      rw [ih]

theorem decodeRune_isTail (h : isTail b = true) (s : GoString) :
    decodeRune (b :: s) = (runeError, 1) := by
  simp only [isTail, Bool.and_eq_true, decide_eq_true_eq] at h
  rw [decodeRune, if_neg (by simp only [runeSelf]; omega), first_none (by omega)]

theorem decodeRune_single (h : ¬ b.toNat < runeSelf) : (decodeRune [b]).1 = runeError := by
  rw [decodeRune, if_neg h]
  split
  · rfl
  · rename_i size lo hi _
    rcases size with _ | _ | _ | _ | _ | _ <;> simp [decodeTail]

/-- The last rune does not reach over an ASCII byte. -/
theorem decodeLastRune_append_ascii (ha : a.toNat < runeSelf) (s : GoString)
    (hv : v ≠ []) : decodeLastRune (s ++ a :: v) = decodeLastRune v := by
  have htail : isTail a = false := by
    simp only [runeSelf] at ha
    simp only [isTail, Bool.and_eq_false_iff, decide_eq_false_iff_not]
    omega
  obtain ⟨b, u, hu⟩ := exists_cons_of_ne_nil (reverse_ne_nil_iff.mpr hv)
  have hrev : (s ++ a :: v).reverse = b :: (u ++ a :: s.reverse) := by simp [hu]
  simp only [decodeLastRune, hu, hrev, takeWhile_take_append htail]
  split
  · rfl
  rename_i hb
  rw [take_append]
  generalize hk : (u.take 3).takeWhile isTail = back
  have hle : back.length ≤ u.length := by
    rw [← hk]
    exact le_trans (List.takeWhile_prefix _).length_le (length_take_le' ..)
  obtain hall | hlt := eq_or_lt_of_le hle
  · -- the bytes up to the ASCII byte are continuation bytes: there is no rune
    obtain rfl : back = u :=
      (hk ▸ (List.takeWhile_prefix _).trans (List.take_prefix ..)).eq_of_length hall
    have hnone : (decodeRune (b :: back).reverse).1 = runeError := by
      rw [reverse_cons]
      cases hw : back.reverse with
      | nil => exact decodeRune_single hb
      | cons c w =>
        have hmem : c ∈ back := mem_reverse.mp (hw ▸ mem_cons_self)
        rw [← hk] at hmem
        rw [cons_append, decodeRune_isTail (all_eq_true.mp all_takeWhile c hmem)]
    rw [take_of_length_le (Nat.le_succ _), Nat.add_sub_cancel_left, hnone, ite_self, take_succ_cons,
      take_zero, ← cons_append, reverse_append, reverse_singleton, singleton_append,
      decodeRune_ascii ha, if_neg (by simp)]
  · rw [Nat.sub_eq_zero_of_le hlt, take_zero, append_nil]
/-- A trimmed string behind an ASCII byte that is no white space, and behind ASCII bytes. -/
theorem Trimmed.append (h : Trimmed v) {c : UInt8} (ha : a.toNat < runeSelf)
    (hc : c.toNat < runeSelf) (ha' : isSpace a.toNat = false) (hc' : isSpace c.toNat = false) :
    Trimmed (a :: c :: v) := by
  refine ⟨by rw [decodeRune_ascii ha]; exact ha', ?_⟩
  by_cases hv : v = []
  · rw [hv, decodeLastRune]
    simp [hc, hc']
  · rw [show a :: c :: v = [a] ++ c :: v from rfl, decodeLastRune_append_ascii hc _ hv]
    exact h.last

/-- Trimming a line takes its newline away. -/
theorem trimSpace_append_newline (h : Trimmed s) : trimSpace (s ++ [0x0A]) = s := by
  cases s with
  | nil => decide
  | cons a s =>
    have hfirst : isSpace (decodeRune (a :: s ++ [0x0A])).1 = false := by
      rw [decodeRune_append_ascii (by decide)]
      exact h.first
    have hlast : decodeLastRune (a :: s ++ [0x0A]) = 0x0A := by
      rw [decodeLastRune, reverse_concat]
      rfl
    rw [trimSpace, trimSpaceLeft_of_first hfirst, length_append, length_singleton,
      trimSpaceRight, hlast]
    rw [if_pos (by decide), length_append]
    have htake : (a :: s ++ [0x0A]).take ((a :: s).length + [(0x0A : UInt8)].length -
        (encodeRune 0x0A).length) = a :: s := by
      rw [show (encodeRune 0x0A).length = 1 by decide, length_singleton, Nat.add_sub_cancel]
      exact take_left
    rw [htake]
    exact trimSpaceRight_of_last h.last _

end Hako.GoLib
