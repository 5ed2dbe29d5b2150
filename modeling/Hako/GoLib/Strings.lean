import Hako.GoLib.Utf8

/-!
# Case mapping and the string operations built on it

`strings.ToLower` maps every rune through `unicode.ToLower` and encodes the result, so
bytes that are not UTF-8 come out as U+FFFD, and `strings.ToUpper` is like it. The case tables
are the simple case mappings of the Unicode character database, in ranges. The facts below are
the ones a matcher relies on: lower-casing keeps runes valid, yields no ASCII upper-case letter,
and yields an ASCII byte that is not a letter only where that byte already stood.
-/

namespace Hako.GoLib

open List

/-- The code points `lo, lo + stride, …, hi`, whose other case lies `delta` further on. -/
structure CaseRange where
  lo : Nat
  hi : Nat
  stride : Nat
  delta : Int

/-- Single code points whose lower case lies further on. -/
def lowerSingles : List (Nat × Int) :=
  [(0x130, -199), (0x178, -121), (0x181, 210), (0x186, 206), (0x18E, 79), (0x18F, 202),
    (0x190, 203), (0x193, 205), (0x194, 207), (0x196, 211), (0x197, 209), (0x19C, 211),
    (0x19D, 213), (0x19F, 214), (0x1A6, 218), (0x1A9, 218), (0x1AE, 218), (0x1B7, 219),
    (0x1C4, 2), (0x1C7, 2), (0x1CA, 2), (0x1F1, 2), (0x1F6, -97), (0x1F7, -56), (0x220, -130),
    (0x23A, 10795), (0x23D, -163), (0x23E, 10792), (0x243, -195), (0x244, 69), (0x245, 71),
    (0x37F, 116), (0x386, 38), (0x38C, 64), (0x3CF, 8), (0x3F4, -60), (0x3F9, -7), (0x4C0, 15),
    (0x10C7, 7264), (0x10CD, 7264), (0x1E9E, -7615), (0x1FBC, -9), (0x1FCC, -9), (0x1FEC, -7),
    (0x1FFC, -9), (0x2126, -7517), (0x212A, -8383), (0x212B, -8262), (0x2132, 28),
    (0x2C62, -10743), (0x2C63, -3814), (0x2C64, -10727), (0x2C6D, -10780), (0x2C6E, -10749),
    (0x2C6F, -10783), (0x2C70, -10782), (0xA77D, -35332), (0xA78D, -42280), (0xA7AA, -42308),
    (0xA7AB, -42319), (0xA7AC, -42315), (0xA7AD, -42305), (0xA7AE, -42308), (0xA7B0, -42258),
    (0xA7B1, -42282), (0xA7B2, -42261), (0xA7B3, 928), (0xA7C4, -48), (0xA7C5, -42307),
    (0xA7C6, -35384)]

/-- Blocks of code points whose lower cases are a block, so much further on. -/
def lowerBlocks : List (Nat × Nat × Int) :=
  [(0xC0, 0xD6, 32), (0xD8, 0xDE, 32), (0x189, 0x18A, 205), (0x1B1, 0x1B2, 217),
    (0x388, 0x38A, 37), (0x38E, 0x38F, 63), (0x391, 0x3A1, 32), (0x3A3, 0x3AB, 32),
    (0x3FD, 0x3FF, -130), (0x400, 0x40F, 80), (0x410, 0x42F, 32), (0x531, 0x556, 48),
    (0x10A0, 0x10C5, 7264), (0x13A0, 0x13EF, 38864), (0x13F0, 0x13F5, 8), (0x1C90, 0x1CBA, -3008),
    (0x1CBD, 0x1CBF, -3008), (0x1F08, 0x1F0F, -8), (0x1F18, 0x1F1D, -8), (0x1F28, 0x1F2F, -8),
    (0x1F38, 0x1F3F, -8), (0x1F48, 0x1F4D, -8), (0x1F68, 0x1F6F, -8), (0x1F88, 0x1F8F, -8),
    (0x1F98, 0x1F9F, -8), (0x1FA8, 0x1FAF, -8), (0x1FB8, 0x1FB9, -8), (0x1FBA, 0x1FBB, -74),
    (0x1FC8, 0x1FCB, -86), (0x1FD8, 0x1FD9, -8), (0x1FDA, 0x1FDB, -100), (0x1FE8, 0x1FE9, -8),
    (0x1FEA, 0x1FEB, -112), (0x1FF8, 0x1FF9, -128), (0x1FFA, 0x1FFB, -126), (0x2160, 0x216F, 16),
    (0x24B6, 0x24CF, 26), (0x2C00, 0x2C2F, 48), (0x2C7E, 0x2C7F, -10815), (0xFF21, 0xFF3A, 32),
    (0x10400, 0x10427, 40), (0x104B0, 0x104D3, 40), (0x10570, 0x1057A, 39),
    (0x1057C, 0x1058A, 39), (0x1058C, 0x10592, 39), (0x10594, 0x10595, 39),
    (0x10C80, 0x10CB2, 64), (0x118A0, 0x118BF, 32), (0x16E40, 0x16E5F, 32),
    (0x1E900, 0x1E921, 34)]

/-- Blocks in which capitals and their lower cases alternate, up to the last capital. -/
def lowerPairs : List (Nat × Nat) :=
  [(0x100, 0x12E), (0x132, 0x136), (0x139, 0x147), (0x14A, 0x176), (0x179, 0x17D), (0x182, 0x184),
    (0x187, 0x187), (0x18B, 0x18B), (0x191, 0x191), (0x198, 0x198), (0x1A0, 0x1A4),
    (0x1A7, 0x1A7), (0x1AC, 0x1AC), (0x1AF, 0x1AF), (0x1B3, 0x1B5), (0x1B8, 0x1B8),
    (0x1BC, 0x1BC), (0x1C5, 0x1C5), (0x1C8, 0x1C8), (0x1CB, 0x1DB), (0x1DE, 0x1EE),
    (0x1F2, 0x1F4), (0x1F8, 0x21E), (0x222, 0x232), (0x23B, 0x23B), (0x241, 0x241),
    (0x246, 0x24E), (0x370, 0x372), (0x376, 0x376), (0x3D8, 0x3EE), (0x3F7, 0x3F7),
    (0x3FA, 0x3FA), (0x460, 0x480), (0x48A, 0x4BE), (0x4C1, 0x4CD), (0x4D0, 0x52E),
    (0x1E00, 0x1E94), (0x1EA0, 0x1EFE), (0x2183, 0x2183), (0x2C60, 0x2C60), (0x2C67, 0x2C6B),
    (0x2C72, 0x2C72), (0x2C75, 0x2C75), (0x2C80, 0x2CE2), (0x2CEB, 0x2CED), (0x2CF2, 0x2CF2),
    (0xA640, 0xA66C), (0xA680, 0xA69A), (0xA722, 0xA72E), (0xA732, 0xA76E), (0xA779, 0xA77B),
    (0xA77E, 0xA786), (0xA78B, 0xA78B), (0xA790, 0xA792), (0xA796, 0xA7A8), (0xA7B4, 0xA7C2),
    (0xA7C7, 0xA7C9), (0xA7D0, 0xA7D0), (0xA7D6, 0xA7D8), (0xA7F5, 0xA7F5)]

/-- The code points above ASCII that have a lower case of their own. -/
def lowerRanges : List CaseRange :=
  lowerSingles.map (fun (r, delta) => ⟨r, r, 1, delta⟩) ++
    lowerBlocks.map (fun (lo, hi, delta) => ⟨lo, hi, 1, delta⟩) ++
    lowerPairs.map (fun (lo, hi) => ⟨lo, hi, 2, 1⟩) ++ [⟨0x1F59, 0x1F5F, 2, -8⟩]

/-- Code points whose upper case has another lower case, or which are the lower case of two, and
U+00DF, which has no upper case. -/
def upperSingles : List (Nat × Int) :=
  [(0xB5, 743), (0xDF, 0), (0xE5, -32), (0x131, -232), (0x17F, -300), (0x1C5, -1), (0x1C8, -1),
    (0x1CB, -1), (0x1F2, -1), (0x345, 84), (0x3B8, -32), (0x3C2, -31), (0x3C9, -32), (0x3D0, -62),
    (0x3D1, -57), (0x3D5, -47), (0x3D6, -54), (0x3F0, -86), (0x3F1, -80), (0x3F5, -96),
    (0x1C80, -6254), (0x1C81, -6253), (0x1C82, -6244), (0x1C83, -6242), (0x1C84, -6242),
    (0x1C85, -6243), (0x1C86, -6236), (0x1C87, -6181), (0x1C88, 35266), (0x1E9B, -59),
    (0x1FBE, -7205)]

/-- The code points above ASCII that have an upper case of their own: the lower cases, and a few
more. -/
def upperRanges : List CaseRange :=
  upperSingles.map (fun (r, delta) => ⟨r, r, 1, delta⟩) ++ lowerRanges.map fun c =>
    ⟨(c.lo + c.delta).toNat, (c.hi + c.delta).toNat, c.stride, -c.delta⟩

/-- Whether a range gives the other case of `r`. -/
def CaseRange.covers (c : CaseRange) (r : Nat) : Bool :=
  c.lo ≤ r && r ≤ c.hi && (r - c.lo) % c.stride == 0

/-- `unicode.ToLower`. -/
def toLowerRune (r : Nat) : Nat :=
  if r < runeSelf then
    if 0x41 ≤ r ∧ r ≤ 0x5A then r + 0x20 else r
  else
    match lowerRanges.find? (·.covers r) with
    | some c => (r + c.delta).toNat
    | none => r

/-- `unicode.ToUpper`. -/
def toUpperRune (r : Nat) : Nat :=
  if r < runeSelf then
    if 0x61 ≤ r ∧ r ≤ 0x7A then r - 0x20 else r
  else
    match upperRanges.find? (·.covers r) with
    | some c => (r + c.delta).toNat
    | none => r

/-- `unicode.IsSpace`. -/
def isSpace (r : Nat) : Bool :=
  (0x09 ≤ r && r ≤ 0x0D) || (0x2000 ≤ r && r ≤ 0x200A) ||
    [0x20, 0x85, 0xA0, 0x1680, 0x2028, 0x2029, 0x202F, 0x205F, 0x3000].contains r

/-- `strings.ToLower`. -/
def toLower (s : GoString) : GoString := ofRunes ((runes s).map toLowerRune)

/-- `strings.ToUpper`. -/
def toUpper (s : GoString) : GoString := ofRunes ((runes s).map toUpperRune)

/-- The separator of lines. -/
def newlineByte : UInt8 := 0x0A

/-- `strings.Split(s, sep)` for a separator of one byte. -/
def split (sep : UInt8) (s : GoString) : List GoString := s.splitOn sep

/-- `strings.Join(parts, sep)` for a separator of one byte. -/
def join (sep : UInt8) (parts : List GoString) : GoString := [sep].intercalate parts

/-- `strings.Trim(s, c)` for a cutset of one byte. -/
def trim (c : UInt8) (s : GoString) : GoString :=
  ((s.dropWhile (· == c)).reverse.dropWhile (· == c)).reverse

/-- `strings.TrimSuffix` -/
def trimSuffix (s suffix : GoString) : GoString :=
  if suffix.isSuffixOf s then s.take (s.length - suffix.length) else s

/-- `strings.TrimPrefix`, the argument order of `trimSuffix`. -/
def trimStart (s start : GoString) : GoString :=
  if start.isPrefixOf s then s.drop start.length else s

/-- `strings.SplitN(s, sep, 2)` for a separator that is not empty: what stands before and behind its
first occurrence. -/
def cut (sep : GoString) : GoString → Option (GoString × GoString)
  | [] => none
  | b :: s =>
    if sep.isPrefixOf (b :: s) then some ([], (b :: s).drop sep.length)
    else (cut sep s).map fun (before, behind) => (b :: before, behind)

/-- Drop the white space at the front, with `skip` bytes of the current rune still to pass over. -/
def trimSpaceLeft : Nat → GoString → GoString
  | _, [] => []
  | skip + 1, _ :: rest => trimSpaceLeft skip rest
  | 0, b :: rest =>
    let (r, width) := decodeRune (b :: rest)
    if isSpace r then trimSpaceLeft (width - 1) rest else b :: rest

/-- Drop the white space at the end, in so many rounds. -/
def trimSpaceRight : Nat → GoString → GoString
  | 0, s => s
  | rounds + 1, s =>
    let r := decodeLastRune s
    if isSpace r then trimSpaceRight rounds (s.take (s.length - (encodeRune r).length)) else s

/-- `strings.TrimSpace`. -/
def trimSpace (s : GoString) : GoString :=
  let s := trimSpaceLeft 0 s
  trimSpaceRight s.length s

/-! ### The case table -/

/-- What a row of the table maps to: runes above ASCII that are no surrogates, or one
of the two ASCII letters that are the lower case of a code point above ASCII. -/
def CaseRange.Ok (c : CaseRange) : Prop :=
  (0x80 ≤ c.lo + c.delta ∧ c.hi + c.delta < 0xD800) ∨
    (0xDFFF < c.lo + c.delta ∧ c.hi + c.delta ≤ 0x10FFFF) ∨
    (c.lo = c.hi ∧ (c.lo + c.delta = 0x69 ∨ c.lo + c.delta = 0x6B))

instance (c : CaseRange) : Decidable c.Ok := inferInstanceAs (Decidable (_ ∨ _ ∨ _))

variable {r : Nat} {parts : List GoString} {sep : UInt8} {s : GoString}

theorem toLowerRune_ascii (h : r < runeSelf) :
    toLowerRune r = if 0x41 ≤ r ∧ r ≤ 0x5A then r + 0x20 else r :=
  if_pos h

theorem lowerRanges_ok : ∀ c ∈ lowerRanges, c.Ok := by decide +kernel

/-- The lower case of a rune above ASCII: itself, another such rune, or `i` or `k`. -/
theorem toLowerRune_high (hr : HighRune r) :
    HighRune (toLowerRune r) ∨ toLowerRune r = 0x69 ∨ toLowerRune r = 0x6B := by
  obtain ⟨hvalid, hself⟩ := hr
  unfold toLowerRune
  rw [if_neg (by omega)]
  cases hfind : lowerRanges.find? (·.covers r) with
  | none => exact Or.inl ⟨hvalid, hself⟩
  | some c =>
    have hok := lowerRanges_ok c (mem_of_find?_eq_some hfind)
    have hcovers := find?_some hfind
    simp only [CaseRange.covers, Bool.and_eq_true, decide_eq_true_eq] at hcovers
    simp only [CaseRange.Ok] at hok
    simp only [HighRune, ValidRune, runeSelf]
    omega

theorem toLowerRune_valid (h : ValidRune r) : ValidRune (toLowerRune r) := by
  by_cases hr : r < runeSelf
  · rw [toLowerRune_ascii hr]
    simp only [runeSelf] at hr
    simp only [ValidRune]
    split <;> omega
  · rcases toLowerRune_high ⟨h, Nat.le_of_not_lt hr⟩ with h | h | h
    · exact h.1
    · rw [h]; decide
    · rw [h]; decide

/-- No rune has an ASCII capital as its lower case. -/
theorem toLowerRune_not_upper (h : ValidRune r) :
    ¬ (0x41 ≤ toLowerRune r ∧ toLowerRune r ≤ 0x5A) := by
  by_cases hr : r < runeSelf
  · rw [toLowerRune_ascii hr]
    split <;> omega
  · rcases toLowerRune_high ⟨h, Nat.le_of_not_lt hr⟩ with h | h | h
    · have := h.2
      simp only [runeSelf] at this
      omega
    · omega
    · omega

/-- ASCII bytes that are not letters: no other rune lower-cases to them. -/
def IsMark (c : Nat) : Prop := c < 0x41

theorem toLowerRune_eq_mark {c : Nat} (h : ValidRune r) (hc : IsMark c) :
    toLowerRune r = c ↔ r = c := by
  simp only [IsMark] at hc
  by_cases hr : r < runeSelf
  · rw [toLowerRune_ascii hr]
    split <;> omega
  · have hself : c < runeSelf := by simp only [runeSelf]; omega
    constructor
    · intro he
      rcases toLowerRune_high ⟨h, Nat.le_of_not_lt hr⟩ with h | h | h
      · have := h.2
        omega
      · omega
      · omega
    · rintro rfl
      exact absurd hself hr

/-! ### Whole strings -/

/-- The strings that are the encoding of their runes. -/
def ValidUtf8 (s : GoString) : Prop := ofRunes (runes s) = s

@[simp] theorem runes_toLower (s : GoString) : runes (toLower s) = (runes s).map toLowerRune := by
  apply runes_ofRunes
  intro r hr
  obtain ⟨r', hr', rfl⟩ := mem_map.mp hr
  exact toLowerRune_valid (validRune_of_mem_runes hr')

theorem validUtf8_toLower (s : GoString) : ValidUtf8 (toLower s) := by
  rw [ValidUtf8, runes_toLower]
  rfl

/-- Lower-casing commutes with cutting a string at a byte that is not a letter. -/
theorem toLower_append_mark {b : UInt8} (hb : IsMark b.toNat) (s t : GoString) :
    toLower (s ++ b :: t) = toLower s ++ b :: toLower t := by
  have hself : b.toNat < runeSelf := by
    simp only [IsMark, runeSelf] at hb ⊢
    omega
  have hlower : toLowerRune b.toNat = b.toNat :=
    (toLowerRune_eq_mark (Or.inl (by simp only [runeSelf] at hself; omega)) hb).mpr rfl
  rw [toLower, runes_append_ascii hself, map_append, map_cons, ofRunes_append,
    ofRunes_cons, hlower, encodeRune_ascii hself]
  simp [toLower]

/-- A byte that is not a letter stands in the lower case exactly where it stood before. -/
theorem mark_mem_toLower {b : UInt8} (hb : IsMark b.toNat) (s : GoString) :
    b ∈ toLower s ↔ b ∈ s := by
  have hself : b.toNat < runeSelf := by
    simp only [IsMark, runeSelf] at hb ⊢
    omega
  rw [toLower, mem_ofRunes_iff hself, ← toNat_mem_runes_iff hself, mem_map]
  constructor
  · rintro ⟨r, hr, he⟩
    rwa [← (toLowerRune_eq_mark (validRune_of_mem_runes hr) hb).mp he]
  · intro h
    exact ⟨_, h, (toLowerRune_eq_mark (validRune_of_mem_runes h) hb).mpr rfl⟩

@[simp] theorem join_singleton (sep : UInt8) (s : GoString) : join sep [s] = s := by
  simp [join]

theorem join_cons_cons (sep : UInt8) (s t : GoString) (ts : List GoString) :
    join sep (s :: t :: ts) = s ++ sep :: join sep (t :: ts) := by
  simp [join]

theorem join_split (sep : UInt8) (s : GoString) : join sep (split sep s) = s :=
  intercalate_splitOn sep

theorem split_join (h : ∀ p ∈ parts, sep ∉ p) (hne : parts ≠ []) :
    split sep (join sep parts) = parts :=
  splitOn_intercalate sep h hne

theorem split_ne_nil (sep : UInt8) (s : GoString) : split sep s ≠ [] := splitOn_ne_nil sep s

/-- Cutting at the separators leaves parts without it. -/
theorem sep_not_mem_of_mem_split {p : GoString} (h : p ∈ split sep s) : sep ∉ p := by
  induction s generalizing p with
  | nil => simp_all [split]
  | cons b s ih =>
    simp only [split, splitOn_cons_eq_if_modifyHead] at h
    split_ifs at h with hb
    · rcases mem_cons.mp h with rfl | h
      · simp
      · exact ih h
    · obtain ⟨q, qs, hq⟩ := exists_cons_of_ne_nil (splitOn_ne_nil sep s)
      rw [hq, modifyHead_cons, mem_cons] at h
      have hne : sep ≠ b := fun he => hb (by simp [he])
      rcases h with rfl | h
      · have := ih (p := q) (by rw [split, hq]; exact mem_cons_self)
        simp [this, hne]
      · exact ih (by rw [split, hq]; exact mem_cons_of_mem _ h)

theorem join_append {parts' : List GoString} (hne : parts ≠ []) (hne' : parts' ≠ []) :
    join sep (parts ++ parts') = join sep parts ++ sep :: join sep parts' := by
  induction parts with
  | nil => exact absurd rfl hne
  | cons p ps ih =>
    cases ps with
    | nil =>
      obtain ⟨q, qs, rfl⟩ := exists_cons_of_ne_nil hne'
      simp [join_cons_cons]
    | cons q qs =>
      rw [cons_append, cons_append, join_cons_cons, ← cons_append, ih (by simp), join_cons_cons]
      simp

theorem join_concat (hne : parts ≠ []) (s : GoString) :
    join sep (parts ++ [s]) = join sep parts ++ sep :: s := by
  rw [join_append hne (cons_ne_nil s []), join_singleton]

theorem split_of_not_mem (h : sep ∉ s) : split sep s = [s] := by
  have hjoin : split sep (join sep [s]) = [s] := split_join (by simpa using h) (by simp)
  simpa using hjoin

/-- Cutting at a separator cuts both sides of it. -/
theorem split_append_sep (sep : UInt8) (s t : GoString) :
    split sep (s ++ sep :: t) = split sep s ++ split sep t := by
  have hjoin : s ++ sep :: t = join sep (split sep s ++ split sep t) := by
    rw [join_append (split_ne_nil sep s) (split_ne_nil sep t), join_split, join_split]
  rw [hjoin]
  exact split_join (forall_mem_append.mpr
    ⟨fun _ => sep_not_mem_of_mem_split, fun _ => sep_not_mem_of_mem_split⟩) (by simp [split_ne_nil])

/-- The parts of two texts in a row: the last part of the first and the first part of the second
become one. -/
theorem split_append {t a b : GoString} {ps qs : List GoString} (hs : split sep s = ps ++ [a])
    (ht : split sep t = b :: qs) : split sep (s ++ t) = ps ++ (a ++ b) :: qs := by
  have hjoin : s ++ t = join sep (ps ++ (a ++ b) :: qs) := by
    rw [← join_split sep s, ← join_split sep t, hs, ht]
    cases ps with
    | nil => cases qs <;> simp [join_cons_cons]
    | cons p ps =>
      rw [join_append (by simp) (by simp), join_append (by simp) (by simp)]
      cases qs <;> simp [join_cons_cons]
  rw [hjoin]
  have hps : ∀ p ∈ ps ++ [a], sep ∉ p := fun p hp => sep_not_mem_of_mem_split (hs ▸ hp)
  have hqs : ∀ p ∈ b :: qs, sep ∉ p := fun p hp => sep_not_mem_of_mem_split (ht ▸ hp)
  rw [forall_mem_append, forall_mem_singleton] at hps
  rw [forall_mem_cons] at hqs
  refine split_join (forall_mem_append.mpr ⟨hps.1, forall_mem_cons.mpr ⟨?_, hqs.2⟩⟩) (by simp)
  rw [mem_append, not_or]
  exact ⟨hps.2, hqs.1⟩

/-- Nothing is trimmed from a text that neither begins nor ends with the byte. -/
theorem trim_eq_self_iff {c : UInt8} : trim c s = s ↔ s.head? ≠ some c ∧ s.getLast? ≠ some c := by
  have hdrop : ∀ l : GoString, l.dropWhile (· == c) = l ↔ l.head? ≠ some c := by
    intro l
    cases l <;> simp [dropWhile_eq_self_iff]
  rw [trim, getLast?_eq_head?_reverse, ← hdrop, ← hdrop]
  constructor
  · intro h
    have hlen₁ := (dropWhile_sublist (· == c) (l := s)).length_le
    have hlen₂ := (dropWhile_sublist (· == c) (l := (s.dropWhile (· == c)).reverse)).length_le
    have hlen := congrArg List.length h
    rw [length_reverse] at hlen hlen₂
    have hself : s.dropWhile (· == c) = s := (dropWhile_sublist _).eq_of_length (by omega)
    refine ⟨hself, ?_⟩
    rw [hself] at h
    rw [← reverse_inj, h, reverse_reverse]
  · rintro ⟨h₁, h₂⟩
    rw [h₁, h₂, reverse_reverse]

/-- A function that commutes with cutting at the separator commutes with joining. -/
theorem map_join {f : GoString → GoString} (hcut : ∀ s t, f (s ++ sep :: t) = f s ++ sep :: f t)
    (hne : parts ≠ []) : f (join sep parts) = join sep (parts.map f) := by
  induction parts with
  | nil => exact absurd rfl hne
  | cons p ps ih =>
    cases ps with
    | nil => simp
    | cons q qs =>
      rw [join_cons_cons, hcut, ih (by simp)]
      simp only [map_cons, join_cons_cons]

/-- Lower-casing commutes with splitting at a byte that is not a letter. -/
theorem split_toLower (hsep : IsMark sep.toNat) (s : GoString) :
    split sep (toLower s) = (split sep s).map toLower := by
  have hjoin : toLower s = join sep ((split sep s).map toLower) := by
    rw [← map_join (toLower_append_mark hsep) (split_ne_nil sep s), join_split]
  rw [hjoin]
  refine split_join (fun p hp => ?_) (by simpa using split_ne_nil sep s)
  obtain ⟨q, hq, rfl⟩ := mem_map.mp hp
  rw [mark_mem_toLower hsep]
  exact sep_not_mem_of_mem_split hq

end Hako.GoLib
