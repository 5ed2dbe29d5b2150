import Hako.Common.Ranges
import Hako.GoLib.Strconv

/-!
# Ranges written as texts

`NewUnsignedRanges` reads numbers of 64 bits and cuts them to the target type. It reads a blank
between separators as 0, and takes a text without any range for all values.
-/

namespace Hako.Common.IntRanges

open GoLib List Option

def newRange (start end_ : Int) : Range := if start > end_ then ⟨end_, start⟩ else ⟨start, end_⟩

/-- `strings.Trim(s, "[ ]")` -/
def trimBrackets (s : GoString) : GoString :=
  (s.dropWhile (· ∈ [0x5B, 0x20, 0x5D])).rdropWhile (· ∈ [0x5B, 0x20, 0x5D])

/-- The number is cut to the `w` bits of the type. -/
def parseUnsigned (w : Nat) (s : GoString) : Option Int :=
  (parseDigits s).bind fun val => if val < 2 ^ 64 then some ((val % 2 ^ w : Nat) : Int) else none

def newIntRange (parseFn : GoString → Option Int) (s : GoString) : Option Range :=
  if trimSpace s = [] then some (newRange 0 0)
  else
    match split 0x2D (trimSpace s) with
    | [start] => (parseFn (trimBrackets start)).map fun start => newRange start start
    | [start, end_] => (parseFn (trimBrackets start)).bind fun start =>
        (parseFn (trimBrackets end_)).map (newRange start)
    | _ => none

def newIntRangesFromList (parseFn : GoString → Option Int) : List GoString → Option (List Range)
  | [] => some []
  | s :: list =>
    if s = [] then newIntRangesFromList parseFn list
    else (newIntRange parseFn s).bind fun r => (newIntRangesFromList parseFn list).map (r :: ·)

/-- What stands between the separators `/` and `,`. -/
def segments (expected : GoString) : List GoString :=
  split 0x2F ((trimSpace expected).map fun b => if b = 0x2C then 0x2F else b)

/-- The texts for all values: nothing, or `*`. -/
abbrev IsAll (expected : GoString) : Prop := trimSpace expected = [] ∨ trimSpace expected = [0x2A]

/-- `NewUnsignedRanges` for a type of `w` bits; none if the text is refused. -/
def newUnsignedRanges (w : Nat) (expected : GoString) : Option (List Range) :=
  if IsAll expected then some []
  else if (segments expected).length > 28 then none
  else newIntRangesFromList (parseUnsigned w) (segments expected)

def check (ranges : List Range) (status : Int) : Bool :=
  ranges.isEmpty || ranges.any fun segment => segment.start ≤ status ∧ status ≤ segment.end_

/-! ### What a text denotes -/

/-- A number of any size. -/
def parseNumber (s : GoString) : Option Int := (parseDigits s).map Int.ofNat

/-- The text has the interval between two separators. -/
def Writes (expected : GoString) (r : Range) : Prop :=
  ∃ s ∈ segments expected, trimSpace s ≠ [] ∧ newIntRange parseNumber s = some r

def Denotes (expected : GoString) (v : Int) : Prop :=
  IsAll expected ∨ ∃ r, Writes expected r ∧ r.Contains v

/-- Between two separators there is white space only. -/
def HasBlank (expected : GoString) : Prop := ∃ s ∈ segments expected, s ≠ [] ∧ trimSpace s = []

/-- No number of the text is outside of the type. -/
def Fits (w : Nat) (expected : GoString) : Prop := ∀ r, Writes expected r → r.end_ < 2 ^ w

variable {w : Nat} {expected s : GoString} {ranges : List Range} {r : Range}

theorem parseNumber_of_parseUnsigned {n : Int} (h : parseUnsigned w s = some n) :
    ∃ m : Int, parseNumber s = some m ∧ (m < 2 ^ w → n = m) := by
  obtain ⟨val, hval, hn⟩ := bind_eq_some_iff.mp h
  rw [parseNumber, hval]
  split_ifs at hn
  refine ⟨val, rfl, fun hlt => ?_⟩
  cases hn
  rw [Nat.mod_eq_of_lt (by exact_mod_cast hlt)]

theorem le_newRange (m m' : Int) : m ≤ (newRange m m').end_ ∧ m' ≤ (newRange m m').end_ := by
  unfold newRange
  split_ifs <;> dsimp only <;> omega

theorem newIntRange_number (h : newIntRange (parseUnsigned w) s = some r) :
    ∃ r', newIntRange parseNumber s = some r' ∧ (r'.end_ < 2 ^ w → r = r') := by
  unfold newIntRange at h ⊢
  split_ifs at h ⊢
  · exact ⟨r, h, fun _ => rfl⟩
  · split at h
    · obtain ⟨n, hn, rfl⟩ := map_eq_some_iff.mp h
      obtain ⟨m, hm, heq⟩ := parseNumber_of_parseUnsigned hn
      refine ⟨_, by rw [hm]; rfl, fun hlt => ?_⟩
      rw [heq ((le_newRange m m).1.trans_lt hlt)]
    · obtain ⟨n, hn, h⟩ := bind_eq_some_iff.mp h
      obtain ⟨n', hn', rfl⟩ := map_eq_some_iff.mp h
      obtain ⟨m, hm, heq⟩ := parseNumber_of_parseUnsigned hn
      obtain ⟨m', hm', heq'⟩ := parseNumber_of_parseUnsigned hn'
      refine ⟨_, by rw [hm, hm']; rfl, fun hlt => ?_⟩
      obtain ⟨hle, hle'⟩ := le_newRange m m'
      rw [heq (hle.trans_lt hlt), heq' (hle'.trans_lt hlt)]
    · cases h

/-- The ranges of a list are those of its texts. -/
theorem mem_ranges {parseFn : GoString → Option Int} {list : List GoString}
    (h : newIntRangesFromList parseFn list = some ranges) :
    (∀ s ∈ list, s ≠ [] → ∃ r, newIntRange parseFn s = some r) ∧
      ∀ r, r ∈ ranges ↔ ∃ s ∈ list, s ≠ [] ∧ newIntRange parseFn s = some r := by
  induction list generalizing ranges with
  | nil =>
    cases h
    simp
  | cons s list ih =>
    rw [newIntRangesFromList] at h
    split_ifs at h with hs
    · grind
    · obtain ⟨r, hr, h⟩ := bind_eq_some_iff.mp h
      obtain ⟨rs, hrs, rfl⟩ := map_eq_some_iff.mp h
      grind

/-- If its numbers are in the type, a text gives the intervals that it has, and 0 for a blank. -/
theorem mem_newUnsignedRanges (h : newUnsignedRanges w expected = some ranges)
    (hall : ¬IsAll expected) (hfits : Fits w expected) :
    r ∈ ranges ↔ Writes expected r ∨ HasBlank expected ∧ r = ⟨0, 0⟩ := by
  rw [newUnsignedRanges, if_neg hall] at h
  split_ifs at h
  obtain ⟨hread, hmem⟩ := mem_ranges h
  have hnumber : ∀ s ∈ segments expected, trimSpace s ≠ [] →
      ∀ r, newIntRange (parseUnsigned w) s = some r → newIntRange parseNumber s = some r := by
    intro s hs hblank r hr
    obtain ⟨r', hr', hsame⟩ := newIntRange_number hr
    rwa [hsame (hfits r' ⟨s, hs, hblank, hr'⟩)]
  rw [hmem]
  constructor
  · rintro ⟨s, hs, hne, hr⟩
    by_cases hblank : trimSpace s = []
    · rw [newIntRange, if_pos hblank] at hr
      exact .inr ⟨⟨s, hs, hne, hblank⟩, (some.inj hr).symm⟩
    · exact .inl ⟨s, hs, hblank, hnumber s hs hblank r hr⟩
  · rintro (⟨s, hs, hblank, hr⟩ | ⟨⟨s, hs, hne, hblank⟩, rfl⟩)
    · have hne : s ≠ [] := by
        rintro rfl
        exact hblank rfl
      obtain ⟨r', hr'⟩ := hread s hs hne
      rw [hnumber s hs hblank r' hr'] at hr
      exact ⟨s, hs, hne, hr'.trans hr⟩
    · exact ⟨s, hs, hne, if_pos hblank⟩

/-- An accepted text has no number outside of the type, and is checked as what it denotes, exactly
if all its numbers are in the type, and it denotes 0 or has an interval and no blank. -/
theorem check_iff_denotes (h : newUnsignedRanges w expected = some ranges) :
    (Fits w expected ∧ ∀ v : Nat, v < 2 ^ w → (check ranges v ↔ Denotes expected v)) ↔
      Fits w expected ∧ (Denotes expected 0 ∨ (∃ r, Writes expected r) ∧ ¬HasBlank expected) := by
  refine and_congr_right fun hfits => ?_
  by_cases hall : IsAll expected
  · rw [newUnsignedRanges, if_pos hall] at h
    cases h
    exact iff_of_true (fun v _ => iff_of_true rfl (.inl hall)) (.inl (.inl hall))
  have hmem : ∀ r, r ∈ ranges ↔ _ := fun r => mem_newUnsignedRanges h hall hfits
  have hcheck : ∀ v : Int, check ranges v ↔ ranges = [] ∨ ∃ r ∈ ranges, r.Contains v := by
    simp [check, Range.Contains]
  have hblank : HasBlank expected → check ranges 0 := fun hblank =>
    (hcheck 0).mpr (.inr ⟨_, (hmem _).mpr (.inr ⟨hblank, rfl⟩), le_rfl, le_rfl⟩)
  constructor
  · refine fun hv => or_iff_not_imp_left.mpr fun hdenotes => ?_
    have hno : ¬check ranges 0 := mt (hv 0 (Nat.two_pow_pos w)).mp hdenotes
    obtain ⟨r, hr⟩ := exists_mem_of_ne_nil _ (mt (fun hnil => (hcheck 0).mpr (.inl hnil)) hno)
    exact ⟨⟨r, ((hmem r).mp hr).resolve_right fun hr => hno (hblank hr.1)⟩, mt hblank hno⟩
  · refine fun hzero v _ => (hcheck v).trans ⟨?_, fun hv => ?_⟩
    · rintro (rfl | ⟨r, hr, hv⟩)
      · -- there is an interval, and its range
        obtain ⟨r, hr⟩ : ∃ r, Writes expected r := hzero.elim
          (fun hdenotes => (hdenotes.resolve_left hall).imp fun _ => And.left) And.left
        cases (hmem r).mpr (.inl hr)
      · rcases (hmem r).mp hr with hr | ⟨hblank, rfl⟩
        · exact .inr ⟨r, hr, hv⟩
        · rw [le_antisymm hv.2 hv.1]
          exact hzero.resolve_right fun h => h.2 hblank
    · obtain ⟨r, hr, hv⟩ := hv.resolve_left hall
      exact .inr ⟨r, (hmem r).mpr (.inl hr), hv⟩

/-- The text `200-204`, for numbers of sixteen bits. -/
theorem check_iff_denotes_status :
    let text : GoString := [0x32, 0x30, 0x30, 0x2D, 0x32, 0x30, 0x34]
    newUnsignedRanges 16 text = some [⟨200, 204⟩] ∧
      ∀ v : Nat, v < 2 ^ 16 → (check [⟨200, 204⟩] v ↔ Denotes text v) := by
  intro text
  have h : newUnsignedRanges 16 text = some [⟨200, 204⟩] := by decide
  have hnumber : newIntRange parseNumber text = some ⟨200, 204⟩ := by decide
  refine ⟨h, ((check_iff_denotes h).mpr ⟨?_, .inr
    ⟨⟨_, text, mem_singleton_self _, by decide, hnumber⟩, ?_⟩⟩).2⟩
  · rintro r ⟨s, hs, -, hr⟩
    obtain rfl : s = text := mem_singleton.mp hs
    cases hnumber.symm.trans hr
    decide
  · rintro ⟨s, hs, -, hblank⟩
    obtain rfl : s = text := mem_singleton.mp hs
    exact absurd hblank (by decide)

/-- For numbers of sixteen bits the text `70000` is accepted, and 4464 passes. -/
theorem number_cut :
    let text : GoString := [0x37, 0x30, 0x30, 0x30, 0x30]
    newUnsignedRanges 16 text = some [⟨4464, 4464⟩] ∧ Writes text ⟨70000, 70000⟩ ∧
      check [⟨4464, 4464⟩] 4464 :=
  ⟨by decide, ⟨_, mem_singleton_self _, by decide, by decide⟩, by decide⟩

end Hako.Common.IntRanges
