import Mathlib

/-!
# Ranges of integers

`IntRanges.Merge` joins the ranges that overlap or follow one another, in the slice it runs over,
and `IntRanges.Range` calls a function for every value. Both count in the integer type of the
ranges, whose largest value is followed by the smallest one.
-/

namespace Hako.Common.IntRanges

open List

/-- An integer type, by its smallest and its largest value. -/
structure IntType where
  min : Int
  max : Int
  min_lt_max : min < max

/-- `i + 1` in the type. -/
def IntType.succ (T : IntType) (i : Int) : Int := if i = T.max then T.min else i + 1

structure Range where
  start : Int
  end_ : Int
  deriving DecidableEq

def Range.Contains (r : Range) (i : Int) : Prop := r.start ≤ i ∧ i ≤ r.end_

/-- A step of the loop of `Merge`, on the slice and `rangeIndex`: the merged ranges are a part of
the slice. None if an index is out of range. -/
def mergeStep (T : IntType) (st : List Range × Nat) (i : Nat) : Option (List Range × Nat) := do
  let (ranges, rangeIndex) := st
  let r ← ranges[i]?
  let last ← ranges[rangeIndex]?
  if T.succ last.end_ > last.end_ ∧ r.start > T.succ last.end_ then
    some (ranges.set (rangeIndex + 1) r, rangeIndex + 1)
  else if r.end_ > last.end_ then
    some (ranges.set rangeIndex { last with end_ := r.end_ }, rangeIndex)
  else some (ranges, rangeIndex)

/-- `IntRanges.Merge`, with the sorting as a parameter. -/
def merge (T : IntType) (sort : List Range → List Range) (ranges : List Range) :
    Option (List Range) :=
  if ranges = [] then some []
  else ((range' 1 (ranges.length - 1)).foldlM (mergeStep T) (sort ranges, 0)).map
    fun (ranges, rangeIndex) => ranges.take (rangeIndex + 1)

/-- The inner loop of `IntRanges.Range`: the calls of the function from `i` on, where `after` are
those for the ranges behind. None if the loop still runs. -/
def rangeLoop (T : IntType) (f : Int → Bool) (r : Range) (after : Option (List Int)) :
    Nat → Int → Option (List Int)
  | 0, _ => none
  | fuel + 1, i =>
    if i ≤ r.end_ ∧ i ≥ r.start then
      if !f i then some [i]
      else if T.succ i < i then after.map (i :: ·)
      else (rangeLoop T f r after fuel (T.succ i)).map (i :: ·)
    else after

/-- `IntRanges.Range` -/
def range (T : IntType) (f : Int → Bool) (fuel : Nat) : List Range → Option (List Int)
  | [] => some []
  | r :: ranges => rangeLoop T f r (range T f fuel ranges) fuel r.start

/-! ### Merging -/

def Range.Valid (T : IntType) (r : Range) : Prop :=
  T.min ≤ r.start ∧ r.start ≤ r.end_ ∧ r.end_ ≤ T.max

/-- The values in some of the ranges. -/
def Covers (ranges : List Range) (i : Int) : Prop := ∃ r ∈ ranges, r.Contains i

/-- Sorted, disjoint and not adjacent. -/
def Separated (ranges : List Range) : Prop := ranges.Pairwise fun r r' => r.end_ + 1 < r'.start

/-- What the merged ranges are for the ranges read so far. -/
structure Merged (T : IntType) (ranges merged : List Range) : Prop where
  separated : Separated merged
  valid : ∀ r ∈ merged, r.Valid T
  covers : ∀ i, Covers merged i ↔ Covers ranges i

variable {T : IntType} {ranges done rest init : List Range} {r last : Range}

variable {i : Int} {n : Nat}

theorem covers_append {ranges' : List Range} :
    Covers (ranges ++ ranges') i ↔ Covers ranges i ∨ Covers ranges' i := by
  simp [Covers, or_and_right, exists_or]

theorem IntType.succ_of_lt (h : i < T.max) : T.succ i = i + 1 := if_neg h.ne

theorem IntType.lt_succ_iff (h : i ≤ T.max) : i < T.succ i ↔ i < T.max := by
  have := T.min_lt_max
  unfold succ
  split_ifs <;> omega

theorem Merged.push (h : Merged T done (init ++ [last])) (hr : r.Valid T)
    (hgap : last.end_ + 1 < r.start) : Merged T (done ++ [r]) (init ++ [last] ++ [r]) where
  separated := by
    have hlast := h.valid last (by simp)
    refine pairwise_append.mpr ⟨h.separated, pairwise_singleton _ _, fun r' hr' s hs => ?_⟩
    obtain rfl := mem_singleton.mp hs
    rcases mem_append.mp hr' with hinit | hr'
    · have := (pairwise_append.mp h.separated).2.2 r' hinit last (by simp)
      have := hlast.2.1
      omega
    · obtain rfl := mem_singleton.mp hr'
      exact hgap
  valid := forall_mem_append.mpr ⟨h.valid, by simpa using hr⟩
  covers i := by rw [covers_append, h.covers, covers_append]

/-- A range that overlaps or follows the last one makes it longer. -/
theorem Merged.extend (h : Merged T done (init ++ [last])) (hr : r.Valid T)
    (hstart : last.start ≤ r.start) (hgap : r.start ≤ last.end_ + 1) :
    Merged T (done ++ [r]) (init ++ [⟨last.start, max last.end_ r.end_⟩]) where
  separated := by
    obtain ⟨hinit, -, hlast⟩ := pairwise_append.mp h.separated
    exact pairwise_append.mpr ⟨hinit, pairwise_singleton _ _, by simpa using hlast⟩
  valid := by
    have hvalid := forall_mem_append.mp h.valid
    obtain ⟨hmin, hle, hmax⟩ := hvalid.2 last (by simp)
    obtain ⟨-, -, hmax'⟩ := hr
    refine forall_mem_append.mpr ⟨hvalid.1, forall_mem_singleton.mpr ⟨hmin, ?_, ?_⟩⟩
    all_goals dsimp only; omega
  covers i := by
    obtain ⟨-, hle, -⟩ := h.valid last (by simp)
    obtain ⟨-, hle', -⟩ := hr
    rw [covers_append, covers_append, ← h.covers, covers_append, or_assoc]
    refine or_congr Iff.rfl ?_
    simp only [Covers, mem_singleton, exists_eq_left, Range.Contains]
    omega

variable (junk : List Range) (f : Int → Bool)

/-- A step when the last merged range is followed by ranges that were read (`junk`): `r` is written
behind the last one, over the first range of the junk or over itself, or it is joined with it. -/
theorem mergeStep_eq :
    mergeStep T (init ++ last :: (junk ++ r :: rest), init.length) (init.length + 1 + junk.length) =
      if T.succ last.end_ > last.end_ ∧ r.start > T.succ last.end_ then
        some (init ++ [last] ++ r :: ((junk ++ [r]).tail ++ rest), (init ++ [last]).length)
      else some (init ++ ⟨last.start, max last.end_ r.end_⟩ :: (junk ++ [r] ++ rest),
        init.length) := by
  have hread : (init ++ last :: (junk ++ r :: rest))[init.length + 1 + junk.length]? = some r := by
    rw [getElem?_append_right (by omega), Nat.add_assoc, Nat.add_sub_cancel_left, Nat.add_comm 1]
    simp
  simp only [mergeStep, hread, Option.bind_eq_bind, Option.bind_some, getElem?_append_right,
    le_refl, Nat.sub_self, getElem?_cons_zero]
  split_ifs with hgap hend
  · cases junk <;> simp
  · simp [max_eq_right hend.le]
  · simp [max_eq_left (not_lt.mp hend)]

theorem mergeLoop_spec (h : Merged T done (init ++ [last]))
    (hrest : ∀ r ∈ rest, r.Valid T) (hstart : ∀ r ∈ rest, last.start ≤ r.start)
    (hsorted : rest.Pairwise (·.start ≤ ·.start)) :
    ∃ init' last' junk', (range' (init.length + 1 + junk.length) rest.length).foldlM (mergeStep T)
        (init ++ last :: (junk ++ rest), init.length) =
          some (init' ++ last' :: junk', init'.length) ∧
      Merged T (done ++ rest) (init' ++ [last']) := by
  induction rest generalizing done init last junk with
  | nil => exact ⟨init, last, junk, by simp, by simpa using h⟩
  | cons r rest ih =>
    obtain ⟨hr, hrest⟩ := forall_mem_cons.mp hrest
    obtain ⟨hle, hstart⟩ := forall_mem_cons.mp hstart
    obtain ⟨hfirst, hsorted⟩ := pairwise_cons.mp hsorted
    obtain ⟨-, -, hmax⟩ := h.valid last (by simp)
    have hassoc : done ++ r :: rest = done ++ [r] ++ rest := by simp
    rw [length_cons, range'_succ, foldlM_cons, mergeStep_eq, hassoc]
    by_cases hgap : T.succ last.end_ > last.end_ ∧ r.start > T.succ last.end_
    · rw [if_pos hgap]
      have hlt := (T.lt_succ_iff hmax).mp hgap.1
      rw [T.succ_of_lt hlt] at hgap
      have hnext := ih (junk ++ [r]).tail (h.push hr hgap.2) hrest hfirst hsorted
      have hindex : (init ++ [last]).length + 1 + (junk ++ [r]).tail.length =
          init.length + 1 + junk.length + 1 := by
        simp
        omega
      rwa [hindex] at hnext
    · rw [if_neg hgap]
      have hclose : r.start ≤ last.end_ + 1 := by
        by_cases hlt : last.end_ < T.max
        · have hsucc := (T.lt_succ_iff hmax).mpr hlt
          rw [T.succ_of_lt hlt] at hgap hsucc
          omega
        · have := hr.2
          omega
      have hnext := ih (junk ++ [r]) (h.extend hr hle hclose) hrest hstart hsorted
      rwa [length_append, length_singleton] at hnext

/-! ### Calls for the values -/

/-- The calls for some values, until the function asks for no more. -/
def callsFor (f : Int → Bool) : List Int → List Int
  | [] => []
  | i :: values => if f i then i :: callsFor f values else [i]

def upFrom (i : Int) : Nat → List Int
  | 0 => []
  | n + 1 => i :: upFrom (i + 1) n

def Range.values (r : Range) : List Int := upFrom r.start (r.end_ + 1 - r.start).toNat

theorem mem_upFrom {j : Int} : j ∈ upFrom i n ↔ i ≤ j ∧ j < i + n := by
  induction n generalizing i with
  | zero =>
    simp only [upFrom, not_mem_nil, false_iff]
    omega
  | succ n ih =>
    rw [upFrom, mem_cons, ih]
    omega

theorem pairwise_upFrom (i : Int) (n : Nat) : (upFrom i n).Pairwise (· < ·) := by
  induction n generalizing i with
  | zero => exact .nil
  | succ n ih => exact .cons (fun j hj => by have := mem_upFrom.mp hj; omega) (ih _)

theorem mem_values (hr : r.start ≤ r.end_) : i ∈ r.values ↔ r.Contains i := by
  rw [Range.values, mem_upFrom, Range.Contains]
  omega

theorem rangeLoop_eq (hr : r.Valid T) (values : List Int) {fuel : Nat}
    (hstart : r.start ≤ i) (hn : i + n = r.end_ + 1) (hfuel : n < fuel) :
    rangeLoop T f r (some (callsFor f values)) fuel i =
      some (callsFor f (upFrom i n ++ values)) := by
  induction n generalizing i fuel with
  | zero =>
    obtain ⟨fuel, rfl⟩ := Nat.exists_eq_add_of_lt hfuel
    rw [rangeLoop, if_neg (by omega)]
    rfl
  | succ n ih =>
    obtain ⟨fuel, rfl⟩ := Nat.exists_eq_succ_of_ne_zero (Nat.ne_zero_of_lt hfuel)
    have hmax := hr.2.2
    have hmin := T.min_lt_max
    rw [rangeLoop, if_pos (by omega), upFrom, cons_append, callsFor]
    by_cases hf : f i
    · rw [if_neg (by simp [hf]), if_pos hf]
      by_cases hlast : i = T.max
      · -- the next value wraps around, and `i` is the end of the range
        obtain rfl : n = 0 := by omega
        rw [if_pos (by rw [IntType.succ, if_pos hlast]; omega)]
        rfl
      · rw [IntType.succ_of_lt (by omega), if_neg (by omega), ih (by omega) (by omega) (by omega)]
        rfl
    · rw [if_pos (by simp [hf]), if_neg hf]

theorem range_eq (hvalid : ∀ r ∈ ranges, r.Valid T) :
    range T f ((T.max - T.min).toNat + 2) ranges =
      some (callsFor f (ranges.flatMap Range.values)) := by
  induction ranges with
  | nil => rfl
  | cons r ranges ih =>
    obtain ⟨hr, hranges⟩ := forall_mem_cons.mp hvalid
    have ⟨_, _, _⟩ := hr
    rw [range, ih hranges, flatMap_cons, Range.values]
    exact rangeLoop_eq f hr _ le_rfl (by omega) (by omega)

theorem pairwise_flatMap_values (hsep : Separated ranges) (hvalid : ∀ r ∈ ranges, r.Valid T) :
    (ranges.flatMap Range.values).Pairwise (· < ·) := by
  refine pairwise_flatMap.mpr ⟨fun r _ => pairwise_upFrom _ _, ?_⟩
  refine hsep.imp_of_mem fun {r r'} hr hr' hgap i hi j hj => ?_
  have hi := (mem_values (hvalid r hr).2.1).mp hi
  have hj := (mem_values (hvalid r' hr').2.1).mp hj
  simp only [Range.Contains] at hi hj
  omega

/-- Merged ranges are separated and have the values of the ranges, and `Range` on them ends after
the calls for these values in increasing order, or after the call that asks for no more. -/
theorem merge_range {sort : List Range → List Range}
    (hsort : ∀ l, sort l ~ l ∧ (sort l).Pairwise (·.start ≤ ·.start))
    (hvalid : ∀ r ∈ ranges, r.Valid T) :
    ∃ merged, merge T sort ranges = some merged ∧ Separated merged ∧ (∀ r ∈ merged, r.Valid T) ∧
      (∀ i, Covers merged i ↔ Covers ranges i) ∧
      ∃ values : List Int, values.Pairwise (· < ·) ∧ (∀ i, i ∈ values ↔ Covers ranges i) ∧
        ∀ f, range T f ((T.max - T.min).toNat + 2) merged = some (callsFor f values) := by
  have hmerge : ∃ merged, merge T sort ranges = some merged ∧ Merged T ranges merged := by
    by_cases hnil : ranges = []
    · subst hnil
      exact ⟨[], rfl, .nil, by simp, fun i => Iff.rfl⟩
    obtain ⟨hperm, hsorted⟩ := hsort ranges
    cases hslice : sort ranges with
    | nil => exact absurd (hslice ▸ hperm).nil_eq.symm hnil
    | cons first rest =>
      rw [hslice] at hperm hsorted
      obtain ⟨hfirst, hrest⟩ := forall_mem_cons.mp fun r hr => hvalid r (hperm.subset hr)
      obtain ⟨hstart, hsorted⟩ := pairwise_cons.mp hsorted
      have hone : Merged T [first] ([] ++ [first]) :=
        ⟨pairwise_singleton _ _, by simpa using hfirst, fun i => Iff.rfl⟩
      obtain ⟨init, last, junk, hloop, hmerged⟩ := mergeLoop_spec [] hone hrest hstart hsorted
      refine ⟨init ++ [last], ?_, hmerged.separated, hmerged.valid, fun i => ?_⟩
      · have hlen : ranges.length - 1 = rest.length := by simp [← hperm.length_eq]
        rw [merge, if_neg hnil, hlen, hslice]
        simp only [nil_append, length_nil, Nat.zero_add, Nat.add_zero] at hloop
        simp [hloop, take_append, take_of_length_le]
      · rw [hmerged.covers]
        simp only [Covers, singleton_append, hperm.mem_iff]
  obtain ⟨merged, hmerge, hmerged⟩ := hmerge
  refine ⟨merged, hmerge, hmerged.separated, hmerged.valid, hmerged.covers,
    merged.flatMap Range.values, pairwise_flatMap_values hmerged.separated hmerged.valid,
    fun i => ?_, fun f => range_eq f hmerged.valid⟩
  rw [← hmerged.covers, mem_flatMap]
  exact exists_congr fun r => and_congr_right fun hr => mem_values (hmerged.valid r hr).2.1

/-- Ranges of bytes that touch both ends of the type. -/
theorem merge_range_bytes :
    let T : IntType := ⟨0, 255, by decide⟩
    let sort := fun l : List Range => l.mergeSort fun r r' => decide (r.start ≤ r'.start)
    ∃ merged, merge T sort [⟨254, 255⟩, ⟨0, 1⟩, ⟨2, 3⟩] = some merged ∧ Separated merged := by
  intro T sort
  have hsort : ∀ l, sort l ~ l ∧ (sort l).Pairwise (·.start ≤ ·.start) := by
    refine fun l => ⟨mergeSort_perm _ _, ?_⟩
    have := @pairwise_mergeSort Range (fun r r' => decide (r.start ≤ r'.start))
      (fun a b c hab hbc => by simp only [decide_eq_true_eq] at *; omega)
      (fun a b => by simp only [Bool.or_eq_true, decide_eq_true_eq]; omega) l
    exact this.imp fun h => of_decide_eq_true h
  have hvalid : ∀ r ∈ [⟨254, 255⟩, ⟨0, 1⟩, ⟨2, 3⟩], Range.Valid T r := by simp [T, Range.Valid]
  obtain ⟨merged, hmerge, hsep, -⟩ := merge_range hsort hvalid
  exact ⟨merged, hmerge, hsep⟩

end Hako.Common.IntRanges
