import Mathlib

/-!
# Windowed filters

A `WindowedFilter` follows the best sample of a window of time by three estimates: the best one, and
two later ones that take its place when it has left the window.
-/

namespace Hako.Tuic.WindowedFilter

variable {V : Type*}

/-- A comparator is not negative if its first argument is at least as good as the second one. -/
structure Comparator (V : Type*) where
  compare : V → V → Int
  swap : ∀ a b, 0 ≤ compare a b ↔ compare b a ≤ 0
  trans : ∀ a b c, 0 ≤ compare a b → 0 ≤ compare b c → 0 ≤ compare a c

/-- The type `T` of times is that of the round counter, a `uint64` that does not wrap. -/
structure Entry (V : Type*) where
  sample : V
  time : Int

/-- The three `estimates`. -/
structure Estimates (V : Type*) where
  best : Entry V
  second : Entry V
  third : Entry V

def reset (new : Entry V) : Estimates V := ⟨new, new, new⟩

/-- A sample that is better than a later estimate replaces it. -/
def replace (c : Comparator V) (e : Estimates V) (new : Entry V) : Estimates V :=
  if 0 ≤ c.compare new.sample e.second.sample then { e with second := new, third := new }
  else if 0 ≤ c.compare new.sample e.third.sample then { e with third := new }
  else e

/-- Estimates that are too old give way. -/
def expire (c : Comparator V) (windowLength : Int) (e : Estimates V) (new : Entry V) :
    Estimates V :=
  if windowLength < new.time - e.best.time then
    if windowLength < new.time - e.second.time then ⟨e.third, new, new⟩
    else ⟨e.second, e.third, new⟩
  else if c.compare e.second.sample e.best.sample = 0 ∧
      windowLength.tdiv 4 < new.time - e.second.time then { e with second := new, third := new }
  else if c.compare e.third.sample e.second.sample = 0 ∧
      windowLength.tdiv 2 < new.time - e.third.time then { e with third := new }
  else e

/-- `Update`; `zero` is the zero value of samples. -/
def update (c : Comparator V) (zero : V) (windowLength : Int) (e : Estimates V) (new : Entry V) :
    Estimates V :=
  if c.compare e.best.sample zero = 0 ∨ 0 ≤ c.compare new.sample e.best.sample ∨
      windowLength < new.time - e.third.time then reset new
  else expire c windowLength (replace c e new) new

/-- A new filter that is given samples. -/
def run (c : Comparator V) (zero : V) (windowLength : Int) (samples : List (Entry V)) :
    Estimates V :=
  samples.foldl (update c zero windowLength) (reset ⟨zero, 0⟩)

/-! ### What holds after a call -/

/-- The estimates come best first, and were given one after the other. -/
structure Ordered (c : Comparator V) (samples : List (Entry V)) (now : Int) (e : Estimates V) :
    Prop where
  best_second : 0 ≤ c.compare e.best.sample e.second.sample
  second_third : 0 ≤ c.compare e.second.sample e.third.sample
  time_best : e.best.time ≤ e.second.time
  time_second : e.second.time ≤ e.third.time
  time_third : e.third.time ≤ now
  mem_best : e.best ∈ samples
  mem_second : e.second ∈ samples
  mem_third : e.third ∈ samples

/-- The best estimate is also within the window. -/
structure Good (c : Comparator V) (windowLength : Int) (samples : List (Entry V)) (now : Int)
    (e : Estimates V) : Prop extends Ordered c samples now e where
  fresh : now - e.best.time ≤ windowLength

section Update

variable {c : Comparator V} {windowLength now : Int} {samples : List (Entry V)} {e : Estimates V}
  {new : Entry V} {zero : V}

theorem Comparator.compare_self (c : Comparator V) (a : V) : c.compare a a = 0 := by
  have h := c.swap a a
  omega

/-- What is not as good as a sample comes after it. -/
theorem Comparator.le_of_not {a b : V} (h : ¬ 0 ≤ c.compare a b) : 0 ≤ c.compare b a := by
  rw [c.swap]
  omega

theorem ordered_reset (hmem : new ∈ samples) : Ordered c samples new.time (reset new) := by
  have hself := Int.le_of_eq (c.compare_self new.sample).symm
  exact ⟨hself, hself, Int.le_refl _, Int.le_refl _, Int.le_refl _, hmem, hmem, hmem⟩

theorem Ordered.mono (h : Ordered c samples now e) {samples' : List (Entry V)}
    (hsub : samples ⊆ samples') {now' : Int} (hnow : now ≤ now') : Ordered c samples' now' e :=
  ⟨h.best_second, h.second_third, h.time_best, h.time_second, Int.le_trans h.time_third hnow,
    hsub h.mem_best, hsub h.mem_second, hsub h.mem_third⟩

/-- After `replace` the new sample is no better than any estimate. -/
theorem Ordered.replace (h : Ordered c samples new.time e) (hmem : new ∈ samples)
    (hworse : ¬ 0 ≤ c.compare new.sample e.best.sample) :
    Ordered c samples new.time (replace c e new) ∧
      0 ≤ c.compare (replace c e new).third.sample new.sample ∧
      e.third.time ≤ (replace c e new).third.time := by
  have hself := Int.le_of_eq (c.compare_self new.sample).symm
  have hsecond := Int.le_trans h.time_second h.time_third
  rw [WindowedFilter.replace]
  split_ifs with h₁ h₂
  · exact ⟨⟨c.le_of_not hworse, hself, Int.le_trans h.time_best hsecond, Int.le_refl _,
      Int.le_refl _, h.mem_best, hmem, hmem⟩, hself, h.time_third⟩
  · exact ⟨⟨h.best_second, c.le_of_not h₁, h.time_best, hsecond, Int.le_refl _, h.mem_best,
      h.mem_second, hmem⟩, hself, h.time_third⟩
  · exact ⟨h, c.le_of_not h₂, Int.le_refl _⟩

/-- The last estimate is within the window, so that one of them can be the best. -/
theorem Ordered.expire (h : Ordered c samples new.time e) (hmem : new ∈ samples)
    (hthird : 0 ≤ c.compare e.third.sample new.sample)
    (hfresh : new.time - e.third.time ≤ windowLength) :
    Good c windowLength samples new.time (expire c windowLength e new) := by
  have hself := Int.le_of_eq (c.compare_self new.sample).symm
  have hsecond := c.trans _ _ _ h.second_third hthird
  have hbest := c.trans _ _ _ h.best_second hsecond
  have hle := Int.le_trans h.time_second h.time_third
  rw [WindowedFilter.expire]
  split_ifs with hexpired hexpired'
  · exact ⟨⟨hthird, hself, h.time_third, Int.le_refl _, Int.le_refl _, h.mem_third, hmem, hmem⟩,
      hfresh⟩
  · exact ⟨⟨h.second_third, hthird, h.time_second, h.time_third, Int.le_refl _, h.mem_second,
      h.mem_third, hmem⟩, Int.not_lt.mp hexpired'⟩
  · exact ⟨⟨hbest, hself, Int.le_trans h.time_best hle, Int.le_refl _, Int.le_refl _, h.mem_best,
      hmem, hmem⟩, Int.not_lt.mp hexpired⟩
  · exact ⟨⟨h.best_second, hsecond, h.time_best, hle, Int.le_refl _, h.mem_best, h.mem_second,
      hmem⟩, Int.not_lt.mp hexpired⟩
  · exact ⟨h, Int.not_lt.mp hexpired⟩

theorem Good.update (h : Good c windowLength samples now e) (hwindow : 0 ≤ windowLength)
    (htime : now ≤ new.time) :
    Good c windowLength (samples ++ [new]) new.time (update c zero windowLength e new) := by
  have hmem : new ∈ samples ++ [new] := by simp
  rw [WindowedFilter.update]
  split_ifs with hreset
  · exact ⟨ordered_reset hmem, by simpa [reset] using hwindow⟩
  · simp only [not_or, Int.not_lt] at hreset
    obtain ⟨-, hworse, hfresh⟩ := hreset
    have hordered := h.toOrdered.mono (List.subset_append_left samples [new]) htime
    obtain ⟨hreplaced, hthird, hlater⟩ := hordered.replace hmem hworse
    exact hreplaced.expire hmem hthird (by omega)

end Update

/-- After every call the estimates are samples that were given, the best first and the oldest first,
and the best one is within the window. -/
theorem estimates_good (c : Comparator V) (zero : V) (windowLength : Int)
    (hwindow : 0 ≤ windowLength) (samples : List (Entry V)) (new : Entry V)
    (htimes : (samples ++ [new]).Pairwise fun e e' => e.time ≤ e'.time) :
    Good c windowLength (samples ++ [new]) new.time
      (run c zero windowLength (samples ++ [new])) := by
  induction samples using List.reverseRecOn generalizing new with
  | nil =>
    -- A new filter has not seen any sample, and is reset.
    rw [run, List.nil_append, List.foldl_cons, List.foldl_nil, update,
      if_pos (.inl (c.compare_self zero))]
    exact ⟨ordered_reset (by simp), by simpa [reset] using hwindow⟩
  | append_singleton samples last ih =>
    obtain ⟨hbefore, -, hlast⟩ := List.pairwise_append.mp htimes
    rw [run, List.foldl_append]
    exact (ih last hbefore).update hwindow (hlast last (by simp) new (by simp))

/-- The greater of two numbers is the better one. -/
def maxFilter : Comparator Int where
  compare a b := if b < a then 1 else if a < b then -1 else 0
  swap a b := by split_ifs <;> omega
  trans a b c := by split_ifs <;> omega

theorem promoted_good : (run maxFilter 0 10 [⟨9, 1⟩, ⟨5, 4⟩, ⟨3, 12⟩]).best = ⟨5, 4⟩ ∧
    Good maxFilter 10 [⟨9, 1⟩, ⟨5, 4⟩, ⟨3, 12⟩] 12 (run maxFilter 0 10 [⟨9, 1⟩, ⟨5, 4⟩, ⟨3, 12⟩]) :=
  ⟨rfl, estimates_good maxFilter 0 10 (by decide) [⟨9, 1⟩, ⟨5, 4⟩] ⟨3, 12⟩ (by simp)⟩

end Hako.Tuic.WindowedFilter
