import Mathlib

/-!
# Brackets and the ranges they enclose

Texts over an alphabet with an opening and a closing bracket. In a balanced text every bracket
belongs to a pair, and the pairs, listed by their opening brackets, give a list of ranges in
which the ranges inside a pair follow it directly.
-/

namespace Hako.Lib

open List

/-- The positions of a pair of brackets. -/
structure Range where
  start : Nat
  stop : Nat
deriving DecidableEq, Repr

variable {α : Type*} {op cl : α}

/-- Well-nested texts. -/
inductive Balanced (op cl : α) : List α → Prop
  | nil : Balanced op cl []
  | other {c : α} {w : List α} : c ≠ op → c ≠ cl → Balanced op cl w → Balanced op cl (c :: w)
  | group {w w' : List α} : Balanced op cl w → Balanced op cl w' →
      Balanced op cl (op :: w ++ cl :: w')

theorem Balanced.append {w w' : List α} (h : Balanced op cl w) (h' : Balanced op cl w') :
    Balanced op cl (w ++ w') := by
  induction h with
  | nil => exact h'
  | other hop hcl _ ih => exact .other hop hcl ih
  | group hw _ _ ih =>
    have := Balanced.group hw ih
    simpa using this

theorem Balanced.of_forall_ne {w : List α} (h : ∀ c ∈ w, c ≠ op ∧ c ≠ cl) : Balanced op cl w := by
  induction w with
  | nil => exact .nil
  | cons c w ih =>
    obtain ⟨hc, hw⟩ := forall_mem_cons.mp h
    exact .other hc.1 hc.2 (ih hw)

/-- A balanced text in brackets. -/
theorem Balanced.enclose {w : List α} (h : Balanced op cl w) :
    Balanced op cl (op :: (w ++ [cl])) := by
  have := h.group .nil
  simpa using this

/-- The pairs of a text that stands at position `i`, by their opening brackets. -/
inductive Pairs (op cl : α) : List α → Nat → List Range → Prop
  | nil (i : Nat) : Pairs op cl [] i []
  | other {c : α} {w : List α} {i : Nat} {rs : List Range} : c ≠ op → c ≠ cl →
      Pairs op cl w (i + 1) rs → Pairs op cl (c :: w) i rs
  | group {w w' : List α} {i : Nat} {rs rs' : List Range} : Pairs op cl w (i + 1) rs →
      Pairs op cl w' (i + w.length + 2) rs' →
      Pairs op cl (op :: w ++ cl :: w') i (⟨i, i + w.length + 1⟩ :: rs ++ rs')

theorem Balanced.pairs {w : List α} (h : Balanced op cl w) (i : Nat) :
    ∃ rs, Pairs op cl w i rs := by
  induction h generalizing i with
  | nil => exact ⟨[], .nil i⟩
  | other hop hcl _ ih =>
    obtain ⟨rs, hrs⟩ := ih (i + 1)
    exact ⟨rs, .other hop hcl hrs⟩
  | @group w w' _ _ ih ih' =>
    obtain ⟨rs, hrs⟩ := ih (i + 1)
    obtain ⟨rs', hrs'⟩ := ih' (i + w.length + 2)
    exact ⟨_, .group hrs hrs'⟩

namespace Pairs

variable {w : List α} {i : Nat} {rs : List Range}

theorem plain_append {s : List α} (hs : ∀ c ∈ s, c ≠ op ∧ c ≠ cl)
    (h : Pairs op cl w (i + s.length) rs) : Pairs op cl (s ++ w) i rs := by
  induction s generalizing i with
  | nil => exact h
  | cons c s ih =>
    obtain ⟨hc, hs⟩ := forall_mem_cons.mp hs
    refine .other hc.1 hc.2 (ih hs ?_)
    rwa [Nat.add_assoc, Nat.add_comm 1]

variable (h : Pairs op cl w i rs)
include h

theorem bounds : ∀ r ∈ rs, i ≤ r.start ∧ r.stop < i + w.length := by
  induction h with
  | nil => nofun
  | other _ _ _ ih =>
    intro r hr
    have := ih r hr
    rw [length_cons]
    omega
  | group _ _ ih ih' =>
    intro r hr
    simp only [length_append, length_cons]
    rcases mem_append.mp hr with hr | hr
    · rcases mem_cons.mp hr with rfl | hr
      · exact ⟨le_refl _, by dsimp only; omega⟩
      · have := ih r hr
        omega
    · have := ih' r hr
      omega

theorem start_le_stop : ∀ r ∈ rs, r.start ≤ r.stop := by
  induction h with
  | nil => nofun
  | other _ _ _ ih => exact ih
  | group _ _ ih ih' =>
    exact forall_mem_append.mpr
      ⟨forall_mem_cons.mpr ⟨Nat.le_succ_of_le (Nat.le_add_right _ _), ih⟩, ih'⟩

theorem pairwise : rs.Pairwise (·.start < ·.start) := by
  induction h with
  | nil => exact .nil
  | other _ _ _ ih => exact ih
  | @group w w' i rs rs' hw hw' ih ih' =>
    rw [cons_append, pairwise_cons, pairwise_append]
    refine ⟨fun r hr => ?_, ih, ih', fun r hr r' hr' => ?_⟩
    · dsimp only
      rcases mem_append.mp hr with hr | hr
      · have := (hw.bounds r hr).1
        omega
      · have := (hw'.bounds r hr).1
        omega
    · have := hw.bounds r hr
      have := hw.start_le_stop r hr
      have := hw'.bounds r' hr'
      omega

end Pairs

/-- Sorting by the opening brackets restores the list of pairs. -/
theorem insertionSort_eq_of_perm {rs rs' : List Range} (h : rs.Pairwise (·.start < ·.start))
    (hperm : rs'.Perm rs) : rs'.insertionSort (·.start ≤ ·.start) = rs := by
  have hsort := (perm_insertionSort (·.start ≤ ·.start) rs').trans hperm
  have hsorted := pairwise_insertionSort (fun r s : Range => r.start ≤ s.start) rs'
  have hnodup : (rs.map Range.start).Nodup := pairwise_map.mpr (h.imp ne_of_lt)
  -- different pairs have different opening brackets
  refine hsort.eq_of_pairwise (fun r s hr hs hrs hsr => ?_) hsorted (h.imp le_of_lt)
  exact inj_on_of_nodup_map hnodup (hsort.subset hr) hs (le_antisymm hrs hsr)

end Hako.Lib
