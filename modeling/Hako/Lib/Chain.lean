import Mathlib

/-!
# Chains of a partial function

Following a partial function from an element until it is undefined.
-/

namespace Hako.Lib

variable {α : Type*} (f : α → Option α)

/-- The element reached from `a` in `k` steps. -/
def chain : Nat → α → Option α
  | 0, a => some a
  | k + 1, a => (f a).bind (chain k)

@[simp]
theorem chain_zero (a : α) : chain f 0 a = some a := rfl

theorem chain_succ (k : Nat) (a : α) : chain f (k + 1) a = (f a).bind (chain f k) := rfl

theorem chain_add (j k : Nat) (a : α) : chain f (j + k) a = (chain f j a).bind (chain f k) := by
  induction j generalizing a with
  | zero => simp
  | succ j ih =>
    rw [Nat.succ_add_eq_add_succ, Nat.add_succ, chain_succ, chain_succ]
    cases f a with
    | none => rfl
    | some b => exact ih b

variable {f}

theorem chain_eq_none_of_le {j k : Nat} (hjk : j ≤ k) {a : α} (h : chain f j a = none) :
    chain f k a = none := by
  obtain ⟨d, rfl⟩ := Nat.exists_eq_add_of_le hjk
  rw [chain_add, h]
  rfl

/-- An element reached from itself is reached again and again. -/
theorem chain_mul_of_self {k : Nat} {a : α} (h : chain f k a = some a) (m : Nat) :
    chain f (m * k) a = some a := by
  induction m with
  | zero => simp
  | succ m ih => rw [Nat.succ_mul, chain_add, ih, Option.bind_some, h]

/-- If the values of `f` are finitely many, all chains end exactly when no element is reached
from itself. -/
theorem chain_ends_iff (hfin : {b | ∃ a, f a = some b}.Finite) :
    (∀ a, ∃ k, chain f k a = none) ↔ ∀ a k, 0 < k → chain f k a ≠ some a := by
  constructor
  · intro hends a k hk hself
    obtain ⟨j, hj⟩ := hends a
    have hnone := chain_eq_none_of_le (Nat.le_mul_of_pos_right j hk) hj
    rw [chain_mul_of_self hself] at hnone
    cases hnone
  · intro hacyclic a
    by_contra hnever
    push Not at hnever
    choose g hg using fun k => Option.ne_none_iff_exists'.mp (hnever k)
    -- after the first step the chain stays among the finitely many values
    have hmem : ∀ k, g (k + 1) ∈ {b | ∃ a, f a = some b} := by
      intro k
      have hstep := hg (k + 1)
      rw [chain_add, hg k, Option.bind_some, chain_succ] at hstep
      obtain ⟨b, hb, hlast⟩ := Option.bind_eq_some_iff.mp hstep
      exact ⟨g k, hb.trans hlast⟩
    have : Finite {b | ∃ a, f a = some b} := hfin
    obtain ⟨i, j, hne, heq⟩ := Finite.exists_ne_map_eq_of_infinite
      fun k : Nat => (⟨g (k + 1), hmem k⟩ : {b | ∃ a, f a = some b})
    have hrepeat : ∀ i j, i < j → g (i + 1) = g (j + 1) → False := by
      intro i j hij heq
      refine hacyclic (g (i + 1)) (j - i) (by omega) ?_
      have hj := hg (j + 1)
      rw [show j + 1 = i + 1 + (j - i) by omega, chain_add, hg (i + 1), Option.bind_some] at hj
      rw [hj]
      exact congrArg some (by rw [heq]; congr 1; omega)
    have heq : g (i + 1) = g (j + 1) := congrArg Subtype.val heq
    rcases Nat.lt_or_gt_of_ne hne with hij | hji
    · exact hrepeat i j hij heq
    · exact hrepeat j i hji heq.symm

end Hako.Lib
