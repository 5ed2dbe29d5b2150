import Mathlib

/-!
# Computations that may fail
-/

namespace Hako.Lib

theorem ok_bind {ε α β : Type} (a : α) (f : α → Except ε β) : (Except.ok a >>= f) = f a := rfl

theorem bind_eq_ok {ε α β : Type} {x : Except ε α} {f : α → Except ε β} {b : β} :
    x >>= f = .ok b ↔ ∃ a, x = .ok a ∧ f a = .ok b := by
  cases x with
  | error e => exact ⟨nofun, nofun⟩
  | ok a =>
    refine ⟨fun h => ⟨a, rfl, h⟩, ?_⟩
    rintro ⟨a', h, hf⟩
    cases h
    exact hf

theorem toOption_bind {ε α β : Type} (x : Except ε α) (f : α → Except ε β) :
    (x >>= f).toOption = x.toOption.bind fun a => (f a).toOption := by
  cases x <;> rfl

/-- The step of a loop that goes on after an error. -/
def orSkip {ε α σ : Type} (f : σ → α → Except ε σ) (st : σ) (a : α) : σ :=
  match f st a with
  | .ok st' => st'
  | .error _ => st

theorem foldl_of_foldlM {ε α σ : Type} {f : σ → α → Except ε σ} {l : List α} {st st' : σ}
    (h : l.foldlM f st = .ok st') : l.foldl (orSkip f) st = st' := by
  induction l generalizing st with
  | nil =>
    cases h
    rfl
  | cons a l ih =>
    rw [List.foldlM_cons] at h
    obtain ⟨st₁, hstep, h⟩ := bind_eq_ok.mp h
    rw [List.foldl_cons, orSkip, hstep]
    exact ih h

section Loops

universe u v

variable {α : Type*} {β : Type u} {l : List α}

theorem exists_mapM {f : α → Option β} (h : ∀ a ∈ l, ∃ b, f a = some b) :
    ∃ l', l.mapM f = some l' := by
  induction l with
  | nil => exact ⟨[], rfl⟩
  | cons a l ih =>
    obtain ⟨⟨b, hb⟩, hl⟩ := List.forall_mem_cons.mp h
    obtain ⟨bs, hbs⟩ := ih hl
    exact ⟨b :: bs, by rw [List.mapM_cons, hb, hbs]; rfl⟩

theorem map_eq_of_mapM {f : α → Option β} {bs : List β} (h : l.mapM f = some bs) :
    l.map f = bs.map some := by
  induction l generalizing bs with
  | nil =>
    cases h
    rfl
  | cons a l ih =>
    rw [List.mapM_cons] at h
    obtain ⟨b, hb, h⟩ := Option.bind_eq_some_iff.mp h
    obtain ⟨bs, hbs, h⟩ := Option.bind_eq_some_iff.mp h
    cases h
    rw [List.map_cons, List.map_cons, hb, ih hbs]

variable {m : Type u → Type v} [Monad m] [LawfulMonad m] {f : α → m β}

theorem mapM_congr {g : α → m β} (h : ∀ a ∈ l, f a = g a) : l.mapM f = l.mapM g := by
  induction l with
  | nil => rfl
  | cons a l ih =>
    obtain ⟨ha, hl⟩ := List.forall_mem_cons.mp h
    rw [List.mapM_cons, List.mapM_cons, ha, ih hl]

theorem mapM_eq_pure {g : α → β} (h : ∀ a ∈ l, f a = pure (g a)) :
    l.mapM f = pure (l.map g) :=
  (mapM_congr h).trans List.mapM_pure

end Loops

end Hako.Lib
