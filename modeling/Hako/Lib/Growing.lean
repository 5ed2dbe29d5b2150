import Mathlib

/-!
# Readers of a growing input

A reader looks at the part of an input that has arrived, and may answer that it needs the input to
have some length. It is sound if its answer on a part is the one on the whole input, or asks for
more than there is and no more than a limit.

Soundness is closed under sequencing, and reads of what is known to have arrived are sound. So that
a reader built from such steps is sound, and never reads outside of what it was given.
-/

namespace Hako.Growing

universe u

variable {β ε : Type*} {γ δ : Type u}

/-- The two kinds of errors that readers are about. -/
structure Errors (ε : Type*) where
  needs : Nat → ε
  outOfRange : ε

/-- An answer that is final, and no failed read. -/
def Final (E : Errors ε) (answer : Except ε γ) : Prop :=
  answer ≠ .error E.outOfRange ∧ ∀ n, answer ≠ .error (E.needs n)

/-- The reader `f` on the parts of `whole` that are at least `known` long. -/
def Sound (E : Errors ε) (whole : List β) (limit known : Nat) (f : List β → Except ε γ) : Prop :=
  ∀ part, part <+: whole → known ≤ part.length →
    (f part = f whole ∧ Final E (f part)) ∨
      ∃ n, f part = .error (E.needs n) ∧ part.length < n ∧ n ≤ limit

/-- An element of the input. -/
def byteAt (E : Errors ε) (data : List β) (i : Nat) : Except ε β :=
  match data[i]? with
  | some b => .ok b
  | none => .error E.outOfRange

/-- A part of the input. -/
def slice (E : Errors ε) (data : List β) (i j : Nat) : Except ε (List β) :=
  if i ≤ j ∧ j ≤ data.length then .ok ((data.drop i).take (j - i)) else .error E.outOfRange

section Sound

variable {E : Errors ε} {whole : List β} {limit known : Nat} {f g : List β → Except ε γ}

theorem Sound.ok (a : γ) : Sound E whole limit known fun _ => .ok a :=
  fun _ _ _ => .inl ⟨rfl, nofun, nofun⟩

theorem Sound.error {e : ε} (hout : e ≠ E.outOfRange := by nofun)
    (hneeds : ∀ n, e ≠ E.needs n := by nofun) :
    Sound (γ := γ) E whole limit known fun _ => .error e :=
  fun _ _ _ => .inl ⟨rfl, fun h => hout (Except.error.inj h),
    fun n h => hneeds n (Except.error.inj h)⟩

theorem Sound.congr (h : Sound E whole limit known f) (heq : ∀ data, g data = f data) :
    Sound E whole limit known g := by
  rw [funext heq]
  exact h

theorem Sound.bind {g : γ → List β → Except ε δ} (hf : Sound E whole limit known f)
    (hg : ∀ a, f whole = .ok a → Sound E whole limit known (g a)) :
    Sound E whole limit known fun data => f data >>= fun a => g a data := by
  intro part hpart hknown
  obtain ⟨heq, hfinal⟩ | ⟨n, hneeds, hlt, hle⟩ := hf part hpart hknown
  · -- both go on with what was read, or both fail
    cases hwhole : f whole with
    | error e =>
      rw [hwhole] at heq
      have hbind : ∀ data, f data = .error e → (f data >>= fun a => g a data) = .error e :=
        fun data h => by rw [h]; rfl
      rw [heq] at hfinal
      refine .inl ⟨(hbind part heq).trans (hbind whole hwhole).symm, fun h => hfinal.1 ?_,
        fun n h => hfinal.2 n ?_⟩
      · rw [Except.error.inj ((hbind part heq).symm.trans h)]
      · rw [Except.error.inj ((hbind part heq).symm.trans h)]
    | ok a =>
      rw [hwhole] at heq
      have hbind : ∀ data, f data = .ok a → (f data >>= fun a => g a data) = g a data :=
        fun data h => by rw [h]; rfl
      have h := hg a hwhole part hpart hknown
      rwa [← hbind part heq, ← hbind whole hwhole] at h
  · exact .inr ⟨n, by simp only [hneeds]; rfl, hlt, hle⟩

theorem Sound.ite {p : Prop} [Decidable p] (hf : p → Sound E whole limit known f)
    (hg : ¬ p → Sound E whole limit known g) :
    Sound E whole limit known fun data => if p then f data else g data := by
  by_cases hp : p
  · simpa only [if_pos hp] using hf hp
  · simpa only [if_neg hp] using hg hp

/-- What is known to have arrived can be read. -/
theorem Sound.byteAt {i : Nat} (hi : i < known) :
    Sound E whole limit known fun data => byteAt E data i := by
  rintro part ⟨rest, rfl⟩ hknown
  have hlt : i < part.length := Nat.lt_of_lt_of_le hi hknown
  left
  simp only [Growing.byteAt, List.getElem?_append_left hlt, List.getElem?_eq_getElem hlt]
  exact ⟨trivial, nofun, nofun⟩

theorem Sound.slice {i j : Nat} (hij : i ≤ j) (hj : j ≤ known) :
    Sound E whole limit known fun data => slice E data i j := by
  rintro part ⟨rest, rfl⟩ hknown
  have hle : j ≤ part.length := Nat.le_trans hj hknown
  left
  have hpart : Growing.slice E part i j = .ok ((part.drop i).take (j - i)) := if_pos ⟨hij, hle⟩
  have hwhole : Growing.slice E (part ++ rest) i j = .ok (((part ++ rest).drop i).take (j - i)) :=
    if_pos ⟨hij, by simp; omega⟩
  simp only [hpart, hwhole]
  refine ⟨?_, nofun, nofun⟩
  rw [List.drop_append_of_le_length (by omega), List.take_append_of_le_length (by simp; omega)]

/-- The answer on a part that is as long as the limit is the one on the whole input. -/
theorem Sound.final (h : Sound E whole limit known f) {part : List β} (hpart : part <+: whole)
    (hknown : known ≤ part.length) (hlimit : limit ≤ part.length) :
    f part = f whole ∧ Final E (f part) := by
  obtain h | ⟨n, _, hlt, hle⟩ := h part hpart hknown
  · exact h
  · omega

end Sound

end Hako.Growing
