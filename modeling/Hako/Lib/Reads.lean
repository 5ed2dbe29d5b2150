import Mathlib

/-!
# Reading a stream to its end

A reader is called with buffers of any sizes; a call gives some items of a stream, or waits. If
every call takes its items off the front of what is left, and waits only if nothing is left, then
all calls together give the stream in order, whatever the sizes.
-/

namespace Hako.Lib

variable {ρ ν I : Type*}

/-- Calls of `read` that return, with the items they give in a row. -/
inductive Reads (read : ν → ρ → Option (List I × ρ)) : ρ → List I → ρ → Prop
  | refl (r : ρ) : Reads read r [] r
  | tail {r r' r'' : ρ} {out items : List I} {n : ν} (h : Reads read r out r')
    (hread : read n r' = some (items, r'')) : Reads read r (out ++ items) r''

/-- `Left r items` says that the reader has `items` left to give, and `Room n` that a buffer has
room for one. -/
structure Serves (read : ν → ρ → Option (List I × ρ)) (Room : ν → Prop)
    (Left : ρ → List I → Prop) : Prop where
  waits : ∀ {r n}, Room n → Left r [] → read n r = none
  gives : ∀ {r items n}, Room n → Left r items → items ≠ [] → ∃ out rest r',
    read n r = some (out, r') ∧ items = out ++ rest ∧ Left r' rest ∧ out ≠ []
  idle : ∀ {r items n out r'}, ¬ Room n → Left r items → read n r = some (out, r') →
    ∃ rest, items = out ++ rest ∧ Left r' rest

namespace Serves

variable {read : ν → ρ → Option (List I × ρ)} {Room : ν → Prop} {Left : ρ → List I → Prop}
  {r r' : ρ} {items out : List I} (h : Serves read Room Left)
include h

section

variable (hleft : Left r items)
include hleft

theorem step {n : ν}
    (hread : read n r = some (out, r')) : ∃ rest, items = out ++ rest ∧ Left r' rest := by
  by_cases hroom : Room n
  · by_cases hitems : items = []
    · rw [h.waits hroom (hitems ▸ hleft)] at hread
      cases hread
    · obtain ⟨out', rest, r'', hread', hsplit, hrest, -⟩ := h.gives hroom hleft hitems
      obtain ⟨rfl, rfl⟩ := Prod.mk.inj (Option.some.inj (hread'.symm.trans hread))
      exact ⟨rest, hsplit, hrest⟩
  · exact h.idle hroom hleft hread

/-- What the calls gave and what is left make up the stream. -/
theorem reads (hreads : Reads read r out r') : ∃ rest, items = out ++ rest ∧ Left r' rest := by
  induction hreads with
  | refl => exact ⟨items, rfl, hleft⟩
  | tail _ hread ih =>
    obtain ⟨rest, hsplit, hrest⟩ := ih
    obtain ⟨rest', rfl, hrest'⟩ := h.step hrest hread
    exact ⟨rest', by rw [hsplit, List.append_assoc], hrest'⟩

/-- What the calls gave is the start of the stream, a call with room for an item gives one, and it
waits exactly if the stream was given to its end. -/
theorem exact (hreads : Reads read r out r') :
    out <+: items ∧ ∀ n, Room n → (read n r' = none ↔ out = items) ∧
      ∀ more r'', read n r' = some (more, r'') → more ≠ [] := by
  obtain ⟨rest, hsplit, hrest⟩ := h.reads hleft hreads
  refine ⟨⟨rest, hsplit.symm⟩, fun n hroom => ?_⟩
  by_cases hend : rest = []
  · subst hend
    have hwaits := h.waits hroom hrest
    refine ⟨⟨fun _ => ?_, fun _ => hwaits⟩, fun more r'' hread => ?_⟩
    · rw [hsplit, List.append_nil]
    · rw [hwaits] at hread
      cases hread
  · obtain ⟨more, rest', r'', hread, -, -, hne⟩ := h.gives hroom hrest hend
    refine ⟨⟨fun hwaits => ?_, fun hout => ?_⟩, fun more' _ hread' => ?_⟩
    · rw [hread] at hwaits
      cases hwaits
    · rw [hout] at hsplit
      exact absurd (List.self_eq_append_right.mp hsplit) hend
    · rw [hread] at hread'
      cases hread'
      exact hne

end

/-- Calls with room for an item come to the end of the stream. -/
theorem complete {n : ν} (hroom : Room n) (hleft : Left r' items)
    (hreads : Reads read r out r') : ∃ r'', Reads read r (out ++ items) r'' := by
  induction hlen : items.length using Nat.strong_induction_on generalizing items out r' with
  | h length ih =>
    by_cases hitems : items = []
    · subst hitems
      exact ⟨r', by rwa [List.append_nil]⟩
    · obtain ⟨more, rest, r'', hread, rfl, hrest, hne⟩ := h.gives hroom hleft hitems
      have hshort : rest.length < length := by
        rw [← hlen, List.length_append]
        exact Nat.lt_add_of_pos_left (List.length_pos_iff.mpr hne)
      obtain ⟨last, hlast⟩ := ih rest.length hshort hrest (hreads.tail hread) rfl
      exact ⟨last, by rwa [← List.append_assoc]⟩

end Serves

end Hako.Lib
