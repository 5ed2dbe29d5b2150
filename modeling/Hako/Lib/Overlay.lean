import Mathlib

/-!
# Overlays over a log of pending writes

A store that writes behind holds three things: the contents `base` it has already written,
the log of writes still `pending`, and an overlay from keys to the last value written, each
with the number of that write. `direct` is what the store would hold had every write been
made at once. An overlay entry can be dropped as soon as the write it stands for has become
part of `base`. What an observer reads is judged against the states of a run, so a run comes with
the list of the states it visits.
-/

namespace Hako.Lib

open List Option

variable {Op K V : Type*}

/-- The contents written, the writes pending, and the contents had they been made. -/
structure Log (Op K V : Type*) where
  seq : Nat
  base : K → V
  pending : List Op
  direct : K → V

namespace Log

variable (exec : (K → V) → Op → Option (K → V))

/-- The contents after some writes. -/
def replay (b : K → V) (ops : List Op) : Option (K → V) := ops.foldlM exec b

variable {L : Log Op K V} {Q : (K → V) → Prop}

theorem replay_append (b : K → V) (ops ops' : List Op) :
    replay exec b (ops ++ ops') = (replay exec b ops).bind fun b' => replay exec b' ops' :=
  foldlM_append

theorem replay_concat (b : K → V) (ops : List Op) (op : Op) :
    replay exec b (ops ++ [op]) = (replay exec b ops).bind fun b' => exec b' op := by
  rw [replay_append]
  congr 1
  funext b'
  simp [replay]

/-- The pending writes lead from the contents written to the direct ones. -/
structure WF (L : Log Op K V) : Prop where
  replay : replay exec L.base L.pending = some L.direct
  length_le : L.pending.length ≤ L.seq

/-- The log after one more write. -/
def write (L : Log Op K V) (op : Op) (d : K → V) : Log Op K V :=
  { L with seq := L.seq + 1, pending := L.pending ++ [op], direct := d }

variable {exec} {op : Op} {d b : K → V} {ops rest : List Op}

theorem WF.write (h : L.WF exec) (hd : exec L.direct op = some d) : (L.write op d).WF exec := by
  refine ⟨?_, ?_⟩
  · rw [Log.write, replay_concat, h.replay]
    exact hd
  · have := h.length_le
    simp only [Log.write, length_append, length_singleton]
    omega

/-- A first part `ops` of the log becomes part of the contents. -/
theorem WF.absorb (h : L.WF exec) (hp : L.pending = ops ++ rest)
    (hb : Log.replay exec L.base ops = some b) :
    ({ L with base := b, pending := rest } : Log Op K V).WF exec := by
  refine ⟨?_, ?_⟩
  · have := h.replay
    rw [hp, replay_append, hb] at this
    exact this
  · have := h.length_le
    rw [hp, length_append] at this
    simp only
    omega

variable (exec)

/-- `Q` holds of every contents on the way from `base` to `direct`. -/
def Held (Q : (K → V) → Prop) (L : Log Op K V) : Prop :=
  ∀ l, l <+: L.pending → ∀ b, replay exec L.base l = some b → Q b

variable {exec}

theorem Held.base (h : L.Held exec Q) : Q L.base := h [] nil_prefix _ rfl

theorem Held.write (hL : L.WF exec) (h : L.Held exec Q)
    (hd : exec L.direct op = some d) (hQ : Q d) : (L.write op d).Held exec Q := by
  intro l hl b hb
  rcases prefix_concat_iff.mp hl with rfl | hl
  · have := (hL.write hd).replay
    rw [Log.write] at this
    exact some.inj (hb.symm.trans this) ▸ hQ
  · exact h l hl b hb

theorem Held.absorb (h : L.Held exec Q)
    (hp : L.pending = ops ++ rest) (hb : replay exec L.base ops = some b) :
    ({ L with base := b, pending := rest } : Log Op K V).Held exec Q := by
  intro l hl c hc
  refine h (ops ++ l) ?_ c ?_
  · rw [hp]
    exact (prefix_append_right_inj ops).mpr hl
  · rw [replay_append, hb]
    exact hc

end Log

/-! ### Overlay entries -/

variable (exec : (K → V) → Op → Option (K → V))

/-- The number of the write an overlay entry stands for; zero without an entry. -/
def entrySeq (e : Option (V × Nat)) : Nat := e.elim 0 Prod.snd

/-- What an overlay entry says about a key: the entry is the direct value, and the contents
have that value as soon as they include the write of the entry. -/
structure Tracks (L : Log Op K V) (key : K) (e : Option (V × Nat)) : Prop where
  sound : ∀ v n, e = some (v, n) → L.direct key = v
  settled : ∀ l, l <+: L.pending → ∀ b, Log.replay exec L.base l = some b →
    entrySeq e + L.pending.length ≤ L.seq + l.length → b key = L.direct key

namespace Tracks

variable {exec} {L : Log Op K V} {key : K} {e : Option (V × Nat)} {op : Op} {d : K → V}

/-- Without an entry the contents written so far hold the direct value. -/
theorem base_eq (h : Tracks exec L key none) (hL : L.WF exec) : L.base key = L.direct key := by
  refine h.settled [] nil_prefix _ rfl ?_
  have := hL.length_le
  simpa [entrySeq] using this

/-- Without an entry every contents on the way to the direct ones holds the direct value. -/
theorem held (h : Tracks exec L key none) (hL : L.WF exec) :
    L.Held exec fun b => b key = L.direct key := by
  intro l hl b hb
  refine h.settled l hl b hb ?_
  have := hL.length_le
  simp only [entrySeq, elim_none]
  omega

/-- A log without pending writes. -/
theorem start {seq : Nat} {b : K → V} : Tracks exec ⟨seq, b, [], b⟩ key none where
  sound := nofun
  settled l hl c hc _ := by
    obtain rfl := prefix_nil.mp hl
    obtain rfl := some.inj hc
    rfl

section

variable (h : Tracks exec L key e)
include h

/-- After a write to another key. -/
theorem write_other (hL : L.WF exec) (hd : exec L.direct op = some d)
    (hkey : d key = L.direct key) : Tracks exec (L.write op d) key e where
  sound v n he := hkey.trans (h.sound v n he)
  settled l hl b hb hn := by
    rcases prefix_concat_iff.mp hl with rfl | hl
    · exact congrFun (some.inj (hb.symm.trans (hL.write hd).replay)) key
    · refine (h.settled l hl b hb ?_).trans hkey.symm
      simp only [Log.write, length_append, length_singleton] at hn
      omega

omit h in
/-- After a write to the key itself, which gets the number of that write. -/
theorem write_self (hL : L.WF exec) (hd : exec L.direct op = some d) :
    Tracks exec (L.write op d) key (some (d key, L.seq + 1)) where
  sound v n he := congrArg Prod.fst (some.inj he)
  settled l hl b hb hn := by
    rcases prefix_concat_iff.mp hl with rfl | hl
    · exact congrFun (some.inj (hb.symm.trans (hL.write hd).replay)) key
    · -- a shorter log does not include the write yet
      have := hl.length_le
      simp only [Log.write, entrySeq, elim_some, length_append, length_singleton] at hn
      omega

/-- After a write that leaves the entry of a key it does not change, and otherwise notes the
new value under its own number. -/
theorem write (hL : L.WF exec) {e' : Option (V × Nat)} (hd : exec L.direct op = some d)
    (hnote : (e' = e ∧ d key = L.direct key) ∨ e' = some (d key, L.seq + 1)) :
    Tracks exec (L.write op d) key e' := by
  rcases hnote with ⟨rfl, hkey⟩ | rfl
  · exact h.write_other hL hd hkey
  · exact write_self hL hd

/-- A first part of the log becomes part of the contents. -/
theorem absorb {ops rest : List Op} {b : K → V}
    (hp : L.pending = ops ++ rest) (hb : Log.replay exec L.base ops = some b) :
    Tracks exec { L with base := b, pending := rest } key e where
  sound := h.sound
  settled l hl c hc hn := by
    refine h.settled (ops ++ l) ?_ c ?_ ?_
    · rw [hp]
      exact (prefix_append_right_inj ops).mpr hl
    · rw [Log.replay_append, hb]
      exact hc
    · rw [hp, length_append, length_append]
      simp only at hn
      omega

end

/-- An entry whose write is part of the contents can be dropped. -/
theorem drop {v : V} {n : Nat} (h : Tracks exec L key (some (v, n)))
    (hn : n + L.pending.length ≤ L.seq) : Tracks exec L key none where
  sound := nofun
  settled l hl b hb _ := by
    refine h.settled l hl b hb ?_
    simp only [entrySeq, elim_some]
    omega

end Tracks

/-! ### Runs and the states they visit -/

variable {σ : Type*} {step : σ → σ → Prop}

/-- A run and the states it visits. -/
inductive Visits (step : σ → σ → Prop) : σ → List σ → σ → Prop
  | refl (s : σ) : Visits step s [s] s
  | tail {s t u : σ} {l : List σ} : Visits step s l t → step t u → Visits step s (l ++ [u]) u

namespace Visits

theorem first_mem {s t : σ} {l : List σ} (h : Visits step s l t) : s ∈ l := by
  induction h with
  | refl => exact List.mem_singleton_self _
  | tail _ _ ih => exact List.mem_append_left _ ih

end Visits

end Hako.Lib
