import Mathlib

/-!
# Reliable links

What a protocol with sequence numbers is for: one direction of a connection, seen from above.
The sender has sent a list of messages, the receiver has delivered some of them and holds
others out of order. A protocol refines a link when each of its steps is a run of link steps.
What is known about a message in flight (which message it carries) and about an
acknowledgement (that the message has arrived) is kept by every run. The protocols are systems of
two ends, one for each direction.
-/

namespace Hako.Lib

/-! ### Sequence numbers

Fewer than `2 ^ 31` messages are numbered by 32-bit words without ambiguity, and the sign of a
difference of words tells their order. -/

variable {i j : Nat}

section

variable (hi : i < 2 ^ 31) (hj : j < 2 ^ 31)
include hi hj

theorem ofNat_inj_of_lt (h : UInt32.ofNat i = UInt32.ofNat j) : i = j := by
  have hnat := congrArg UInt32.toNat h
  rw [UInt32.toNat_ofNat', UInt32.toNat_ofNat'] at hnat
  omega

theorem ofNat_lt_ofNat_iff : UInt32.ofNat i < UInt32.ofNat j ↔ i < j := by
  rw [UInt32.lt_iff_toNat_lt, UInt32.toNat_ofNat', UInt32.toNat_ofNat']
  omega

theorem half_le_ofNat_sub_iff : 0x80000000 ≤ UInt32.ofNat i - UInt32.ofNat j ↔ i < j := by
  rw [UInt32.le_iff_toNat_le, UInt32.toNat_sub, UInt32.toNat_ofNat', UInt32.toNat_ofNat']
  change 2 ^ 31 ≤ _ ↔ _
  omega

end

theorem ofNat_succ (i : Nat) : UInt32.ofNat (i + 1) = UInt32.ofNat i + 1 := by
  rw [UInt32.ofNat_add]
  rfl

/-! ### Links -/

variable {α : Type*}

/-- One direction of a connection. -/
structure Link (α : Type*) where
  sent : List α
  delivered : List α
  /-- The numbers of the messages held out of order. -/
  held : Set Nat

namespace Link

/-- The message numbered `i` is `a`. -/
def Carries (L : Link α) (i : Nat) (a : α) : Prop := L.sent[i]? = some a

/-- The message numbered `i` has been delivered or is held. -/
def Accepted (L : Link α) (i : Nat) : Prop := i < L.delivered.length ∨ i ∈ L.held

/-- The delivered messages are the first ones sent, and only sent messages are held. -/
structure Safe (L : Link α) : Prop where
  delivered_prefix : L.delivered <+: L.sent
  held_lt : ∀ i ∈ L.held, i < L.sent.length

/-- A message is sent, arrives out of order, or is delivered as the next one. A delivered
message may stay among the held ones. -/
inductive Step : Link α → Link α → Prop
  | send (L : Link α) (a : α) : Step L { L with sent := L.sent ++ [a] }
  | hold (L : Link α) (i : Nat) : i < L.sent.length → Step L { L with held := insert i L.held }
  | deliver (L : Link α) (a : α) (held : Set Nat) :
      L.Carries L.delivered.length a → held ⊆ L.held →
      (∀ i ∈ L.held, i ∈ held ∨ i = L.delivered.length) →
      Step L { L with delivered := L.delivered ++ [a], held }

/-- The runs of a link. -/
abbrev Extends : Link α → Link α → Prop := Relation.ReflTransGen Step

variable {L L' : Link α} {i : Nat} {a : α}

theorem Carries.lt (h : L.Carries i a) : i < L.sent.length := (List.getElem?_eq_some_iff.mp h).1

theorem Safe.accepted_lt (hs : L.Safe) (h : L.Accepted i) : i < L.sent.length := by
  rcases h with h | h
  · exact Nat.lt_of_lt_of_le h hs.delivered_prefix.length_le
  · exact hs.held_lt i h

/-! ### What a step keeps -/

section

variable (h : Step L L')
include h

theorem Step.carries (hc : L.Carries i a) : L'.Carries i a := by
  cases h with
  | send b => exact (List.getElem?_append_left hc.lt).trans hc
  | hold => exact hc
  | deliver => exact hc

theorem Step.accepted (ha : L.Accepted i) : L'.Accepted i := by
  cases h with
  | send => exact ha
  | hold j => exact ha.imp_right fun hi => Set.mem_insert_of_mem j hi
  | deliver a held hc _ hheld =>
    rcases ha with ha | ha
    · exact .inl (by simp only [List.length_append]; omega)
    · rcases hheld i ha with h | rfl
      · exact .inr h
      · exact .inl (by simp)

theorem Step.delivered_length_le : L.delivered.length ≤ L'.delivered.length := by
  cases h with
  | send => exact Nat.le_refl _
  | hold => exact Nat.le_refl _
  | deliver => simp

theorem Step.safe (hs : L.Safe) : L'.Safe := by
  cases h with
  | send a =>
    refine ⟨hs.delivered_prefix.trans (List.prefix_append ..), fun i hi => ?_⟩
    have := hs.held_lt i hi
    simp only [List.length_append]
    omega
  | hold j hj =>
    refine ⟨hs.delivered_prefix, fun i hi => ?_⟩
    rcases hi with rfl | hi
    · exact hj
    · exact hs.held_lt i hi
  | deliver a held hc hsub =>
    refine ⟨?_, fun i hi => hs.held_lt i (hsub hi)⟩
    -- the delivered messages are a prefix, so the next message is the one after it
    obtain ⟨rest, hrest⟩ := hs.delivered_prefix
    rw [Carries, ← hrest, List.getElem?_append_right (Nat.le_refl _), Nat.sub_self] at hc
    cases rest with
    | nil => simp at hc
    | cons b rest =>
      obtain rfl : b = a := by simpa using hc
      exact ⟨rest, by rw [← hrest]; simp⟩

end

/-! ### What a run keeps -/

section

variable (h : Extends L L')
include h

theorem Extends.carries (hc : L.Carries i a) : L'.Carries i a := by
  induction h with
  | refl => exact hc
  | tail _ hstep ih => exact hstep.carries ih

theorem Extends.accepted (ha : L.Accepted i) : L'.Accepted i := by
  induction h with
  | refl => exact ha
  | tail _ hstep ih => exact hstep.accepted ih

theorem Extends.delivered_length_le : L.delivered.length ≤ L'.delivered.length := by
  induction h with
  | refl => exact Nat.le_refl _
  | tail _ hstep ih => exact Nat.le_trans ih hstep.delivered_length_le

theorem Extends.safe (hs : L.Safe) : L'.Safe := by
  induction h with
  | refl => exact hs
  | tail _ hstep ih => exact hstep.safe ih

end

/-! ### Numbers as 32-bit words -/

/-- A message with the word that numbers it. -/
def Numbered (L : Link α) (n : UInt32) (a : α) : Prop := ∃ i, n = UInt32.ofNat i ∧ L.Carries i a

/-- A word that numbers a message that has arrived. -/
def Acked (L : Link α) (n : UInt32) : Prop := ∃ i, n = UInt32.ofNat i ∧ L.Accepted i

theorem Numbered.mono {n : UInt32} (h : L.Numbered n a) (hL : L.Extends L') : L'.Numbered n a :=
  h.imp fun _ hi => ⟨hi.1, hL.carries hi.2⟩

theorem Acked.mono {n : UInt32} (h : L.Acked n) (hL : L.Extends L') : L'.Acked n :=
  h.imp fun _ hi => ⟨hi.1, hL.accepted hi.2⟩

/-- With fewer than `2 ^ 31` messages, a word numbers one message. -/
theorem Numbered.carries (hb : L.sent.length < 2 ^ 31) (hi : i < 2 ^ 31)
    (h : L.Numbered (UInt32.ofNat i) a) : L.Carries i a := by
  obtain ⟨j, hij, hj⟩ := h
  obtain rfl := ofNat_inj_of_lt hi (Nat.lt_trans hj.lt hb) hij
  exact hj

theorem Acked.accepted (hs : L.Safe) (hb : L.sent.length < 2 ^ 31) (hi : i < 2 ^ 31)
    (h : L.Acked (UInt32.ofNat i)) : L.Accepted i := by
  obtain ⟨j, hij, hj⟩ := h
  obtain rfl := ofNat_inj_of_lt hi (Nat.lt_trans (hs.accepted_lt hj) hb) hij
  exact hj

end Link

/-! ### Systems of two ends

Each end takes its own steps, and sees what the other one has put on the wire. -/

namespace Duplex

variable {E A W : Type*} (act : E → W → A → Option E) (wire : E → W)

/-- One step of one end. -/
def step (s : Bool → E) (side : Bool) (a : A) : Option (Bool → E) :=
  (act (s side) (wire (s !side)) a).map (Function.update s side)

/-- One end takes a step. -/
def Step (s t : Bool → E) : Prop := ∃ side a, step act wire s side a = some t

/-- A run given by the sides of its steps and what they do. -/
def run (s : Bool → E) : List (Bool × A) → Option (Bool → E)
  | [] => some s
  | (side, a) :: acts => (step act wire s side a).bind (run · acts)

variable {act wire} {s t : Bool → E}

theorem reflTransGen_of_run {acts : List (Bool × A)} (h : run act wire s acts = some t) :
    Relation.ReflTransGen (Step act wire) s t := by
  induction acts generalizing s with
  | nil =>
    obtain rfl : s = t := by simpa [run] using h
    exact .refl
  | cons act acts ih =>
    obtain ⟨u, hu, hrun⟩ := Option.bind_eq_some_iff.mp h
    exact .head ⟨act.1, act.2, hu⟩ (ih hrun)

/-- What the steps of an end keep, both ends keep. -/
theorem Step.kept {R : E → E → Prop} (h : Step act wire s t) (hrefl : ∀ e, R e e)
    (hact : ∀ {e e' w a}, act e w a = some e' → R e e') (side : Bool) : R (s side) (t side) := by
  obtain ⟨moved, a, hs⟩ := h
  obtain ⟨e, he, rfl⟩ := Option.map_eq_some_iff.mp hs
  by_cases hside : side = moved
  · rw [hside, Function.update_self]
    exact hact he
  · rw [Function.update_of_ne hside]
    exact hrefl _

/-- What holds between both ends from either side holds after a step if it does from the side that
has moved. -/
theorem Step.pair {P : Bool → E → E → Prop} (h : Step act wire s t)
    (hsymm : ∀ {side e f}, P side e f → P (!side) f e)
    (hmoved : ∀ side a, act (s side) (wire (s !side)) a = some (t side) →
      P side (t side) (s !side)) (side : Bool) : P side (t side) (t !side) := by
  obtain ⟨moved, a, hs⟩ := h
  obtain ⟨e, he, rfl⟩ := Option.map_eq_some_iff.mp hs
  have hpair := hmoved moved a (by rw [he, Function.update_self])
  have hother := Function.update_of_ne (Bool.not_ne_self moved) e s
  by_cases hside : side = moved
  · subst hside
    rw [hother]
    exact hpair
  · obtain rfl : side = !moved := by cases side <;> cases moved <;> simp_all
    rw [hother, Bool.not_not]
    exact hsymm hpair

end Duplex

end Hako.Lib
