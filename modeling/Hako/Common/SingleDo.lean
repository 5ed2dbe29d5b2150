import Mathlib

/-!
# Calls that share one result

`Single.Do` runs its function, or waits for a function that is running already, or takes a result
that is younger than `wait`. `Reset` forgets the result, and disowns the function that runs: its
waiters still get what it returns, but nobody who comes later does.

A call is made in one section of the mutex, and its function starts some time after. So two
functions can start after a `Reset` and run together, if one is for a call made before it.
-/

namespace Hako.Common.Single

open Function

/-- Where a `Do` stands: it waits for the call of another, or has taken that one's result, or has
made a call of its own. A function remembers how many resets there were when it started. -/
inductive Place (T E : Type)
  | away
  | entered
  | waiting (callM : Nat)
  | shared (val : T) (err : Option E)
  | made
  | running (started : Nat)
  | done (started : Nat) (val : T) (err : Option E) (returned : Bool)

/-- A `Do` with its call. `arrived` and `made` count the resets before it came and before it made
its call, `looked` and `recorded` the sections of `Do` before these, with the time of the latter. -/
structure Caller (T E : Type) where
  arrived : Nat
  made : Nat
  looked : Nat
  place : Place T E
  recorded : Option (Nat × Int)

structure Result (T E : Type) where
  val : T
  err : Option E
  time : Int

/-- `Single` with its callers. A call is known by the `Do` that made it. -/
structure State (T E : Type) where
  call : Option Nat
  result : Option (Result T E)
  callers : Nat → Caller T E
  resets : Nat
  sections : Nat
  now : Int

variable {T E : Type}

def State.init (now : Int) : State T E := ⟨none, none, fun _ => ⟨0, 0, 0, .away, none⟩, 0, 0, now⟩

def State.put (s : State T E) (d : Nat) (x : Caller T E) : State T E :=
  { s with callers := Function.update s.callers d x }

def State.move (s : State T E) (d : Nat) (place : Place T E) : State T E :=
  s.put d { s.callers d with place := place }

/-- The first section of `Do`. -/
def State.look (s : State T E) (wait : Int) (d : Nat) : State T E :=
  let x := { s.callers d with looked := s.sections, made := s.resets }
  match s.result.filter fun r => s.now - r.time < wait with
  | some r => { s with sections := s.sections + 1 }.put d { x with place := .shared r.val r.err }
  | none =>
    match s.call with
    | some callM =>
      { s with result := none, sections := s.sections + 1 }.put d { x with place := .waiting callM }
    | none =>
      { s with call := some d, result := none, sections := s.sections + 1 }.put d
        { x with place := .made }

/-- The second section of `Do`, with the return. -/
def State.record (s : State T E) (d started : Nat) (val : T) (err : Option E) : State T E :=
  let x := { s.callers d with place := .done started val err true }
  if s.call = some d then
    { s with
      call := none, result := some ⟨val, err, s.now⟩, sections := s.sections + 1 }.put d
        { x with recorded := some (s.sections, s.now) }
  else s.put d x

/-- `Reset` -/
def State.reset (s : State T E) : State T E :=
  { s with call := none, result := none, resets := s.resets + 1 }

/-- One goroutine goes on, or time passes. -/
inductive Step (wait : Int) (s : State T E) : State T E → Prop
  | arrive {d : Nat} (h : (s.callers d).place = .away) :
      Step wait s (s.put d ⟨s.resets, 0, 0, .entered, none⟩)
  | look {d : Nat} (h : (s.callers d).place = .entered) : Step wait s (s.look wait d)
  | start {d : Nat} (h : (s.callers d).place = .made) : Step wait s (s.move d (.running s.resets))
  | finish {d started : Nat} (val : T) (err : Option E)
      (h : (s.callers d).place = .running started) :
      Step wait s (s.move d (.done started val err false))
  | record {d started : Nat} {val : T} {err : Option E}
      (h : (s.callers d).place = .done started val err false) :
      Step wait s (s.record d started val err)
  | wake {d c started : Nat} {val : T} {err : Option E} {returned : Bool}
      (h : (s.callers d).place = .waiting c)
      (hc : (s.callers c).place = .done started val err returned) :
      Step wait s (s.move d (.shared val err))
  | reset : Step wait s s.reset
  | tick (n : Nat) : Step wait s { s with now := s.now + n }

inductive Reachable (wait : Int) : State T E → Prop
  | init (now : Int) : Reachable wait (.init now)
  | step {s s' : State T E} (h : Reachable wait s) (hs : Step wait s s') : Reachable wait s'

/-! ### What is claimed of a `Do` -/

/-- The next step of the `Do` is to return this. -/
inductive Returns (wait : Int) (s : State T E) (d : Nat) : T → Option E → Prop
  | look {r : Result T E} (h : (s.callers d).place = .entered) (hr : s.result = some r)
      (hwait : s.now - r.time < wait) : Returns wait s d r.val r.err
  | wake {c started : Nat} {val : T} {err : Option E} {returned : Bool}
      (h : (s.callers d).place = .waiting c)
      (hc : (s.callers c).place = .done started val err returned) : Returns wait s d val err
  | record {started : Nat} {val : T} {err : Option E}
      (h : (s.callers d).place = .done started val err false) : Returns wait s d val err

/-- The result is that of a function that did not start before a reset that the `Do` came after.
The function is its own, or was not recorded when the `Do` looked, or it looks now and the
function was recorded less than `wait` before. -/
def Served (wait : Int) (s : State T E) (d : Nat) (val : T) (err : Option E) : Prop :=
  ∃ c started returned, (s.callers c).place = .done started val err returned ∧
    (s.callers d).arrived ≤ started ∧
    (c = d ∨ (∀ n t, (s.callers c).recorded = some (n, t) → (s.callers d).looked < n) ∨
      (s.callers d).place = .entered ∧
        ∃ n t, (s.callers c).recorded = some (n, t) ∧ s.now - t < wait)

def Caller.Running (x : Caller T E) : Prop := ∃ started, x.place = .running started

/-! ### The invariant -/

/-- The function has not returned yet. -/
def Caller.Open (x : Caller T E) : Prop := x.place = .made ∨ x.Running

def Caller.Leads (x : Caller T E) : Prop :=
  x.Open ∨ ∃ started val err returned, x.place = .done started val err returned

/-- What is known of a `Do` after so many resets and sections. -/
structure Caller.Wf (resets sections : Nat) (x : Caller T E) : Prop where
  entered : x.place = .entered → x.arrived ≤ resets
  made : x.place ≠ .entered → x.place ≠ .away → x.arrived ≤ x.made ∧ x.looked < sections
  le : x.made ≤ resets
  running : ∀ started, x.place = .running started → x.made ≤ started ∧ started ≤ resets
  done : ∀ started val err returned, x.place = .done started val err returned →
    x.made ≤ started ∧ started ≤ resets
  recorded : x.recorded ≠ none → ∃ started val err returned,
    x.place = .done started val err returned

structure Inv (s : State T E) : Prop where
  wf : ∀ c, (s.callers c).Wf s.resets s.sections
  /-- The call that is not disowned is the one made since the last reset and not recorded. -/
  call : ∀ c, s.call = some c ↔ (s.callers c).Leads ∧ (s.callers c).made = s.resets ∧
    (s.callers c).recorded = none
  result : ∀ r, s.result = some r → ∃ c n returned,
    (s.callers c).place = .done s.resets r.val r.err returned ∧
    (s.callers c).recorded = some (n, r.time)
  single : ∀ c c', (s.callers c).made = (s.callers c').made → (s.callers c).Open →
    (s.callers c').Open → c = c'
  waiting : ∀ d c, (s.callers d).place = .waiting c → (s.callers c).Leads ∧
    (s.callers d).arrived ≤ (s.callers c).made ∧
    ∀ n t, (s.callers c).recorded = some (n, t) → (s.callers d).looked < n

variable {wait : Int} {s s' : State T E}

attribute [local grind] Caller.Leads Caller.Open Caller.Running

theorem Caller.Wf.mono {x : Caller T E} {resets resets' sections sections' : Nat}
    (h : x.Wf resets sections) (hr : resets ≤ resets') (hs : sections ≤ sections') :
    x.Wf resets' sections' := by
  constructor <;> grind [Caller.Wf]

variable {d : Nat}

theorem wf_update {resets sections : Nat} {y : Caller T E} (hy : y.Wf resets sections)
    (h : ∀ c, (s.callers c).Wf resets sections) (c : Nat) :
    (if c = d then y else s.callers c).Wf resets sections := by
  split
  · exact hy
  · exact h c

/-- A function starts, or returns. -/
theorem Inv.move (h : Inv s) {place : Place T E} (hopen : (s.callers d).Open)
    (hwf : Caller.Wf s.resets s.sections { s.callers d with place := place })
    (hleads : Caller.Leads { s.callers d with place := place }) : Inv (s.move d place) := by
  obtain ⟨wf, call, result, single, waiting⟩ := h
  constructor <;> simp only [State.move, State.put, update_apply] <;> grind

theorem Inv.look (h : Inv s) (hd : (s.callers d).place = .entered) : Inv (s.look wait d) := by
  obtain ⟨wf, call, result, single, waiting⟩ := h
  have hmono := fun c => (wf c).mono (le_refl _) (Nat.le_succ s.sections)
  have hwf : ∀ place : Place T E,
      (∀ started val err returned, place ≠ .done started val err returned) →
      (∀ started, place ≠ .running started) → Caller.Wf s.resets (s.sections + 1)
      ⟨(s.callers d).arrived, s.resets, s.sections, place, (s.callers d).recorded⟩ := by
    intro place hdone hrunning
    have := wf d
    constructor <;> grind [Caller.Wf]
  have harrived := (wf d).entered hd
  rw [State.look]
  cases hfresh : s.result.filter fun r => s.now - r.time < wait with
  | some r =>
    constructor <;> simp only [State.put, update_apply]
    · exact wf_update (hwf _ nofun nofun) hmono
    all_goals grind
  | none =>
    cases hcall : s.call with
    | some callM =>
      -- the call that it waits for is not recorded, and was made since the last reset
      have hcallM := (call callM).mp hcall
      constructor <;> simp only [State.put, update_apply]
      · exact wf_update (hwf _ nofun nofun) hmono
      all_goals grind
    | none =>
      -- no function of a call made since the last reset is open: it would be `s.call`
      have hclosed : ∀ c, (s.callers c).made = s.resets → ¬ (s.callers c).Open := by
        intro c hmade hopen
        have := (wf c).recorded
        grind
      constructor <;> simp only [State.put, update_apply]
      · exact wf_update (hwf _ nofun nofun) hmono
      · have := (wf d).recorded
        grind
      all_goals grind

theorem Inv.record (h : Inv s) {started : Nat} {val : T} {err : Option E}
    (hd : (s.callers d).place = .done started val err false) :
    Inv (s.record d started val err) := by
  obtain ⟨wf, call, result, single, waiting⟩ := h
  have hwf : ∀ recorded, Caller.Wf s.resets s.sections ⟨(s.callers d).arrived, (s.callers d).made,
      (s.callers d).looked, .done started val err true, recorded⟩ := by
    intro recorded
    have := wf d
    constructor <;> grind [Caller.Wf]
  rw [State.record]
  split
  case isTrue hcall =>
    -- not disowned: the function started since the last reset
    have hstarted : started = s.resets := by
      have := (wf d).done _ _ _ _ hd
      grind
    have hlooked : ∀ c, (s.callers c).place = .waiting d → (s.callers c).looked < s.sections :=
      fun c hc => ((wf c).made (by rw [hc]; nofun) (by rw [hc]; nofun)).2
    constructor <;> simp only [State.put, update_apply]
    · exact fun c => (wf_update (hwf _) wf c).mono (le_refl _) (Nat.le_succ _)
    · grind
    · exact fun r hr => ⟨d, s.sections, true, by grind⟩
    · grind
    · grind
  case isFalse =>
    constructor <;> simp only [State.put, update_apply]
    · exact wf_update (hwf _) wf
    all_goals grind

theorem Inv.step (h : Inv s) (hs : Step wait s s') : Inv s' := by
  have hwf := h.wf
  cases hs with
  | look hd => exact h.look hd
  | record hd => exact h.record hd
  | @start d hd =>
    refine h.move (.inl hd) ?_ (.inl (.inr ⟨_, rfl⟩))
    have := hwf d
    constructor <;> grind [Caller.Wf]
  | @finish d started val err hd =>
    refine h.move (.inr ⟨_, hd⟩) ?_ (.inr ⟨_, _, _, _, rfl⟩)
    have := hwf d
    constructor <;> grind [Caller.Wf]
  | @arrive d hd =>
    obtain ⟨wf, call, result, single, waiting⟩ := h
    constructor <;> simp only [State.put, update_apply]
    · exact wf_update (by constructor <;> grind) wf
    · grind [Caller.Wf]
    all_goals grind
  | @wake d c started val err returned hd hc =>
    obtain ⟨wf, call, result, single, waiting⟩ := h
    have hleads : ¬ (s.callers d).Leads := by grind
    constructor <;> simp only [State.move, State.put, update_apply]
    · have := wf d
      exact wf_update (by constructor <;> grind [Caller.Wf]) wf
    all_goals grind
  | reset =>
    obtain ⟨wf, call, result, single, waiting⟩ := h
    refine ⟨fun c => (wf c).mono (Nat.le_succ _) (le_refl _), fun c => ?_, nofun, single, waiting⟩
    have := (wf c).le
    grind [State.reset]
  | tick n => exact { h with }

theorem Reachable.inv (h : Reachable wait s) : Inv s := by
  induction h with
  | init now =>
    have hwf : Caller.Wf 0 0 (⟨0, 0, 0, .away, none⟩ : Caller T E) := by constructor <;> grind
    constructor <;> simp only [State.init] <;> grind
  | step _ hs ih => exact ih.step hs

/-- Whenever a `Do` returns, it is served as it should be. Of the functions whose calls were made
between two resets, one runs at a time. -/
theorem served_and_single (h : Reachable wait s) :
    (∀ d val err, Returns wait s d val err → Served wait s d val err) ∧
    ∀ c c', (s.callers c).made = (s.callers c').made → (s.callers c).Running →
      (s.callers c').Running → c = c' := by
  have hinv := h.inv
  refine ⟨fun d val err hret => ?_, fun c c' hmade hc hc' =>
    hinv.single c c' hmade (.inr hc) (.inr hc')⟩
  cases hret with
  | look hd hr hwait =>
    obtain ⟨c, n, returned, hdone, hrec⟩ := hinv.result _ hr
    exact ⟨c, _, returned, hdone, (hinv.wf d).entered hd, .inr (.inr ⟨hd, n, _, hrec, hwait⟩)⟩
  | @wake c started _ _ returned hd hc =>
    obtain ⟨-, harrived, hlooked⟩ := hinv.waiting d c hd
    have hmade := ((hinv.wf c).done _ _ _ _ hc).1
    exact ⟨c, started, returned, hc, le_trans harrived hmade, .inr (.inl hlooked)⟩
  | @record started _ _ hd =>
    have harrived := ((hinv.wf d).made (by rw [hd]; nofun) (by rw [hd]; nofun)).1
    have hmade := ((hinv.wf d).done _ _ _ _ hd).1
    exact ⟨d, started, false, hd, le_trans harrived hmade, .inl rfl⟩

/-- Two functions start after the first reset and run together, one for a call made before. -/
theorem disowned_runs_beside : ∃ s : State Unit Unit, Reachable 1 s ∧ s.resets = 1 ∧
    (s.callers 0).place = .running 1 ∧ (s.callers 1).place = .running 1 := by
  have h₀ : Reachable 1 (State.init 0 : State Unit Unit) := .init 0
  have h₁ := (h₀.step (.arrive (d := 0) rfl)).step (.look (d := 0) rfl)
  have h₂ := (h₁.step .reset).step (.arrive (d := 1) rfl)
  have h₃ := (h₂.step (.look (d := 1) rfl)).step (.start (d := 1) rfl)
  exact ⟨_, h₃.step (.start (d := 0) rfl), rfl, rfl, rfl⟩

/-- A second caller gets what the function of the first returns, also after a `Reset`. -/
theorem second_served : ∃ s : State Nat Unit, Reachable 1 s ∧ Served 1 s 1 7 none := by
  have h₀ : Reachable 1 (State.init 0 : State Nat Unit) := .init 0
  have h₁ := (h₀.step (.arrive (d := 0) rfl)).step (.look (d := 0) rfl)
  have h₂ := (h₁.step (.arrive (d := 1) rfl)).step (.look (d := 1) rfl)
  have h₃ := ((h₂.step .reset).step (.start (d := 0) rfl)).step (.finish (d := 0) 7 none rfl)
  exact ⟨_, h₃, (served_and_single h₃).1 1 7 none (.wake (c := 0) rfl rfl)⟩

end Hako.Common.Single
