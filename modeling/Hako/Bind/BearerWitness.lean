import Mathlib

/-!
# The dials in flight of the bearer witness

The witness counts the dials that wait for an answer, those of a connection under its serial number
and the others together. Events of dials that tell nothing about the network are passed over, which
is decided anew for each event: a dial to a private address counts as long as the path is not
cellular. A path change clears the counters while old dials are still out.
-/

namespace Hako.Bearer

open Multiset

/-! ### Events of dials -/

/-- The kinds of dials that `observe` tells apart. -/
inductive DialKind where
  | resolver
  | probe
  /-- `witnessDialKind` -/
  | witness
  | other
deriving DecidableEq

/-- What `observe` sees in an address. -/
inductive Destination where
  /-- It does not parse, or is a loopback address or no address. -/
  | none
  /-- A private or a link-local address. -/
  | nearby
  | far
deriving DecidableEq

/-- A dial; `id` is there to tell dials apart. -/
structure Dial where
  id : Nat
  kind : DialKind
  /-- Whether the network begins with `tcp`. -/
  tcp : Bool
  destination : Destination
  connect : Nat
deriving DecidableEq

/-- `dialer.PhysicalDialEvent` -/
inductive DialEvent where
  | started
  | succeeded
  | failed
deriving DecidableEq

/-- The events at which `observe` returns at once. -/
def PassesOver (cellular : Bool) (d : Dial) (event : DialEvent) : Prop :=
  (d.kind ≠ .resolver ∧ ¬ d.tcp ∨ d.kind = .witness) ∨ (d.kind = .probe ∧ event ≠ .succeeded) ∨
    d.destination = .none ∨ (d.kind ≠ .resolver ∧ d.destination = .nearby ∧ cellular)

instance (cellular : Bool) (d : Dial) (event : DialEvent) :
    Decidable (PassesOver cellular d event) :=
  inferInstanceAs (Decidable (_ ∨ _))

/-! ### The counters -/

/-- The counters, with each serial in `pending` as often as its count, and what `pathIsCellular`
says. The last two fields are there for the statements: the dials that have started since the
counters were cleared and have not ended, those whose start was counted and the others. -/
structure BearerWitness where
  inFlight : Nat := 0
  unserialled : Nat := 0
  pending : Multiset Nat := 0
  cellular : Bool := false
  counted : Multiset Dial := 0
  uncounted : Multiset Dial := 0

def endedLocked (w : BearerWitness) (connect : Nat) (connected : Bool) : BearerWitness :=
  if connect = 0 then
    -- nothing tells whether such a dial was counted since the last path change
    { w with unserialled := w.unserialled - 1, inFlight := w.inFlight - 1 }
  else
    let left := w.pending.count connect
    if left = 0 then w -- late, or another dial of the connection has succeeded
    else if connected ∨ left ≤ 1 then
      { w with pending := w.pending.filter (· ≠ connect), inFlight := w.inFlight - left }
    else { w with pending := w.pending.erase connect, inFlight := w.inFlight - 1 }

/-- What `observe` does to the counters. -/
def observe (w : BearerWitness) (d : Dial) (event : DialEvent) : BearerWitness :=
  if PassesOver w.cellular d event then w
  else
    match event with
    | .started =>
      { w with
        inFlight := w.inFlight + 1
        unserialled := if d.connect = 0 then w.unserialled + 1 else w.unserialled
        pending := if d.connect = 0 then w.pending else d.connect ::ₘ w.pending }
    | .succeeded => if d.kind = .probe then w else endedLocked w d.connect true
    | .failed => endedLocked w d.connect false

/-- What happens to the witness. -/
inductive Event where
  | dial (d : Dial) (event : DialEvent)
  /-- `UpdateDefaultInterface` stores what `pathIsCellular` says, before it has the path changed. -/
  | published (cellular : Bool)
  /-- `pathChanged` or `reset` -/
  | cleared

/-- One event; a dial that has started is out until it ends, whether it is counted or not. -/
def exec (w : BearerWitness) : Event → BearerWitness
  | .dial d .started =>
    if PassesOver w.cellular d .started then
      { observe w d .started with uncounted := d ::ₘ w.uncounted }
    else { observe w d .started with counted := d ::ₘ w.counted }
  | .dial d event =>
    { observe w d event with
      counted := w.counted.erase d
      uncounted := if d ∈ w.counted then w.uncounted else w.uncounted.erase d }
  | .published cellular => { w with cellular := cellular }
  | .cleared => { cellular := w.cellular }

def run (w : BearerWitness) (events : List Event) : BearerWitness := events.foldl exec w

/-- The number in flight is that of the counted dials. -/
def Accounted (w : BearerWitness) : Prop := w.inFlight = w.unserialled + card w.pending

/-- The number of dials that have started since the last path change or reset and not ended. -/
def BearerWitness.out (w : BearerWitness) : Nat := card w.counted + card w.uncounted

/-- `observe` comes to `endedLocked`. -/
def ReachesEnded (cellular : Bool) (d : Dial) (event : DialEvent) : Prop :=
  event ≠ .started ∧ ¬ PassesOver cellular d event ∧ d.kind ≠ .probe

instance (cellular : Bool) (d : Dial) (event : DialEvent) :
    Decidable (ReachesEnded cellular d event) :=
  inferInstanceAs (Decidable (_ ∧ _))

/-- The end of a dial without a serial while only dials with one are counted. -/
def Stray (w : BearerWitness) (e : Event) : Prop :=
  w.unserialled = 0 ∧ 0 < w.inFlight ∧
    ∃ d event, e = .dial d event ∧ d.connect = 0 ∧ ReachesEnded w.cellular d event

/-- The end of a dial that was counted at its start and is passed over now. -/
def Missed (w : BearerWitness) (e : Event) : Prop :=
  ∃ d event, e = .dial d event ∧ event ≠ .started ∧ d ∈ w.counted ∧
    ¬ ReachesEnded w.cellular d event

/-! ### One event -/

theorem card_filter_ne (s : Multiset Nat) (c : Nat) :
    card (s.filter (· ≠ c)) + s.count c = card s := by
  rw [count_eq_card_filter_eq, ← card_add, add_comm]
  simpa [eq_comm] using congrArg card (filter_add_not (c = ·) s)

/-- The end of a dial takes `j` dials without a serial and `k` others from the counters. -/
theorem endedLocked_spec (w : BearerWitness) (c : Nat) (connected : Bool) :
    ∃ j k, (if c = 0 then j = 1 ∧ k = 0 else j = 0) ∧
      (endedLocked w c connected).inFlight = w.inFlight - (j + k) ∧
      (endedLocked w c connected).unserialled = w.unserialled - j ∧
      card (endedLocked w c connected).pending + k = card w.pending ∧
      ∀ a, (endedLocked w c connected).pending.count a ≤
        w.pending.count a - if a = c ∧ c ≠ 0 then 1 else 0 := by
  unfold endedLocked
  by_cases hc : c = 0
  · exact ⟨1, 0, by simp [hc]⟩
  simp only [if_neg hc]
  split_ifs with hnone hall
  · exact ⟨0, 0, rfl, rfl, rfl, rfl, by grind⟩
  · refine ⟨0, _, rfl, by rw [zero_add], rfl, card_filter_ne _ _, fun a => ?_⟩
    rw [count_filter]
    grind
  · refine ⟨0, 1, rfl, rfl, rfl, card_erase_add_one (count_pos.mp (by omega)), fun a => ?_⟩
    by_cases ha : a = c
    · simp [ha, hc]
    · simp [ha, count_erase_of_ne]

variable {w : BearerWitness} {d : Dial} {event : DialEvent}

theorem observe_of_reachesEnded (h : ReachesEnded w.cellular d event) :
    observe w d event = endedLocked w d.connect (event = .succeeded) := by
  obtain ⟨hstarted, hseen, hprobe⟩ := h
  cases event with
  | started => exact absurd rfl hstarted
  | succeeded => simp [observe, hseen, hprobe]
  | failed => simp [observe, hseen]

theorem observe_of_not_reachesEnded (hend : event ≠ .started)
    (h : ¬ ReachesEnded w.cellular d event) : observe w d event = w := by
  by_cases hseen : PassesOver w.cellular d event
  · exact if_pos hseen
  have hprobe : d.kind = .probe := not_not.mp fun hprobe => h ⟨hend, hseen, hprobe⟩
  cases event with
  | started => exact absurd rfl hend
  | succeeded => simp [observe, hprobe]
  | failed => exact absurd (.inr (.inl ⟨hprobe, nofun⟩)) hseen

/-- The end of a dial, without what it does to the dials that are out. -/
theorem exec_ended (hend : event ≠ .started) :
    exec w (.dial d event) = { observe w d event with
      counted := w.counted.erase d
      uncounted := if d ∈ w.counted then w.uncounted else w.uncounted.erase d } := by
  cases event with
  | started => exact absurd rfl hend
  | succeeded | failed => rfl

theorem not_stray_started : ¬ Stray w (.dial d .started) := by
  rintro ⟨-, -, _, _, he, -, hreach⟩
  cases he
  exact hreach.1 rfl

theorem accounted_exec_iff (h : Accounted w) (e : Event) :
    Accounted (exec w e) ↔ ¬ Stray w e := by
  unfold Accounted at h ⊢
  cases e with
  | dial d event =>
    by_cases hstart : event = .started
    · subst hstart
      rw [iff_true_right not_stray_started, exec]
      split_ifs with hseen
      · simpa [observe, hseen] using h
      · by_cases hc : d.connect = 0 <;> simp [observe, hseen, hc] <;> omega
    rw [exec_ended hstart]
    by_cases hreach : ReachesEnded w.cellular d event
    · obtain ⟨j, k, hj, hin, huns, hcard, -⟩ := endedLocked_spec w d.connect (event = .succeeded)
      have hstray : Stray w (.dial d event) ↔
          w.unserialled = 0 ∧ 0 < w.inFlight ∧ d.connect = 0 := by
        simp [Stray, hreach]
      simp only [hstray, observe_of_reachesEnded hreach, hin, huns]
      split_ifs at hj <;> omega
    · have hstray : ¬ Stray w (.dial d event) := by simp [Stray, hreach]
      simpa [observe_of_not_reachesEnded hstart hreach, hstray] using h
  | published cellular => simpa [Stray, exec] using h
  | cleared => simp [Stray, exec]

/-- What is counted is a part of the dials whose start was counted, and no more is in flight. -/
structure Bounded (w : BearerWitness) : Prop where
  inFlight : w.inFlight ≤ w.unserialled + card w.pending
  unserialled : w.unserialled ≤ (w.counted.map Dial.connect).count 0
  pending : ∀ c, w.pending.count c ≤ if c = 0 then 0 else (w.counted.map Dial.connect).count c

namespace Bounded

variable (h : Bounded w)
include h

theorem started (d : Dial) : Bounded (exec w (.dial d .started)) := by
  have hin := h.inFlight
  have huns := h.unserialled
  rw [exec]
  split_ifs with hseen
  · simpa only [observe, if_pos hseen] using ⟨hin, huns, h.pending⟩
  · simp only [observe, if_neg hseen]
    refine ⟨?_, ?_, fun c => ?_⟩
    · split_ifs <;> simp <;> omega
    · simp only [map_cons, count_cons]
      split_ifs <;> omega
    · have := h.pending c
      grind [map_cons, count_cons]

theorem ended (hend : event ≠ .started) (hmissed : ¬ Missed w (.dial d event)) :
    Bounded (exec w (.dial d event)) := by
  have hin := h.inFlight
  have huns := h.unserialled
  rw [exec_ended hend]
  by_cases hreach : ReachesEnded w.cellular d event
  · obtain ⟨j, k, hj, hin', huns', hcard, hcount⟩ :=
      endedLocked_spec w d.connect (event = .succeeded)
    have herase (a : Nat) : (w.counted.map Dial.connect).count a -
        (if a = d.connect then 1 else 0) ≤ ((w.counted.erase d).map Dial.connect).count a := by
      by_cases hd : d ∈ w.counted
      · rw [map_erase_of_mem _ _ hd]
        by_cases ha : a = d.connect
        · simp [ha]
        · simp [ha, count_erase_of_ne]
      · rw [erase_of_notMem hd]
        exact Nat.sub_le ..
    rw [observe_of_reachesEnded hreach]
    refine ⟨?_, le_trans ?_ (herase 0), fun c => ?_⟩
    · simp only
      omega
    · simp only [huns']
      split_ifs at * <;> omega
    · have := h.pending c
      have := herase c
      have := hcount c
      simp only at *
      split_ifs at * <;> omega
  · have hd : d ∉ w.counted := fun hd => hmissed ⟨d, event, rfl, hend, hd, hreach⟩
    rw [observe_of_not_reachesEnded hend hreach, erase_of_notMem hd]
    exact ⟨hin, huns, h.pending⟩

theorem exec (e : Event) (hmissed : ¬ Missed w e) : Bounded (exec w e) := by
  cases e with
  | dial d event =>
    by_cases hstart : event = .started
    · exact hstart ▸ h.started d
    · exact h.ended hstart hmissed
  | published cellular => exact ⟨h.inFlight, h.unserialled, h.pending⟩
  | cleared => exact ⟨le_rfl, le_rfl, by simp [Bearer.exec]⟩

theorem inFlight_le : w.inFlight ≤ w.out := by
  have hpart : w.pending ≤ (w.counted.map Dial.connect).filter (· ≠ 0) :=
    le_iff_count.mpr fun c => by
      have := h.pending c
      grind [count_filter]
  have hpending := card_le_card hpart
  have hdials := card_filter_ne (w.counted.map Dial.connect) 0
  have hcount := h.unserialled
  have hin := h.inFlight
  rw [card_map] at hdials
  rw [BearerWitness.out]
  omega

end Bounded

/-! ### Runs -/

/-- What every event keeps that meets a condition holds after every event of a run of them. -/
theorem run_take {P : BearerWitness → Prop} {C : BearerWitness → Event → Prop}
    (hstep : ∀ w e, P w → C w e → P (exec w e)) (hempty : P {}) (events : List Event)
    (hall : ∀ n e, events[n]? = some e → C (run {} (events.take n)) e) (n : Nat) :
    P (run {} (events.take n)) := by
  induction n with
  | zero => exact hempty
  | succ n ih =>
    rw [run, List.take_add_one, List.foldl_append]
    cases he : events[n]? with
    | none => exact ih
    | some e => exact hstep _ e ih (hall n e he)

/-- The number in flight is that of the counted dials after every event exactly if no dial without
a serial ends while only dials with one are counted. And it is never above the number of dials that
are out if no dial that was counted at its start is passed over at its end. -/
theorem accounted_iff (events : List Event) :
    ((∀ n, Accounted (run {} (events.take n))) ↔
        ∀ n e, events[n]? = some e → ¬ Stray (run {} (events.take n)) e) ∧
      ((∀ n e, events[n]? = some e → ¬ Missed (run {} (events.take n)) e) →
        ∀ n, (run {} (events.take n)).inFlight ≤ (run {} (events.take n)).out) := by
  refine ⟨⟨fun hall n e he => ?_, fun hall => ?_⟩, fun hall n => ?_⟩
  · have hnext := hall (n + 1)
    rw [run, List.take_add_one, he, List.foldl_append] at hnext
    exact (accounted_exec_iff (hall n) e).mp hnext
  · exact run_take (P := Accounted) (fun w e h => (accounted_exec_iff h e).mpr) rfl events hall
  · have hempty : Bounded {} := ⟨le_rfl, le_rfl, by simp⟩
    exact (run_take (P := Bounded) (fun w e h => h.exec e) hempty events hall n).inFlight_le

/-- A dial without a serial is out, the path changes, a dial with a serial starts, and the first
one fails: nothing is in flight, but one is pending. And a dial to a private address is counted,
the path becomes cellular, and its end is passed over: one is in flight, but none is out. -/
theorem ends_miscounted :
    ¬ Accounted (run {} [.dial ⟨0, .resolver, false, .far, 0⟩ .started, .cleared,
        .dial ⟨1, .other, true, .far, 5⟩ .started,
        .dial ⟨0, .resolver, false, .far, 0⟩ .failed]) ∧
      ¬ (run {} [.dial ⟨0, .other, true, .nearby, 5⟩ .started, .published true,
          .dial ⟨0, .other, true, .nearby, 5⟩ .failed]).inFlight ≤
        (run {} [.dial ⟨0, .other, true, .nearby, 5⟩ .started, .published true,
          .dial ⟨0, .other, true, .nearby, 5⟩ .failed]).out := by
  unfold Accounted
  decide

end Hako.Bearer
