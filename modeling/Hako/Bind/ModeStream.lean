import Hako.GoLib.Utf8
import Hako.Lib.Threads

/-!
# The stream of runtime switches

Whoever changes the mode, the LAN switch or a selection publishes the switches afterwards.
Publications are muted while a configuration is parsed, since a parse writes the mode and restores
it; when the last parse ends, they are made good if more were muted than the parses have made
themselves.
-/

namespace Hako.ModeStream

open GoLib Threads List Multiset Nat

inductive Mode where
  | global
  | rule
  | direct
deriving DecidableEq

/-- `runtimeSwitches` -/
structure Switches where
  mode : Mode
  allowLan : Bool
  selected : GoString → Option GoString

/-- What a changer stores. -/
inductive Change where
  | mode (mode : Mode)
  | allowLan (allow : Bool)
  | select (group proxy : GoString)

def Switches.apply (s : Switches) : Change → Switches
  | .mode mode => { s with mode := mode }
  | .allowLan allow => { s with allowLan := allow }
  | .select group proxy => { s with selected := Function.update s.selected group (some proxy) }

/-- The last value put into a stream, and the snapshot that was sent before the stream is read. -/
structure Subscriber where
  id : Nat
  last : Option Switches
  snapshot : Option Switches

def Subscriber.shown (s : Subscriber) : Option Switches := s.last.or s.snapshot

/-- The switches, the parse window and the subscribers. Two fields are there for the statements
only: the publications that have passed the window and not ended, and the mode that a parse has
found and will restore. -/
structure Streams where
  current : Switches
  inFlight : Nat
  parses : Nat
  muted : Nat
  next : Nat
  streams : List Subscriber
  publishing : Nat
  held : Option Mode

/-- The atomic sections, with what each of them has still to do. -/
inductive Op where
  /-- A changer stores a value, and then publishes. -/
  | store (change : Change)
  /-- The section of `publishRuntimeSwitches` on the parse window. -/
  | publish
  /-- `currentRuntimeSwitches` in a publication. -/
  | read
  /-- The section on the subscribers. -/
  | put (switches : Switches)
  /-- The section of `subscribeRuntimeSwitches`. -/
  | subscribe
  /-- `currentRuntimeSwitches` for a new subscriber. -/
  | snapshot (id : Nat)
  /-- The stream of a subscriber is released. -/
  | release (id : Nat)
  /-- The window is opened for a parse; one that fails early never writes the mode. -/
  | enter (temporary : Option Mode)
  /-- `temporaryUpdateGeneral` looks at the mode. -/
  | save (temporary : Mode)
  /-- It writes the mode of the configuration, -/
  | write (temporary found : Mode)
  /-- which is published. -/
  | notify (found : Mode)
  /-- The rollback writes the mode that was found, -/
  | restore (found : Mode)
  /-- which is published too. -/
  | notified
  /-- The window is closed for a parse. -/
  | leave

def parserModeWritesPerParse : Nat := 2

namespace Streams

/-- `publishRuntimeSwitches` as far as the parse window. -/
def publish (st : Streams) : Streams × List Op :=
  if 0 < st.inFlight then ({ st with muted := st.muted + 1 }, [])
  else ({ st with publishing := st.publishing + 1 }, [.read])

/-- The deferred function of `insideParseWindow`. -/
def leave (st : Streams) : Streams × List Op :=
  let st := { st with inFlight := st.inFlight - 1 }
  if st.inFlight = 0 then
    ({ st with parses := 0, muted := 0 },
      if st.parses * parserModeWritesPerParse < st.muted then [.publish] else [])
  else (st, [])

end Streams

def exec : Op → Streams → Streams × List Op
  | .store change, st => ({ st with current := st.current.apply change }, [.publish])
  | .publish, st => st.publish
  | .read, st => (st, [.put st.current])
  | .put switches, st =>
    ({ st with
        streams := st.streams.map fun s => { s with last := some switches }
        publishing := st.publishing - 1 }, [])
  | .subscribe, st =>
    ({ st with next := st.next + 1, streams := st.streams ++ [⟨st.next, none, none⟩] },
      [.snapshot st.next])
  | .snapshot id, st =>
    ({ st with streams := st.streams.map fun s =>
        if s.id = id then { s with snapshot := some st.current } else s }, [])
  | .release id, st => ({ st with streams := st.streams.filter (·.id ≠ id) }, [])
  | .enter temporary, st =>
    ({ st with inFlight := st.inFlight + 1, parses := st.parses + 1 },
      match temporary with
      | some temporary => [.save temporary]
      | none => [.leave])
  | .save temporary, st => (st, [.write temporary st.current.mode])
  | .write temporary found, st =>
    ({ st with current := { st.current with mode := temporary }, held := some found },
      [.notify found])
  | .notify found, st => (st.publish.1, st.publish.2 ++ [.restore found])
  | .restore found, st =>
    ({ st with current := { st.current with mode := found }, held := none }, [.notified])
  | .notified, st => (st.publish.1, st.publish.2 ++ [.leave])
  | .leave, st => st.leave

/-- Changes, subscriptions, releases and parses may start at any time. -/
def system : System Streams Unit Unit Op where
  exec _ := exec
  Starts _ _ t := (∃ change, t.ops = [.store change]) ∨ t.ops = [.subscribe] ∨
    (∃ id, t.ops = [.release id]) ∨ ∃ temporary, t.ops = [.enter temporary]

def start (current : Switches) : Streams := ⟨current, 0, 0, 0, 0, [], 0, none⟩

/-- Every subscriber has been given the current switches last. -/
def Converged (st : Streams) : Prop := ∀ s ∈ st.streams, s.shown = some st.current

/-- No switch is stored while a publication is under way; a parse comes alone and gets as far as
its mode writes; and no subscriber takes its snapshot while one is in flight. A parse that fails
before its mode writes is left out also where it mutes no switch. -/
def Orderly (st : Streams) : Op → Prop
  | .store _ | .write _ _ | .restore _ => st.publishing = 0
  | .enter temporary => st.inFlight = 0 ∧ temporary.isSome
  | .snapshot _ => st.inFlight = 0
  | _ => True

/-! ### What is still to come -/

/-- The sections of a parse inside its window. -/
def Op.inWindow : Op → Bool
  | .save _ | .write _ _ | .notify _ | .restore _ | .notified | .leave => true
  | _ => false

/-- The publications that a parse will still make. -/
def Op.remaining : Op → Nat
  | .save _ | .write _ _ | .notify _ => 2
  | .restore _ | .notified => 1
  | _ => 0

def Op.publishing : Op → Bool
  | .read | .put _ => true
  | _ => false

def remaining (m : Multiset Op) : Nat := (m.map Op.remaining).sum

/-- The switches as they will be once a parse has restored the mode. -/
def Streams.expected (st : Streams) : Switches :=
  match st.held with
  | some found => { st.current with mode := found }
  | none => st.current

/-- A publication is still to be made: somebody is about to make it, or one was muted and will be
made good. -/
def Owing (st : Streams) (m : Multiset Op) : Prop :=
  .publish ∈ m ∨ (st.inFlight = 1 ∧ 2 < st.muted + remaining m)

/-- A publication is still to come, or under way. -/
def Due (st : Streams) (m : Multiset Op) : Prop := Owing st m ∨ st.publishing ≠ 0

/-- The bookkeeping of the window and of the publications. -/
structure Window (st : Streams) (m : Multiset Op) : Prop where
  inFlight_eq : st.inFlight = m.countP (·.inWindow)
  one : st.inFlight ≤ 1
  closed : st.inFlight = 0 → st.parses = 0 ∧ st.muted = 0
  opened : st.inFlight = 1 → st.parses = 1 ∧ 2 ≤ st.muted + remaining m
  publishing_eq : st.publishing = m.countP (·.publishing)
  put_eq : ∀ switches, .put switches ∈ m → switches = st.current
  unheld : st.publishing ≠ 0 → st.held = none
  held_iff : ∀ found, st.held = some found ↔ .notify found ∈ m ∨ .restore found ∈ m
  write : ∀ temporary found, .write temporary found ∈ m → st.current.mode = found ∨ Owing st m

/-- Every subscriber has what the switches will be, or a publication is due. -/
structure Shown (st : Streams) (m : Multiset Op) : Prop where
  last : ∀ s ∈ st.streams, ∀ switches, s.last = some switches → switches = st.expected ∨ Due st m
  snapshot : ∀ s ∈ st.streams, s.last = none →
    s.snapshot = some st.expected ∨ Due st m ∨ .snapshot s.id ∈ m

section Steps

variable {st st' : Streams} {m m' : Multiset Op} {op op' : Op} {temporary found : Mode} {id : Nat}

@[simp]
theorem remaining_cons : remaining (op ::ₘ m) = op.remaining + remaining m := by
  simp [remaining]

theorem countP_publishing_cons (h : op.publishing = false) :
    (op ::ₘ m).countP (·.publishing) = m.countP (·.publishing) :=
  countP_cons_of_neg _ (by simp [h])

theorem countP_publishing_cons_succ (h : op.publishing = true) :
    (op ::ₘ m).countP (·.publishing) = m.countP (·.publishing) + 1 :=
  countP_cons_of_pos _ h

theorem countP_inWindow_cons (h : op.inWindow = false) :
    (op ::ₘ m).countP (·.inWindow) = m.countP (·.inWindow) :=
  countP_cons_of_neg _ (by simp [h])

theorem countP_inWindow_cons_succ (h : op.inWindow = true) :
    (op ::ₘ m).countP (·.inWindow) = m.countP (·.inWindow) + 1 :=
  countP_cons_of_pos _ h

theorem Op.remaining_of_outside (h : op.inWindow = false) : op.remaining = 0 := by
  cases op <;> first | rfl | cases h

theorem Op.publishing_of_inWindow (h : op.inWindow = true) : op.publishing = false := by
  cases op <;> first | rfl | cases h

theorem outside_of_mem (h : m.countP (·.inWindow) = 0) (hmem : op ∈ m) : op.inWindow = false := by
  simpa using countP_eq_zero.mp h op hmem

theorem remaining_of_outside (h : m.countP (·.inWindow) = 0) : remaining m = 0 := by
  refine sum_eq_zero fun n hn => ?_
  obtain ⟨op, hmem, rfl⟩ := mem_map.mp hn
  exact Op.remaining_of_outside (outside_of_mem h hmem)

/-- What is known while a parse has a section to do. -/
structure Parsing (st : Streams) (op : Op) (m : Multiset Op) : Prop where
  alone : m.countP (·.inWindow) = 0
  inFlight : st.inFlight = 1
  parses : st.parses = 1
  muted : 2 ≤ st.muted + op.remaining
  publishing : st.publishing = m.countP (·.publishing)

theorem Window.parsing (h : Window st (op ::ₘ m)) (hop : op.inWindow = true) : Parsing st op m := by
  have hcount := h.inFlight_eq
  rw [countP_inWindow_cons_succ hop] at hcount
  have hone := h.one
  have hin : st.inFlight = 1 := by omega
  have halone : m.countP (·.inWindow) = 0 := by omega
  have hmuted := (h.opened hin).2
  rw [remaining_cons, remaining_of_outside halone] at hmuted
  have hpub := h.publishing_eq
  rw [countP_publishing_cons (Op.publishing_of_inWindow hop)] at hpub
  exact ⟨halone, hin, (h.opened hin).1, hmuted, hpub⟩

/-- The window when a parse goes on to its next section. -/
theorem Window.of_parsing (h : Parsing st op m) (hop : op.inWindow = true)
    (hput : ∀ switches, .put switches ∈ m → switches = st.current)
    (hunheld : st.publishing ≠ 0 → st.held = none)
    (hheld : ∀ found, st.held = some found ↔ .notify found = op ∨ .restore found = op)
    (hwrite : ∀ temporary found, .write temporary found = op →
      st.current.mode = found ∨ Owing st (op ::ₘ m)) : Window st (op ::ₘ m) where
  inFlight_eq := by rw [countP_inWindow_cons_succ hop, h.alone, h.inFlight]
  one := h.inFlight.le
  closed h0 := by simp [h.inFlight] at h0
  opened _ := ⟨h.parses, by rw [remaining_cons]; have := h.muted; omega⟩
  publishing_eq := by
    rw [countP_publishing_cons (Op.publishing_of_inWindow hop), h.publishing]
  put_eq switches hmem := by
    obtain rfl | hmem := Multiset.mem_cons.mp hmem
    · cases hop
    · exact hput switches hmem
  unheld := hunheld
  held_iff found := by
    rw [hheld, Multiset.mem_cons, Multiset.mem_cons]
    have hno : .notify found ∉ m := fun hmem => nomatch outside_of_mem h.alone hmem
    have hno' : .restore found ∉ m := fun hmem => nomatch outside_of_mem h.alone hmem
    constructor
    · exact Or.imp .inl .inl
    · exact Or.imp (·.resolve_right hno) (·.resolve_right hno')
  write temporary found hmem := by
    obtain heq | hmem := Multiset.mem_cons.mp hmem
    · exact hwrite temporary found heq
    · exact nomatch outside_of_mem h.alone hmem

/-- The window when something outside it happens. -/
theorem Window.outside {ops : List Op} (h : Window st (op ::ₘ m)) (hop : op.inWindow = false)
    (hpub : st'.publishing = (ops + m : Multiset Op).countP (·.publishing))
    (hput : ∀ switches, .put switches ∈ (ops + m : Multiset Op) → switches = st'.current)
    (hunheld : st'.publishing ≠ 0 → st.held = none)
    (hwrite : ∀ temporary found, .write temporary found ∈ m →
      st'.current.mode = found ∨ Owing st' (ops + m))
    (hops : ∀ op' ∈ ops, op'.inWindow = false := by simp [Op.inWindow])
    (hin : st'.inFlight = st.inFlight := by rfl) (hparses : st'.parses = st.parses := by rfl)
    (hheld : st'.held = st.held := by rfl)
    (hclosed : st.inFlight = 0 → st'.muted = st.muted := by exact fun _ => rfl)
    (hmuted : st.muted ≤ st'.muted := by exact le_rfl) : Window st' (ops + m) := by
  have hcount : (ops + m : Multiset Op).countP (·.inWindow) = m.countP (·.inWindow) := by
    rw [Multiset.countP_add, add_eq_right, Multiset.countP_eq_zero]
    intro op' hmem
    simp [hops op' hmem]
  have hrem : remaining (ops + m) = remaining m := by
    simp only [remaining, Multiset.map_add, Multiset.sum_add, add_eq_right]
    refine Multiset.sum_eq_zero fun n hn => ?_
    obtain ⟨op', hmem, rfl⟩ := Multiset.mem_map.mp hn
    exact Op.remaining_of_outside (hops op' hmem)
  have hmem : ∀ {op' : Op}, op'.inWindow = true →
      (op' ∈ (ops + m : Multiset Op) ↔ op' ∈ op ::ₘ m) := by
    intro op' hin
    have hne : op' ≠ op := by
      rintro rfl
      simp [hin] at hop
    have hnot : op' ∉ ops := fun hmem => by simp [hops op' hmem] at hin
    simp [hne, hnot]
  have hcount' := h.inFlight_eq
  rw [countP_inWindow_cons hop] at hcount'
  refine ⟨by rw [hin, hcount, hcount'], hin ▸ h.one, fun h0 => ?_, fun h1 => ?_, hpub, hput,
    fun hp => by rw [hheld, hunheld hp], fun found => ?_, fun temporary found hw => ?_⟩
  · rw [hparses, hclosed (hin ▸ h0)]
    exact h.closed (hin ▸ h0)
  · have hopened := h.opened (hin ▸ h1)
    rw [remaining_cons, Op.remaining_of_outside hop, zero_add] at hopened
    exact ⟨hparses.trans hopened.1, by rw [hrem]; omega⟩
  · rw [hheld, h.held_iff, hmem rfl, hmem rfl]
  · refine hwrite temporary found ?_
    obtain rfl | hw := mem_cons.mp ((hmem rfl).mp hw)
    · cases hop
    · exact hw

/-- What subscribers have is as good as before if the switches they should have are the same. -/
theorem Shown.mono (h : Shown st m) (hstreams : st'.streams = st.streams)
    (hexpected : Due st' m' ∨ st'.expected = st.expected) (hdue : Due st m → Due st' m')
    (hsnapshot : ∀ id, .snapshot id ∈ m → .snapshot id ∈ m') : Shown st' m' := by
  obtain hall | heq := hexpected
  · exact ⟨fun _ _ _ _ => .inr hall, fun _ _ _ => .inr (.inl hall)⟩
  · constructor
    · intro s hs switches hlast
      rw [hstreams] at hs
      rw [heq]
      exact (h.last s hs switches hlast).imp_right hdue
    · intro s hs hlast
      rw [hstreams] at hs
      rw [heq]
      exact (h.snapshot s hs hlast).imp_right (Or.imp hdue (hsnapshot s.id))

/-- The invariant of the switches: the window, and what the subscribers have. -/
structure Current (st : Streams) (m : Multiset Op) : Prop where
  window : Window st m
  shown : Shown st m

theorem expected_of_unheld (h : st.held = none) : st.expected = st.current := by
  simp [Streams.expected, h]

theorem Window.unheld_of_closed (h : Window st m) (hin : st.inFlight = 0) : st.held = none := by
  cases hheld : st.held with
  | none => rfl
  | some found =>
    have hzero := h.inFlight_eq.symm.trans hin
    obtain hmem | hmem := (h.held_iff found).mp hheld
    · exact nomatch outside_of_mem hzero hmem
    · exact nomatch outside_of_mem hzero hmem

theorem Window.not_put (h : Window st m) (hp : st.publishing = 0) (switches : Switches) :
    .put switches ∉ m := fun hmem =>
  absurd rfl (countP_eq_zero.mp (h.publishing_eq.symm.trans hp) _ hmem)

/-- The window is open while a parse has its mode to write. -/
theorem Window.inFlight_of_write (h : Window st m) (hmem : .write temporary found ∈ m) :
    st.inFlight = 1 := by
  have hpos : 0 < m.countP (·.inWindow) := countP_pos.mpr ⟨_, hmem, rfl⟩
  have hone := h.one
  rw [h.inFlight_eq] at hone ⊢
  omega

theorem Owing.of_mem (h : .publish ∈ m) : Owing st m := .inl h

/-- What is owed stays owed when another section outside the window is done. -/
theorem Owing.outside {ops : List Op} (h : Owing st (op ::ₘ m)) (hne : op ≠ .publish)
    (hop : op.inWindow = false) (hin : st'.inFlight = st.inFlight := by rfl)
    (hmuted : st'.muted = st.muted := by rfl) : Owing st' (ops + m) := by
  obtain hmem | ⟨hone, hlt⟩ := h
  · exact .inl (mem_add.mpr (.inr ((mem_cons.mp hmem).resolve_left hne.symm)))
  · refine .inr ⟨hin.trans hone, ?_⟩
    rw [remaining_cons, Op.remaining_of_outside hop] at hlt
    have hsum : remaining (ops + m) = remaining ops + remaining m := by simp [remaining]
    omega

theorem Current.store {change : Change} (h : Current st (.store change ::ₘ m))
    (hp : st.publishing = 0) :
    Current { st with current := st.current.apply change } ([Op.publish] + m : Multiset Op) := by
  have howing : ∀ st' : Streams, Owing st' ([Op.publish] + m : Multiset Op) :=
    fun st' => .of_mem (by simp)
  refine ⟨h.window.outside rfl ?_ ?_
    (fun hne => absurd hp hne) (fun _ _ _ => .inr (howing _)),
    ⟨fun _ _ _ _ => .inr (.inl (howing _)), fun _ _ _ => .inr (.inl (.inl (howing _)))⟩⟩
  · rw [coe_singleton, singleton_add, countP_publishing_cons rfl]
    exact h.window.publishing_eq.trans (countP_publishing_cons rfl)
  · intro switches hmem
    exact absurd (by simpa using hmem) (h.window.not_put hp switches)

theorem Current.publish (h : Current st (.publish ::ₘ m)) :
    Current st.publish.1 (st.publish.2 + m) := by
  have hpublishing : st.publishing = m.countP (·.publishing) :=
    h.window.publishing_eq.trans (countP_publishing_cons rfl)
  have hput : ∀ switches, .put switches ∈ m → switches = st.current := fun switches hmem =>
    h.window.put_eq switches (mem_cons_of_mem hmem)
  unfold Streams.publish
  split
  · next hpos =>
    -- one more is muted, so that it will be made good
    have hin : st.inFlight = 1 := le_antisymm h.window.one hpos
    have howing : Owing { st with muted := st.muted + 1 } m := by
      have hopened := (h.window.opened hin).2
      rw [remaining_cons] at hopened
      exact .inr ⟨hin, lt_of_le_of_lt (by simpa [Op.remaining] using hopened) (by simp)⟩
    have howing : Owing { st with muted := st.muted + 1 } (([] : List Op) + m : Multiset Op) := by
      simpa using howing
    refine ⟨h.window.outside rfl (by simpa using hpublishing) (by simpa using hput)
      h.window.unheld (fun _ _ _ => .inr howing) (by simp) rfl rfl rfl (fun h0 => ?_) (le_succ _),
      ⟨fun _ _ _ _ => .inr (.inl howing), fun _ _ _ => .inr (.inl (.inl howing))⟩⟩
    simp [hin] at h0
  · next hpos =>
    have hin : st.inFlight = 0 := by omega
    have hheld := h.window.unheld_of_closed hin
    refine ⟨h.window.outside rfl ?_ ?_
      (fun _ => hheld) (fun temporary found hmem => ?_), h.shown.mono rfl (.inr rfl) ?_ ?_⟩
    · rw [coe_singleton, singleton_add, countP_publishing_cons_succ rfl, ← hpublishing]
    · intro switches hmem
      exact hput switches (by simpa using hmem)
    · have := h.window.inFlight_of_write (mem_cons_of_mem hmem)
      omega
    · exact fun _ => .inr (succ_ne_zero _)
    · simp

theorem Current.read (h : Current st (.read ::ₘ m)) :
    Current st ([Op.put st.current] + m : Multiset Op) := by
  have howing : Owing st (.read ::ₘ m) → Owing st ([Op.put st.current] + m : Multiset Op) :=
    fun h => h.outside nofun rfl
  refine ⟨h.window.outside rfl ?_ ?_
    h.window.unheld (fun temporary found hmem => ?_),
    h.shown.mono rfl (.inr rfl) (Or.imp_left howing) (by simp)⟩
  · rw [coe_singleton, singleton_add, countP_publishing_cons_succ rfl]
    exact h.window.publishing_eq.trans (countP_publishing_cons_succ rfl)
  · intro switches hmem
    obtain heq | hmem := mem_cons.mp hmem
    · cases heq
      rfl
    · exact h.window.put_eq switches (mem_cons_of_mem (by simpa using hmem))
  · exact (h.window.write temporary found (mem_cons_of_mem hmem)).imp_right howing

/-- A section that is over and neither publishes nor belongs to a parse. -/
theorem Window.drop (h : Window st (op ::ₘ m)) (hop : op.inWindow = false)
    (hpub : op.publishing = false) (hne : op ≠ .publish) : Window st m := by
  have h' : Window st (([] : List Op) + m : Multiset Op) := by
    refine h.outside hop ?_ ?_ h.unheld ?_
    · simpa using h.publishing_eq.trans (countP_publishing_cons hpub)
    · intro switches hmem
      exact h.put_eq switches (mem_cons_of_mem (by simpa using hmem))
    · intro temporary found hmem
      exact (h.write temporary found (mem_cons_of_mem hmem)).imp_right
        fun howing => howing.outside hne hop
  simpa using h'

/-- The streams may change as they like for the window. -/
theorem Window.congr (h : Window st m) (streams : List Subscriber) (next : Nat) :
    Window { st with streams := streams, next := next } m :=
  { h with }

theorem Due.drop (h : Due st (op ::ₘ m)) (hne : op ≠ .publish) (hop : op.inWindow = false) :
    Due st m := by
  refine h.imp_left fun howing => ?_
  have h' : Owing st (([] : List Op) + m : Multiset Op) := howing.outside hne hop
  simpa using h'

theorem Current.put {switches : Switches} (h : Current st (.put switches ::ₘ m)) :
    Current { st with
      streams := st.streams.map fun s => { s with last := some switches }
      publishing := st.publishing - 1 } m := by
  have hsucc : st.publishing = m.countP (·.publishing) + 1 :=
    h.window.publishing_eq.trans (countP_publishing_cons_succ rfl)
  have hheld : st.held = none := h.window.unheld (by omega)
  have hcur : switches = st.current := h.window.put_eq switches (mem_cons_self _ _)
  have hw : Window { st with
      streams := st.streams.map fun s => { s with last := some switches }
      publishing := st.publishing - 1 } (([] : List Op) + m : Multiset Op) := by
    refine h.window.outside rfl ?_ ?_ (fun _ => hheld) ?_
    · simp [hsucc]
    · intro switches hmem
      exact h.window.put_eq switches (mem_cons_of_mem (by simpa using hmem))
    · intro temporary found hmem
      exact (h.window.write temporary found (mem_cons_of_mem hmem)).imp_right
        fun howing => howing.outside nofun rfl
  refine ⟨by simpa using hw, ?_, ?_⟩
  · intro s hs switches' hlast
    obtain ⟨s, _, rfl⟩ := mem_map.mp hs
    obtain rfl : switches = switches' := by simpa using hlast
    exact .inl (hcur.trans (expected_of_unheld hheld).symm)
  · intro s hs hlast
    obtain ⟨s, _, rfl⟩ := mem_map.mp hs
    cases hlast

theorem Current.subscribe (h : Current st (.subscribe ::ₘ m)) :
    Current { st with next := st.next + 1, streams := st.streams ++ [⟨st.next, none, none⟩] }
      (.snapshot st.next ::ₘ m) := by
  have hdue : Due st (.subscribe ::ₘ m) → Due st (.snapshot st.next ::ₘ m) := by
    rintro (howing | hp)
    · have h' : Owing st ([Op.snapshot st.next] + m : Multiset Op) := howing.outside nofun rfl
      exact .inl (by simpa using h')
    · exact .inr hp
  have hw : Window st ([Op.snapshot st.next] + m : Multiset Op) := by
    refine h.window.outside rfl ?_ ?_ h.window.unheld ?_
    · rw [coe_singleton, singleton_add, countP_publishing_cons rfl]
      exact h.window.publishing_eq.trans (countP_publishing_cons rfl)
    · intro switches hmem
      exact h.window.put_eq switches (by simpa using hmem)
    · intro temporary found hmem
      exact (h.window.write temporary found (mem_cons_of_mem hmem)).imp_right
        fun howing => howing.outside nofun rfl
  rw [coe_singleton, singleton_add] at hw
  refine ⟨hw.congr _ _, ?_, ?_⟩
  · intro s hs switches hlast
    obtain hs | hs := mem_append.mp hs
    · exact (h.shown.last s hs switches hlast).imp_right hdue
    · obtain rfl : s = _ := by simpa using hs
      cases hlast
  · intro s hs hlast
    obtain hs | hs := mem_append.mp hs
    · refine (h.shown.snapshot s hs hlast).imp_right (Or.imp hdue fun hmem => ?_)
      exact mem_cons_of_mem ((mem_cons.mp hmem).resolve_left nofun)
    · obtain rfl : s = _ := by simpa using hs
      exact .inr (.inr (mem_cons_self _ _))

theorem Current.snapshot (h : Current st (.snapshot id ::ₘ m)) (hin : st.inFlight = 0) :
    Current { st with streams := st.streams.map fun s =>
      if s.id = id then { s with snapshot := some st.current } else s } m := by
  have hexp := expected_of_unheld (h.window.unheld_of_closed hin)
  refine ⟨(h.window.drop rfl rfl nofun).congr _ _, ?_, ?_⟩
  · intro s hs switches hlast
    obtain ⟨s, hmem, rfl⟩ := mem_map.mp hs
    have hlast : s.last = some switches := by
      split at hlast <;> exact hlast
    exact (h.shown.last s hmem switches hlast).imp_right fun hdue => hdue.drop nofun rfl
  · intro s hs hlast
    obtain ⟨s, hmem, rfl⟩ := mem_map.mp hs
    split at hlast
    · next heq =>
      rw [if_pos heq]
      exact .inl (congrArg some hexp.symm)
    · next hne =>
      rw [if_neg hne]
      refine (h.shown.snapshot s hmem hlast).imp_right (Or.imp (fun hdue => hdue.drop nofun rfl) ?_)
      intro hsnap
      exact (mem_cons.mp hsnap).resolve_left fun heq => hne (by cases heq; rfl)

theorem Current.release (h : Current st (.release id ::ₘ m)) :
    Current { st with streams := st.streams.filter (·.id ≠ id) } m := by
  refine ⟨(h.window.drop rfl rfl nofun).congr _ _, ?_, ?_⟩
  · intro s hs switches hlast
    exact (h.shown.last s (mem_filter.mp hs).1 switches hlast).imp_right
      fun hdue => hdue.drop nofun rfl
  · intro s hs hlast
    refine (h.shown.snapshot s (mem_filter.mp hs).1 hlast).imp_right
      (Or.imp (fun hdue => hdue.drop nofun rfl) fun hsnap => ?_)
    exact (mem_cons.mp hsnap).resolve_left nofun

/-! ### The sections of a parse -/

/-- What is due stays due when a parse goes on, as long as what it has muted and has still to
publish stays the same. -/
theorem Due.parse (h : Due st (op ::ₘ m)) (hop : op.inWindow = true)
    (hin : st'.inFlight = st.inFlight) (hpub : st'.publishing = st.publishing)
    (hmuted : st.muted + op.remaining ≤ st'.muted + op'.remaining) : Due st' (op' ::ₘ m) := by
  obtain (hmem | ⟨hone, hlt⟩) | hp := h
  · refine .inl (.inl (mem_cons_of_mem ((mem_cons.mp hmem).resolve_left ?_)))
    rintro rfl
    cases hop
  · refine .inl (.inr ⟨hin.trans hone, ?_⟩)
    rw [remaining_cons] at hlt ⊢
    omega
  · exact .inr (hpub ▸ hp)

theorem not_snapshot_of_inWindow (hop : op.inWindow = true) (h : .snapshot id ∈ op ::ₘ m) :
    .snapshot id ∈ op' ::ₘ m := by
  refine mem_cons_of_mem ((mem_cons.mp h).resolve_left ?_)
  rintro rfl
  cases hop

/-- Outside of its two middle sections a parse does not hold the mode. -/
theorem Window.unheld_of_parsing (h : Window st (op ::ₘ m)) (hop : op.inWindow = true)
    (hnotify : ∀ found, op ≠ .notify found) (hrestore : ∀ found, op ≠ .restore found) :
    st.held = none := by
  have hp := h.parsing hop
  cases hheld : st.held with
  | none => rfl
  | some found =>
    obtain hmem | hmem := (h.held_iff found).mp hheld
    · exact nomatch outside_of_mem hp.alone ((mem_cons.mp hmem).resolve_left (hnotify found).symm)
    · exact nomatch outside_of_mem hp.alone ((mem_cons.mp hmem).resolve_left (hrestore found).symm)

theorem publish_of_parsing (h : Parsing st op m) :
    st.publish = ({ st with muted := st.muted + 1 }, []) := by
  simp [Streams.publish, h.inFlight]

theorem Current.enter (h : Current st (.enter (some temporary) ::ₘ m)) (hin : st.inFlight = 0) :
    Current { st with inFlight := st.inFlight + 1, parses := st.parses + 1 }
      (.save temporary ::ₘ m) := by
  have hw := h.window.drop rfl rfl nofun
  have hheld := hw.unheld_of_closed hin
  obtain ⟨hparses, hmuted⟩ := hw.closed hin
  refine ⟨.of_parsing ⟨hw.inFlight_eq.symm.trans hin, by simp [hin], by simp [hparses],
    by simp [Op.remaining], hw.publishing_eq⟩ rfl hw.put_eq hw.unheld (by simp [hheld]) nofun,
    h.shown.mono rfl (.inr rfl) ?_ (by simp)⟩
  rintro ((hmem | ⟨hone, _⟩) | hp)
  · exact .inl (.inl (by simpa using hmem))
  · omega
  · exact .inr hp

/-- A step of the parse that leaves the switches as they are, and mutes `k` publications. -/
theorem Current.parse (h : Current st (op ::ₘ m)) (hop : op.inWindow = true)
    (hop' : op'.inWindow = true) (k : Nat) (hk : op.remaining = k + op'.remaining)
    (hheld : ∀ found, st.held = some found ↔ .notify found = op' ∨ .restore found = op')
    (hwrite : ∀ temporary found, .write temporary found = op' → st.current.mode = found) :
    Current { st with muted := st.muted + k } (op' ::ₘ m) := by
  have hp := h.window.parsing hop
  refine ⟨.of_parsing { hp with muted := ?_ } hop'
    (fun switches hmem => h.window.put_eq switches (mem_cons_of_mem hmem))
    h.window.unheld hheld fun temporary found heq => .inl (hwrite temporary found heq),
    h.shown.mono rfl (.inr rfl) (fun hdue => hdue.parse hop rfl rfl ?_)
      fun _ => not_snapshot_of_inWindow hop⟩
  · have := hp.muted
    dsimp only
    omega
  · dsimp only
    omega

theorem Current.save (h : Current st (.save temporary ::ₘ m)) :
    Current st (.write temporary st.current.mode ::ₘ m) := by
  have hheld := h.window.unheld_of_parsing rfl nofun nofun
  refine h.parse rfl rfl 0 rfl (by simp [hheld]) ?_
  intro temporary' found heq
  cases heq
  rfl

theorem Current.write (h : Current st (.write temporary found ::ₘ m)) (hpub : st.publishing = 0) :
    Current { st with current := { st.current with mode := temporary }, held := some found }
      (.notify found ::ₘ m) := by
  have hp := h.window.parsing rfl
  have hheld := h.window.unheld_of_parsing rfl nofun nofun
  have hdue : Due st (.write temporary found ::ₘ m) →
      Due { st with current := { st.current with mode := temporary }, held := some found }
        (.notify found ::ₘ m) := fun hdue => hdue.parse rfl rfl rfl le_rfl
  refine ⟨.of_parsing { hp with } rfl
    (fun switches hmem => absurd (mem_cons_of_mem hmem) (h.window.not_put hpub switches))
    (absurd hpub) (by simp [eq_comm]) nofun,
    h.shown.mono rfl ?_ hdue fun _ => not_snapshot_of_inWindow rfl⟩
  obtain heq | howing := h.window.write temporary found (mem_cons_self _ _)
  · right
    rw [expected_of_unheld hheld, ← heq]
    rfl
  · exact .inl (hdue (.inl howing))

theorem Current.notify (h : Current st (.notify found ::ₘ m)) :
    Current { st with muted := st.muted + 1 } (.restore found ::ₘ m) := by
  have hheld := (h.window.held_iff found).mpr (.inl (mem_cons_self _ _))
  exact h.parse rfl rfl 1 rfl (by simp [hheld, eq_comm]) nofun

theorem Current.restore (h : Current st (.restore found ::ₘ m)) (hpub : st.publishing = 0) :
    Current { st with current := { st.current with mode := found }, held := none }
      (.notified ::ₘ m) := by
  have hp := h.window.parsing rfl
  have hheld := (h.window.held_iff found).mpr (.inr (mem_cons_self _ _))
  refine ⟨.of_parsing { hp with } rfl
    (fun switches hmem => absurd (mem_cons_of_mem hmem) (h.window.not_put hpub switches))
    (absurd hpub) (by simp) nofun,
    h.shown.mono rfl (.inr ?_) (fun hdue => hdue.parse rfl rfl rfl le_rfl)
      fun _ => not_snapshot_of_inWindow rfl⟩
  simp [Streams.expected, hheld]

theorem Current.notified (h : Current st (.notified ::ₘ m)) :
    Current { st with muted := st.muted + 1 } (.leave ::ₘ m) := by
  have hheld := h.window.unheld_of_parsing rfl nofun nofun
  exact h.parse rfl rfl 1 rfl (by simp [hheld]) nofun

/-- The window closes, and what was muted beside the writes of the parse is made good. -/
theorem Current.leave (h : Current st (.leave ::ₘ m)) : Current st.leave.1 (st.leave.2 + m) := by
  have hp := h.window.parsing rfl
  have hheld := h.window.unheld_of_parsing rfl nofun nofun
  have hput : ∀ switches, .put switches ∈ m → switches = st.current := fun switches hmem =>
    h.window.put_eq switches (mem_cons_of_mem hmem)
  have hnot : ∀ op : Op, op.inWindow = true → op ∉ m := fun _ hop hmem => by
    simp [outside_of_mem hp.alone hmem] at hop
  -- the window of the state after it, whatever is published
  have hclosed : ∀ ops : List Op, (ops = [] ∨ ops = [.publish]) →
      Window { st with inFlight := 0, parses := 0, muted := 0 } (ops + m) := by
    rintro ops (rfl | rfl)
    · refine ⟨by simp [hp.alone], by simp, by simp, nofun, by simpa using hp.publishing,
        by simpa using hput, h.window.unheld, ?_, ?_⟩
      · simp [hheld, hnot (.notify _) rfl, hnot (.restore _) rfl]
      · intro temporary found hmem
        exact absurd (by simpa using hmem) (hnot (.write temporary found) rfl)
    · refine ⟨?_, by simp, by simp, nofun, ?_, by simpa using hput, h.window.unheld, ?_, ?_⟩
      · rw [coe_singleton, singleton_add, countP_inWindow_cons rfl, hp.alone]
      · rw [coe_singleton, singleton_add, countP_publishing_cons rfl]
        exact hp.publishing
      · simp [hheld, hnot (.notify _) rfl, hnot (.restore _) rfl]
      · exact fun _ _ _ => .inr (.of_mem (by simp))
  simp only [Streams.leave, hp.inFlight, if_true, hp.parses, parserModeWritesPerParse, one_mul]
  by_cases hmuted : 2 < st.muted
  · rw [if_pos hmuted]
    have hdue : Due { st with inFlight := 0, parses := 0, muted := 0 }
        ([Op.publish] + m : Multiset Op) := .inl (.of_mem (by simp))
    exact ⟨hclosed _ (.inr rfl), fun _ _ _ _ => .inr hdue, fun _ _ _ => .inr (.inl hdue)⟩
  · rw [if_neg hmuted]
    refine ⟨hclosed _ (.inl rfl), h.shown.mono rfl (.inr rfl) ?_ (by simp)⟩
    rintro ((hmem | ⟨_, hlt⟩) | hpub)
    · exact .inl (.inl (by simpa using hmem))
    · rw [remaining_cons, remaining_of_outside hp.alone] at hlt
      exact absurd hlt hmuted
    · exact .inr hpub

theorem Current.exec (hok : Orderly st op) (h : Current st (op ::ₘ m)) :
    Current (exec op st).1 ((exec op st).2 + m) := by
  match op with
  | .store change => exact h.store hok
  | .publish => exact h.publish
  | .read => exact h.read
  | .put switches => simpa [ModeStream.exec] using h.put
  | .subscribe => simpa [ModeStream.exec] using h.subscribe
  | .snapshot id => simpa [ModeStream.exec] using h.snapshot hok
  | .release id => simpa [ModeStream.exec] using h.release
  | .enter (some temporary) => simpa [ModeStream.exec] using h.enter hok.1
  | .enter none => exact absurd hok.2 nofun
  | .save temporary => simpa [ModeStream.exec] using h.save
  | .write temporary found => simpa [ModeStream.exec] using h.write hok
  | .notify found =>
    simpa [ModeStream.exec, publish_of_parsing (h.window.parsing rfl)] using h.notify
  | .restore found => simpa [ModeStream.exec] using h.restore hok
  | .notified =>
    simpa [ModeStream.exec, publish_of_parsing (h.window.parsing rfl)] using h.notified
  | .leave => exact h.leave

/-- The first section of a call changes nothing while it waits. -/
theorem Current.call (h : Current st m) (hop : op.inWindow = false) (hpub : op.publishing = false) :
    Current st (op ::ₘ m) := by
  have howing : Owing st m → Owing st (op ::ₘ m) := by
    rintro (hmem | ⟨hone, hlt⟩)
    · exact .inl (mem_cons_of_mem hmem)
    · exact .inr ⟨hone, by rw [remaining_cons]; omega⟩
  have hmem : ∀ {op' : Op}, op'.inWindow = true → (op' ∈ op ::ₘ m ↔ op' ∈ m) := by
    intro op' hin
    rw [Multiset.mem_cons, or_iff_right]
    rintro rfl
    simp [hin] at hop
  refine ⟨⟨?_, h.window.one, h.window.closed, fun h1 => ?_, ?_, fun switches hput => ?_,
    h.window.unheld, fun found => ?_, fun temporary found hw => ?_⟩,
    h.shown.mono rfl (.inr rfl) (Or.imp_left howing) fun _ => mem_cons_of_mem⟩
  · rw [countP_inWindow_cons hop]
    exact h.window.inFlight_eq
  · rw [remaining_cons, Op.remaining_of_outside hop, zero_add]
    exact h.window.opened h1
  · rw [countP_publishing_cons hpub]
    exact h.window.publishing_eq
  · obtain rfl | hput := mem_cons.mp hput
    · cases hpub
    · exact h.window.put_eq switches hput
  · rw [hmem rfl, hmem rfl]
    exact h.window.held_iff found
  · exact (h.window.write temporary found ((hmem rfl).mp hw)).imp_right howing

end Steps

theorem Current.invariant : Invariant system Orderly Current where
  start := by
    rintro st ts ⟨_, ops⟩ (⟨change, rfl⟩ | rfl | ⟨id, rfl⟩ | ⟨temporary, rfl⟩) h
    all_goals
      rw [coe_singleton, singleton_add]
      exact h.call rfl rfl
  exec hok h := h.exec hok

theorem Current.start (current : Switches) : Current (start current) 0 where
  window := ⟨rfl, zero_le _, fun _ => ⟨rfl, rfl⟩, nofun, rfl, by simp, absurd rfl,
    by simp [ModeStream.start], by simp⟩
  shown := ⟨nofun, nofun⟩

/-- Once every call has returned, every subscriber has the current switches, if no switch changed
under a publication and parses came alone and got as far as their mode writes. -/
theorem converged_of_orderly {current : Switches} {st : Streams}
    (h : Runs system Orderly (start current, []) (st, [])) : Converged st := by
  have hcur : Current st 0 := h.invariant Current.invariant (Current.start current)
  have hin : st.inFlight = 0 := by simpa using hcur.window.inFlight_eq
  have hnot : ¬ Due st 0 := by
    rintro ((hmem | ⟨hone, _⟩) | hpub)
    · simp at hmem
    · omega
    · exact hpub (by simpa using hcur.window.publishing_eq)
  have hexp := expected_of_unheld (hcur.window.unheld_of_closed hin)
  intro s hs
  cases hlast : s.last with
  | some switches =>
    have heq := (hcur.shown.last s hs switches hlast).resolve_right hnot
    simp [Subscriber.shown, hlast, heq, hexp]
  | none =>
    have heq := (hcur.shown.snapshot s hs hlast).resolve_right (by simpa using hnot)
    simp [Subscriber.shown, hlast, heq, hexp]

/-! ### Two runs -/

/-- The switches before the first change. -/
def initial : Switches := ⟨.rule, false, fun _ => none⟩

/-- One subscriber, with its snapshot. -/
def subscribed (current : Switches) : Streams :=
  { start current with next := 1, streams := [⟨0, none, some current⟩] }

theorem runs_subscribed {Ok : Streams → Op → Prop}
    (hok : RunsOk system Ok (.replicate 2 ()) [.subscribe] (start initial)) :
    Runs system Ok (start initial, []) (subscribed initial, []) :=
  Runs.thread (k := ()) (.replicate 2 ()) (.inr (.inl rfl)) hok rfl

/-- A changer that has read the switches is overtaken by one that sets the mode and publishes it.
What the first one publishes is the old mode, and nobody publishes again. -/
theorem subscriber_left_behind :
    ∃ st, Runs system (fun _ _ => True) (start initial, []) (st, []) ∧ ¬ Converged st := by
  have hsubscribe : Runs system (fun _ _ => True) (start initial, []) (subscribed initial, []) :=
    runs_subscribed (runsOk_of_forall (fun _ _ => trivial) _ _ _)
  have hchange : Runs system (fun _ _ => True) (subscribed initial, []) _ :=
    Runs.interrupted (k := ()) (l := ()) (.replicate 3 ()) (.replicate 4 ()) [()]
      (fun _ _ => trivial) (.inl ⟨.allowLan true, rfl⟩) rfl (.inl ⟨.mode .direct, rfl⟩) rfl rfl
  refine ⟨_, hsubscribe.trans hchange, fun h => ?_⟩
  have hmode := congrArg (Option.map Switches.mode) (h _ mem_cons_self)
  exact absurd hmode (by decide)

/-- A mode that is set after a parse has been through reaches the subscriber. -/
theorem subscriber_follows : ∃ st, Converged st ∧ st.streams ≠ [] ∧ st.current.mode = .direct := by
  have hsubscribe : Runs system Orderly (start initial, []) (subscribed initial, []) :=
    runs_subscribed ⟨trivial, rfl, trivial⟩
  have hparse := hsubscribe.trans (Runs.thread (k := ()) (.replicate 7 ())
    (.inr (.inr (.inr ⟨some .global, rfl⟩)))
    ⟨⟨rfl, rfl⟩, trivial, rfl, trivial, rfl, trivial, trivial, trivial⟩ rfl)
  have hchange := hparse.trans (Runs.thread (k := ()) (.replicate 4 ())
    (.inl ⟨.mode .direct, rfl⟩) ⟨rfl, trivial, trivial, trivial, trivial⟩ rfl)
  exact ⟨_, converged_of_orderly hchange, nofun, rfl⟩

end Hako.ModeStream
