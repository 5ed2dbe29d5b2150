import Hako.GoLib.Utf8
import Hako.Lib.Threads

/-!
# Settling of the default path

`UpdateDefaultInterface` raises flags for what a new path makes necessary and arms a timer. When the
path has not changed for a while the timer fires, and what was owed is done at once. Flags, timer
and pending index change in separate sections of one mutex, so that an old timer can fire between
any two of them.
-/

namespace Hako.PathSettle

open GoLib Threads List Multiset

/-- The arguments of an update. -/
structure Path where
  name : GoString
  index : Int
  isExpensive : Bool
  isConstrained : Bool
  supportsIPv4 : Bool
  supportsIPv6 : Bool
deriving DecidableEq

/-- The path before the first update. -/
def noPath : Path := ⟨[], 0, false, false, false, false⟩

inductive Flag where
  | flows
  | witness
  | resolver
deriving DecidableEq

/-- The fields of `interfaceUpdater` that settling reads, and around them the timers that are armed,
what the witness was told, and for the statements: the index of the last update after the first
that changed the interface, whether an update has raised the witness flag and not scheduled yet,
and whether a settle has taken the flag and not told the witness yet. `settleGen`, a `uint64` in
the source, does not wrap. -/
structure Updater where
  initialized : Bool
  path : Path
  settleGen : Nat
  settleStop : Option Nat
  pendingFlows : Bool
  pendingResolver : Bool
  pendingWitness : Bool
  pendingIndex : Int
  timers : List Nat
  witnessed : Option Int
  changedTo : Option Int
  raising : Bool
  telling : Bool
deriving DecidableEq

def newUpdater : Updater :=
  ⟨false, noPath, 0, none, false, false, false, 0, [], none, none, false, false⟩

/-- The sections of the mutexes, with what is still to be done behind them. -/
inductive Op where
  /-- The body of `UpdateDefaultInterface` before its first flag. -/
  | update (path : Path)
  /-- Flags that are still to be raised by `owe`, and then `scheduleSettle`. -/
  | raise (flags : List Flag) (index : Int)
  /-- `afterPathSettles` -/
  | arm (gen : Nat)
  /-- The second section of `scheduleSettle`. -/
  | keep (gen : Nat)
  /-- The timer of a generation fires. -/
  | fire (gen : Nat)
  /-- The section of `settle`. -/
  | settle (gen : Nat)
  /-- `witnessPathChanged` -/
  | tell (index : Int)
deriving DecidableEq

/-- Operations under the mutex of the updates. -/
def Op.ofUpdate : Op → Bool
  | .update _ | .raise _ _ | .arm _ | .keep _ => true
  | .fire _ | .settle _ | .tell _ => false

namespace Updater

def owes (u : Updater) : Bool := u.pendingFlows || u.pendingResolver || u.pendingWitness

/-- `owe` -/
def owe (u : Updater) : Flag → Updater
  | .flows => { u with pendingFlows := true }
  | .witness => { u with pendingWitness := true, raising := true }
  | .resolver => { u with pendingResolver := true }

def shouldResetResolverForPathUpdate (_wasInitialized _identityChanged _familiesChanged : Bool) :
    Bool := true

/-- Whether an update names another interface. -/
def identityChanged (u : Updater) (path : Path) : Bool :=
  u.path.name ≠ path.name || u.path.index ≠ path.index

/-- The flags that an update raises, in this order. -/
def flagsFor (u : Updater) (path : Path) : List Flag :=
  let familiesChanged :=
    u.path.supportsIPv4 ≠ path.supportsIPv4 || u.path.supportsIPv6 ≠ path.supportsIPv6
  (if u.initialized && (u.identityChanged path || familiesChanged) then [Flag.flows] else []) ++
    (if u.initialized && u.identityChanged path then [Flag.witness] else []) ++
    (if shouldResetResolverForPathUpdate u.initialized (u.identityChanged path) familiesChanged then
      [Flag.resolver] else [])

/-- `UpdateDefaultInterface`, up to the flags. -/
def update (u : Updater) (path : Path) : Updater × List Op :=
  if u.initialized ∧ u.path = path then (u, [])
  else
    ({ u with
        initialized := true
        path := path
        changedTo :=
          if u.initialized && u.identityChanged path then some path.index else u.changedTo },
      [.raise (u.flagsFor path) path.index])

/-- The first section of `scheduleSettle`. -/
def schedule (u : Updater) (index : Int) : Updater × List Op :=
  if ¬ u.owes then ({ u with raising := false }, [])
  else
    let gen := u.settleGen + 1
    -- stopping a timer that has fired does nothing
    let timers := match u.settleStop with
      | some old => u.timers.filter (· ≠ old)
      | none => u.timers
    ({ u with pendingIndex := index, settleGen := gen, timers := timers, raising := false },
      [.arm gen])

/-- The section of `settle`. -/
def settle (u : Updater) (gen : Nat) : Updater × List Op :=
  if gen ≠ u.settleGen then (u, [])
  else
    ({ u with
        pendingFlows := false
        pendingResolver := false
        pendingWitness := false
        settleStop := none
        telling := u.telling || u.pendingWitness },
      if u.pendingWitness then [.tell u.pendingIndex] else [])

end Updater

def exec : Op → Updater → Updater × List Op
  | .update path, u => u.update path
  | .raise (flag :: flags) index, u => (u.owe flag, [.raise flags index])
  | .raise [] index, u => u.schedule index
  | .arm gen, u => ({ u with timers := gen :: u.timers }, [.keep gen])
  | .keep gen, u => (if gen = u.settleGen then { u with settleStop := some gen } else u, [])
  | .fire gen, u =>
    if gen ∈ u.timers then ({ u with timers := u.timers.erase gen }, [.settle gen]) else (u, [])
  | .settle gen, u => u.settle gen
  | .tell index, u => ({ u with witnessed := some index, telling := false }, [])

/-- Updates are started one at a time, and timers fire at any time. -/
def system : System Updater Unit Unit Op where
  exec _ := exec
  Starts _ ts t := (∃ path, t.ops = [.update path] ∧ ∀ t' ∈ ts, ∀ op ∈ t'.ops, ¬ op.ofUpdate) ∨
    ∃ gen, t.ops = [.fire gen]

/-- What is expected of a state where no call and no settle runs and no timer is armed. -/
structure Settled (u : Updater) : Prop where
  noFlag : u.owes = false
  told : ∀ index, u.changedTo = some index → u.witnessed = some index

/-- A settle that would take the witness flag does so neither between an update's raising it and
its scheduling, nor before the settle that took it last has told the witness. -/
def Undisturbed (u : Updater) : Op → Prop
  | .settle gen => gen = u.settleGen → u.pendingWitness = true → u.raising = false ∧ u.telling = false
  | _ => True

/-! ### Flags are settled -/

/-- Somebody is there to settle a flag: an armed timer of the current generation, its settle, an
update that is about to arm it, or one that has still to schedule. -/
def Owed (u : Updater) (m : Multiset Op) : Prop :=
  u.owes = true → u.settleGen ∈ u.timers ∨ .settle u.settleGen ∈ m ∨ .arm u.settleGen ∈ m ∨
    ∃ flags index, .raise flags index ∈ m

theorem Owed.exec {op : Op} {u : Updater} {m : Multiset Op} (h : Owed u (op ::ₘ m)) :
    Owed (exec op u).1 ((exec op u).2 + m) := by
  intro howes
  match op with
  | .update path =>
    simp only [PathSettle.exec, Updater.update] at howes ⊢
    split at howes
    · simpa [Owed, *] using h howes
    · next hne =>
      rw [if_neg hne]
      exact .inr (.inr (.inr ⟨_, _, mem_cons_self _ _⟩))
  | .raise (flag :: flags) index => exact .inr (.inr (.inr ⟨flags, index, by simp [PathSettle.exec]⟩))
  | .raise [] index =>
    simp only [PathSettle.exec, Updater.schedule] at howes ⊢
    split at howes
    · next hnot => exact absurd howes hnot
    · simp [*]
  | .arm gen =>
    obtain h | h | h | ⟨flags, index, h⟩ := h howes
    · exact .inl (List.mem_cons_of_mem _ h)
    · exact .inr (.inl (by simpa [PathSettle.exec] using h))
    · obtain h | h := mem_cons.mp h
      · cases h
        exact .inl List.mem_cons_self
      · exact .inr (.inr (.inl (by simpa [PathSettle.exec] using h)))
    · exact .inr (.inr (.inr ⟨flags, index, by simpa [PathSettle.exec] using h⟩))
  | .keep gen =>
    have howes' : u.owes = true := by
      simp only [PathSettle.exec] at howes
      split at howes <;> exact howes
    have := h howes'
    simp only [PathSettle.exec]
    split <;> simpa using this
  | .fire gen =>
    by_cases hgen : gen ∈ u.timers
    · simp only [PathSettle.exec, if_pos hgen] at howes ⊢
      obtain h | h | h | ⟨flags, index, h⟩ := h howes
      · -- the timer that was there still is, or has just fired
        by_cases heq : u.settleGen = gen
        · exact .inr (.inl (by simp [heq]))
        · exact .inl ((List.mem_erase_of_ne heq).mpr h)
      · exact .inr (.inl (by simpa using Or.inr ((mem_cons.mp h).resolve_left nofun)))
      · exact .inr (.inr (.inl (by simpa using h)))
      · exact .inr (.inr (.inr ⟨flags, index, by simpa using h⟩))
    · simp only [PathSettle.exec, if_neg hgen] at howes ⊢
      simpa using h howes
  | .settle gen =>
    simp only [PathSettle.exec, Updater.settle] at howes ⊢
    split at howes
    · next hne =>
      have := h howes
      simp only [if_pos hne]
      simpa [Ne.symm hne] using this
    · simp [Updater.owes] at howes
  | .tell index => simpa [PathSettle.exec] using h howes

theorem Owed.invariant (Ok : Updater → Op → Prop) : Invariant system Ok Owed where
  start := by
    intro u ts t _ h howes
    obtain h | h | h | ⟨flags, index, h⟩ := h howes
    · exact .inl h
    · exact .inr (.inl (mem_add.mpr (.inr h)))
    · exact .inr (.inr (.inl (mem_add.mpr (.inr h))))
    · exact .inr (.inr (.inr ⟨flags, index, mem_add.mpr (.inr h)⟩))
  exec _ h := h.exec

/-! ### The witness is told -/

def Op.isTell : Op → Bool
  | .tell _ => true
  | _ => false

/-- An update that has still to raise the witness flag. -/
def WillRaise (m : Multiset Op) : Prop := ∃ flags index, .raise flags index ∈ m ∧ Flag.witness ∈ flags

/-- Where the last change of the interface is on its way to the witness. -/
structure Told (u : Updater) (m : Multiset Op) : Prop where
  one : m.countP (·.ofUpdate) ≤ 1
  raised : ∀ flags index, .raise flags index ∈ m → u.initialized = true ∧ index = u.path.index
  fresh : u.initialized = false → u.pendingWitness = false ∧ u.changedTo = none
  tells : ∀ index, .tell index ∈ m → u.telling = true
  oneTell : m.countP (·.isTell) ≤ 1
  pending : u.pendingWitness = true → u.raising = false →
    u.pendingIndex = u.path.index ∨ WillRaise m
  changed : ∀ index, u.changedTo = some index → u.path.index = index
  told : ∀ index, u.changedTo = some index → WillRaise m ∨ u.pendingWitness = true ∨
    .tell index ∈ m ∨ (∀ index', .tell index' ∉ m) ∧ u.witnessed = some index

section Steps

variable {u : Updater} {m : Multiset Op} {op : Op}

/-- Operations other than these do not count for what the witness is told. -/
def Op.Silent (op : Op) : Prop := (∀ flags index, op ≠ .raise flags index) ∧ ∀ index, op ≠ .tell index

variable {flags : List Flag} {index : Int}

/-- Only the operations that raise or tell count. -/
theorem Told.congr {m' : Multiset Op} (h : Told u m) (hone : m'.countP (·.ofUpdate) ≤ 1)
    (honeTell : m'.countP (·.isTell) ≤ 1)
    (hraise : ∀ flags index, .raise flags index ∈ m' ↔ .raise flags index ∈ m)
    (htell : ∀ index, .tell index ∈ m' ↔ .tell index ∈ m) : Told u m' where
  one := hone
  raised flags index hmem := h.raised flags index ((hraise flags index).mp hmem)
  fresh := h.fresh
  tells index hmem := h.tells index ((htell index).mp hmem)
  oneTell := honeTell
  pending hp hr := (h.pending hp hr).imp_right fun ⟨flags, index, hmem, hw⟩ =>
    ⟨flags, index, (hraise flags index).mpr hmem, hw⟩
  changed := h.changed
  told index hc := by
    obtain ⟨flags, index', hmem, hw⟩ | hp | hmem | ⟨hnone, hw⟩ := h.told index hc
    · exact .inl ⟨flags, index', (hraise flags index').mpr hmem, hw⟩
    · exact .inr (.inl hp)
    · exact .inr (.inr (.inl ((htell index).mpr hmem)))
    · exact .inr (.inr (.inr ⟨fun index' hmem => hnone index' ((htell index').mp hmem), hw⟩))

theorem Told.of_cons (hop : op.Silent) (h : Told u (op ::ₘ m)) : Told u m :=
  h.congr (le_trans (countP_le_of_le _ (le_cons_self m op)) h.one)
    (le_trans (countP_le_of_le _ (le_cons_self m op)) h.oneTell)
    (fun flags index => by simp [(hop.1 flags index).symm])
    fun index => by simp [(hop.2 index).symm]

theorem Told.cons (op : Op) (hop : op.Silent) (hone : (op ::ₘ m).countP (·.ofUpdate) ≤ 1)
    (h : Told u m) : Told u (op ::ₘ m) := by
  have hnot : op.isTell = false := by
    cases op <;> first | rfl | exact absurd rfl (hop.2 _)
  refine h.congr hone ?_ (fun flags index => by simp [(hop.1 flags index).symm])
    fun index => by simp [(hop.2 index).symm]
  rw [countP_cons_of_neg _ (by simp [hnot])]
  exact h.oneTell

/-- While one operation of an update is to be done there is no other. -/
theorem Told.alone (h : Told u (op ::ₘ m)) (hop : op.ofUpdate = true) :
    m.countP (·.ofUpdate) = 0 := by
  have hone := h.one
  rw [countP_cons_of_pos (p := fun op : Op => op.ofUpdate = true) m hop] at hone
  omega

theorem not_raise_of_alone (h : m.countP (·.ofUpdate) = 0) (flags : List Flag) (index : Int) :
    .raise flags index ∉ m := fun hmem =>
  countP_eq_zero.mp h _ hmem rfl

theorem not_willRaise_of_alone (h : m.countP (·.ofUpdate) = 0) : ¬ WillRaise m :=
  fun ⟨flags, index, hmem, _⟩ => not_raise_of_alone h flags index hmem

theorem willRaise_cons_of_witness (h : Flag.witness ∈ flags) :
    WillRaise (.raise flags index ::ₘ m) := ⟨flags, index, mem_cons_self _ _, h⟩

theorem mem_of_mem_cons_raise {index' : Int} (h : .tell index' ∈ Op.raise flags index ::ₘ m) :
    .tell index' ∈ m :=
  (mem_cons.mp h).resolve_left nofun

/-- An update that raises no witness flag leaves the index as it was. -/
theorem index_eq_of_not_changed {path : Path} (h : u.identityChanged path = false) :
    path.index = u.path.index := by
  simp only [Updater.identityChanged, Bool.or_eq_false_iff, decide_eq_false_iff_not, not_not] at h
  exact h.2.symm

theorem Told.update {path : Path} (h : Told u (.update path ::ₘ m)) :
    Told (u.update path).1 ((u.update path).2 + m) := by
  have halone := h.alone rfl
  have hm := h.of_cons ⟨by simp, by simp⟩
  unfold Updater.update
  split
  · simpa using hm
  · rw [coe_singleton, singleton_add]
    have hone : (Op.raise (u.flagsFor path) path.index ::ₘ m).countP (·.ofUpdate) ≤ 1 := by
      rw [countP_cons_of_pos (p := fun op : Op => op.ofUpdate = true) m rfl]
      omega
    have hraised : ∀ flags index, .raise flags index ∈ Op.raise (u.flagsFor path) path.index ::ₘ m →
        true = true ∧ index = path.index := by
      intro flags index hmem
      obtain heq | hmem := mem_cons.mp hmem
      · cases heq
        exact ⟨rfl, rfl⟩
      · exact absurd hmem (not_raise_of_alone halone flags index)
    have htell : (Op.raise (u.flagsFor path) path.index ::ₘ m).countP (·.isTell) ≤ 1 := by
      rw [countP_cons_of_neg _ nofun]
      exact hm.oneTell
    by_cases hc : u.initialized = true ∧ u.identityChanged path = true
    · -- the witness flag is among those to be raised
      have hwill : WillRaise (Op.raise (u.flagsFor path) path.index ::ₘ m) :=
        willRaise_cons_of_witness (by simp [Updater.flagsFor, hc])
      refine ⟨hone, hraised, nofun, fun index hmem => hm.tells index (mem_of_mem_cons_raise hmem),
        htell, fun _ _ => .inr hwill, fun index hi => ?_, fun _ _ => .inl hwill⟩
      simp only [hc, Bool.and_self, if_true, Option.some.injEq] at hi
      exact hi
    · have hnot : ¬ (u.initialized && u.identityChanged path) = true := by simpa using hc
      simp only [if_neg hnot]
      -- either the index stays, or nothing is on its way before the first update
      have hsame : u.initialized = false ∨ path.index = u.path.index := by
        by_cases hinit : u.initialized = true
        · exact .inr (index_eq_of_not_changed (by simpa [hinit] using hnot))
        · exact .inl (by simpa using hinit)
      refine ⟨hone, hraised, nofun, fun index hmem => hm.tells index (mem_of_mem_cons_raise hmem),
        htell, fun hp hr => ?_, fun index hi => ?_, fun index hi => ?_⟩
      · obtain hinit | heq := hsame
        · rw [(hm.fresh hinit).1] at hp
          cases hp
        · left
          rw [heq]
          exact (hm.pending hp hr).resolve_right (not_willRaise_of_alone halone)
      · obtain hinit | heq := hsame
        · rw [(hm.fresh hinit).2] at hi
          cases hi
        · rw [heq]
          exact hm.changed index hi
      · obtain hw | hp | hmem | ⟨hno, hw⟩ := hm.told index hi
        · exact absurd hw (not_willRaise_of_alone halone)
        · exact .inr (.inl hp)
        · exact .inr (.inr (.inl (mem_cons_of_mem hmem)))
        · exact .inr (.inr (.inr ⟨fun index' hmem => hno index' (mem_of_mem_cons_raise hmem), hw⟩))

/-- One flag less to raise. -/
theorem Told.raise {flag : Flag} (h : Told u (.raise (flag :: flags) index ::ₘ m)) :
    Told (u.owe flag) (.raise flags index ::ₘ m) := by
  have halone := h.alone rfl
  have hone : (Op.raise flags index ::ₘ m).countP (·.ofUpdate) ≤ 1 := by
    rw [countP_cons_of_pos (p := fun op : Op => op.ofUpdate = true) m rfl]
    omega
  have hself := h.raised _ _ (mem_cons_self _ _)
  have hraised : ∀ flags' index', .raise flags' index' ∈ Op.raise flags index ::ₘ m →
      u.initialized = true ∧ index' = u.path.index := by
    intro flags' index' hmem
    obtain heq | hmem := mem_cons.mp hmem
    · cases heq
      exact hself
    · exact absurd hmem (not_raise_of_alone halone flags' index')
  have htells : ∀ index', .tell index' ∈ Op.raise flags index ::ₘ m → u.telling = true :=
    fun index' hmem => h.tells index' (mem_cons_of_mem (mem_of_mem_cons_raise hmem))
  have htell : (Op.raise flags index ::ₘ m).countP (·.isTell) ≤ 1 := by
    have := h.oneTell
    rwa [countP_cons_of_neg _ nofun] at this ⊢
  by_cases hflag : flag = .witness
  · subst hflag
    refine ⟨hone, hraised, fun hinit => ?_, htells, htell, nofun, h.changed,
      fun _ _ => .inr (.inl rfl)⟩
    exact absurd (hself.1.symm.trans hinit) nofun
  · -- the witness flag is still among the others, if it was there
    have hwill : WillRaise (.raise (flag :: flags) index ::ₘ m) →
        WillRaise (.raise flags index ::ₘ m) := by
      rintro ⟨flags', index', hmem, hw⟩
      obtain heq | hmem := mem_cons.mp hmem
      · cases heq
        exact willRaise_cons_of_witness ((mem_cons.mp hw).resolve_left (Ne.symm hflag))
      · exact absurd hmem (not_raise_of_alone halone flags' index')
    have htold : Told u (.raise flags index ::ₘ m) := by
      refine ⟨hone, hraised, h.fresh, htells, htell, fun hp hr => (h.pending hp hr).imp_right hwill,
        h.changed, fun index' hc => ?_⟩
      obtain hw | hp | hmem | ⟨hno, hw⟩ := h.told index' hc
      · exact .inl (hwill hw)
      · exact .inr (.inl hp)
      · exact .inr (.inr (.inl (mem_cons_of_mem (mem_of_mem_cons_raise hmem))))
      · exact .inr (.inr (.inr ⟨fun i hmem =>
          hno i (mem_cons_of_mem (mem_of_mem_cons_raise hmem)), hw⟩))
    cases flag with
    | witness => exact absurd rfl hflag
    | flows | resolver =>
      exact { htold with }

/-- Nothing is left to raise, and the pending index is that of the path. -/
theorem Told.schedule (h : Told u (.raise [] index ::ₘ m)) :
    Told (u.schedule index).1 ((u.schedule index).2 + m) := by
  have halone := h.alone rfl
  have hself := h.raised _ _ (mem_cons_self _ _)
  have hwill : ¬ WillRaise (.raise [] index ::ₘ m) := by
    rintro ⟨flags, index', hmem, hw⟩
    obtain heq | hmem := mem_cons.mp hmem
    · cases heq
      cases hw
    · exact not_raise_of_alone halone flags index' hmem
  have htell : m.countP (·.isTell) ≤ 1 := by
    have := h.oneTell
    rwa [countP_cons_of_neg _ nofun] at this
  -- what the operation leaves behind, whatever the index becomes
  have hrest : ∀ pendingIndex, (u.pendingWitness = true → pendingIndex = u.path.index) →
      Told { u with pendingIndex := pendingIndex, raising := false } m := by
    intro pendingIndex hpending
    refine ⟨halone.trans_le (Nat.zero_le 1), fun flags index' hmem => ?_, h.fresh,
      fun index' hmem => h.tells index' (mem_cons_of_mem hmem), htell,
      fun hp _ => .inl (hpending hp), h.changed, fun index' hc => ?_⟩
    · exact absurd hmem (not_raise_of_alone halone flags index')
    · obtain hw | hp | hmem | ⟨hno, hw⟩ := h.told index' hc
      · exact absurd hw hwill
      · exact .inr (.inl hp)
      · exact .inr (.inr (.inl (mem_of_mem_cons_raise hmem)))
      · exact .inr (.inr (.inr ⟨fun i hmem => hno i (mem_cons_of_mem hmem), hw⟩))
  unfold Updater.schedule
  split
  · next hnot =>
    have hp : u.pendingWitness = false := by
      simp only [Updater.owes, Bool.not_eq_true, Bool.or_eq_false_iff] at hnot
      exact hnot.2
    simpa using hrest u.pendingIndex (by simp [hp])
  · rw [coe_singleton, singleton_add]
    have htold := (hrest index fun _ => hself.2).cons (.arm (u.settleGen + 1))
      ⟨by simp, by simp⟩
      (by rw [countP_cons_of_pos (p := fun op : Op => op.ofUpdate = true) m rfl]; omega)
    exact { htold with }

theorem Told.settle {gen : Nat} (hok : Undisturbed u (.settle gen))
    (h : Told u (.settle gen ::ₘ m)) : Told (u.settle gen).1 ((u.settle gen).2 + m) := by
  have hm := h.of_cons ⟨by simp, by simp⟩
  unfold Updater.settle
  split
  · simpa using hm
  · next hgen =>
    simp only [ne_eq, not_not] at hgen
    cases hp : u.pendingWitness with
    | false =>
      simp only [Bool.or_false, Bool.false_eq_true, if_false, coe_nil, zero_add]
      refine { hm with
        fresh := fun hinit => ⟨rfl, (hm.fresh hinit).2⟩, pending := nofun,
        told := fun index hc => ?_ }
      exact (hm.told index hc).imp_right fun h => .inr (h.resolve_left (by simp [hp]))
    | true =>
      -- nothing cuts in here, so that the pending index is that of the last change
      obtain ⟨hraising, htelling⟩ := hok hgen hp
      have hno : ∀ index, .tell index ∉ m := fun index hmem =>
        absurd (hm.tells index hmem) (by simp [htelling])
      simp only [Bool.or_true, if_true, coe_singleton, singleton_add]
      refine ⟨?_, fun flags index hmem => ?_, fun hinit => ⟨rfl, (hm.fresh hinit).2⟩, fun _ _ => rfl,
        ?_, nofun, hm.changed, fun index hc => ?_⟩
      · rw [countP_cons_of_neg _ nofun]
        exact hm.one
      · exact hm.raised flags index ((mem_cons.mp hmem).resolve_left nofun)
      · rw [countP_cons_of_pos (p := fun op : Op => op.isTell = true) m rfl,
          Multiset.countP_eq_zero.mpr fun op hmem htell => ?_]
        cases op with
        | tell index => exact hno index hmem
        | _ => cases htell
      · obtain heq | ⟨flags, index', hmem, hw⟩ := hm.pending hp hraising
        · rw [heq, hm.changed index hc]
          exact .inr (.inr (.inl (mem_cons_self _ _)))
        · exact .inl ⟨flags, index', mem_cons_of_mem hmem, hw⟩

theorem Told.tell (h : Told u (.tell index ::ₘ m)) :
    Told { u with witnessed := some index, telling := false } m := by
  have hnone : m.countP (·.isTell) = 0 := by
    have := h.oneTell
    rw [countP_cons_of_pos (p := fun op : Op => op.isTell = true) m rfl] at this
    omega
  have hno : ∀ index, .tell index ∉ m := fun index hmem => countP_eq_zero.mp hnone _ hmem rfl
  have hwill : WillRaise (.tell index ::ₘ m) → WillRaise m := fun ⟨flags, index', hmem, hw⟩ =>
    ⟨flags, index', (mem_cons.mp hmem).resolve_left nofun, hw⟩
  refine ⟨?_, fun flags index' hmem => h.raised flags index' (mem_cons_of_mem hmem), h.fresh,
    fun index' hmem => absurd hmem (hno index'), Nat.le_succ_of_le (le_of_eq hnone),
    fun hp hr => (h.pending hp hr).imp_right hwill, h.changed, fun index' hc => ?_⟩
  · have := h.one
    rwa [countP_cons_of_neg _ nofun] at this
  · obtain hw | hp | hmem | ⟨hnot, -⟩ := h.told index' hc
    · exact .inl (hwill hw)
    · exact .inr (.inl hp)
    · obtain heq | hmem := mem_cons.mp hmem
      · cases heq
        exact .inr (.inr (.inr ⟨hno, rfl⟩))
      · exact absurd hmem (hno index')
    · exact absurd (mem_cons_self _ _) (hnot index)

theorem Told.exec (hok : Undisturbed u op) (h : Told u (op ::ₘ m)) :
    Told (exec op u).1 ((exec op u).2 + m) := by
  match op with
  | .update path => exact h.update
  | .raise (flag :: flags) index => exact h.raise
  | .raise [] index => exact h.schedule
  | .arm gen =>
    have halone := h.alone rfl
    have htold := (h.of_cons ⟨by simp, by simp⟩).cons (.keep gen) ⟨by simp, by simp⟩
      (by rw [countP_cons_of_pos (p := fun op : Op => op.ofUpdate = true) m rfl]; omega)
    exact { htold with }
  | .keep gen =>
    have hm := h.of_cons ⟨by simp, by simp⟩
    simp only [PathSettle.exec, coe_nil, zero_add]
    split
    · exact { hm with }
    · exact hm
  | .fire gen =>
    have hm := h.of_cons ⟨by simp, by simp⟩
    simp only [PathSettle.exec]
    split
    · have htold := hm.cons (.settle gen) ⟨by simp, by simp⟩
        (by rw [countP_cons_of_neg _ nofun]; exact hm.one)
      exact { htold with }
    · simpa using hm
  | .settle gen => exact h.settle hok
  | .tell index => simpa [PathSettle.exec] using h.tell

end Steps

theorem Told.invariant : Invariant system Undisturbed Told where
  start := by
    rintro u ts t (⟨path, hops, hfree⟩ | ⟨gen, hops⟩) h
    · -- no other update has begun and not ended
      rw [hops, coe_singleton, singleton_add]
      refine h.cons _ ⟨by simp, by simp⟩ ?_
      rw [countP_cons_of_pos (p := fun op : Op => op.ofUpdate = true) _ rfl,
        Multiset.countP_eq_zero.mpr fun op hmem => ?_]
      obtain ⟨t', ht', hop⟩ := mem_pending.mp hmem
      exact hfree t' ht' op hop
    · rw [hops, coe_singleton, singleton_add]
      refine h.cons _ ⟨by simp, by simp⟩ ?_
      rw [countP_cons_of_neg _ nofun]
      exact h.one
  exec hok h := h.exec hok

theorem told_newUpdater : Told newUpdater 0 :=
  ⟨by simp, by simp, fun _ => ⟨rfl, rfl⟩, by simp, by simp, nofun, nofun, nofun⟩

/-- When nothing runs and no timer is armed, no flag is set, whatever the schedule was; and if no
settle has cut into an update or overtaken another settle, the last index the witness was told is
that of the last update that changed the interface. -/
theorem settled_of_undisturbed (u : Updater) (htimers : u.timers = []) :
    (Runs system (fun _ _ => True) (newUpdater, []) (u, []) → u.owes = false) ∧
      (Runs system Undisturbed (newUpdater, []) (u, []) → Settled u) := by
  have hflags : ∀ Ok, Runs system Ok (newUpdater, []) (u, []) → u.owes = false := by
    intro Ok hrun
    have howed : Owed u 0 := hrun.invariant (Owed.invariant Ok) nofun
    by_contra hne
    obtain h | h | h | ⟨flags, index, h⟩ := howed (by simpa using hne)
    · rw [htimers] at h
      cases h
    · exact notMem_zero _ h
    · exact notMem_zero _ h
    · exact notMem_zero _ h
  refine ⟨hflags _, fun hrun => ⟨hflags _ hrun, fun index hc => ?_⟩⟩
  have hno := hflags _ hrun
  have htold : Told u 0 := hrun.invariant Told.invariant told_newUpdater
  obtain ⟨flags, index', h, -⟩ | hp | h | ⟨-, hw⟩ := htold.told index hc
  · exact absurd h (notMem_zero _)
  · simp [Updater.owes, hp] at hno
  · exact absurd h (notMem_zero _)
  · exact hw

/-! ### Two interfaces -/

def wifi : Path := ⟨lit "en0", 1, false, false, true, true⟩

def cellular : Path := ⟨lit "pdp_ip0", 2, true, false, true, true⟩

/-- The state after the first update. -/
def onWifi : Updater :=
  ⟨true, wifi, 1, some 1, false, true, false, 1, [1], none, none, false, false⟩

theorem runs_onWifi {Ok : Updater → Op → Prop}
    (hok : RunsOk system Ok (List.replicate 5 ()) [.update wifi] newUpdater) :
    Runs system Ok (newUpdater, []) (onWifi, []) :=
  Runs.thread (k := ()) (.replicate 5 ()) (.inl ⟨wifi, rfl, nofun⟩) hok rfl

/-- The timer of the first update fires after the second has raised its flag and before it has
scheduled: the flag goes with the old index, and the new one is never told. -/
theorem witness_misses_cellular :
    ∃ u, Runs system (fun _ _ => True) (newUpdater, []) (u, []) ∧ u.timers = [] ∧
      u.changedTo = some 2 ∧ u.witnessed = some 1 := by
  have hfirst : Runs system (fun _ _ => True) (newUpdater, []) (onWifi, []) :=
    runs_onWifi (runsOk_of_forall (fun _ _ => trivial) _ _ _)
  have hsecond : Runs system (fun _ _ => True) (onWifi, []) _ :=
    Runs.interrupted (k := ()) (l := ()) (.replicate 3 ()) (.replicate 3 ()) (.replicate 4 ())
      (fun _ _ => trivial) (.inl ⟨cellular, rfl, nofun⟩) rfl (.inr ⟨1, rfl⟩) rfl rfl
  exact ⟨_, (hfirst.trans hsecond).trans (Runs.thread (k := ()) (.replicate 2 ())
    (.inr ⟨2, rfl⟩) (runsOk_of_forall (fun _ _ => trivial) _ _ _) rfl), rfl, rfl, rfl⟩

/-- With the timers fired in between, the witness is told of the second interface. -/
theorem settled_on_cellular : ∃ u, Settled u ∧ u.changedTo = some 2 ∧ u.witnessed = some 2 := by
  have hfirst : Runs system Undisturbed (newUpdater, []) (onWifi, []) :=
    runs_onWifi ⟨trivial, trivial, trivial, trivial, trivial, trivial⟩
  have hfire : Runs system Undisturbed (onWifi, []) _ :=
    Runs.thread (k := ()) (.replicate 2 ()) (.inr ⟨1, rfl⟩) ⟨trivial, nofun, trivial⟩ rfl
  have hsecond := hfire.trans (Runs.thread (k := ()) (.replicate 7 ())
    (.inl ⟨cellular, rfl, nofun⟩)
    ⟨trivial, trivial, trivial, trivial, trivial, trivial, trivial, trivial⟩ rfl)
  have hlast := hsecond.trans (Runs.thread (k := ()) (.replicate 3 ()) (.inr ⟨2, rfl⟩)
    ⟨trivial, fun _ _ => ⟨rfl, rfl⟩, trivial, trivial⟩ rfl)
  exact ⟨_, (settled_of_undisturbed _ rfl).2 (hfirst.trans hlast), rfl, rfl⟩

end Hako.PathSettle
