import Hako.Multiplex.Pair

/-!
# What is read is what was written

A state of both sessions is seen, for each id, as a pair of streams with the frames between them.
Every event changes one such pair at most, and keeps it sound as long as only the client opens
streams. A server that opens one takes an id that the client takes too.
-/

namespace Hako.Multiplex

open GoLib List Function Nat

/-! ### States -/

/-- The frame that a read loop has still to deal with. -/
def Loop.holding : Loop → List Frame
  | .dispatch f | .register f | .enqueue _ f | .closeRemoteWrite _ f | .closeNoSend _ f => [f]
  | _ => []

/-- The frames on their way to a side. -/
def State.incoming (st : State) (s : Side) : List Frame := (st.loop s).holding ++ st.inbound s

/-- What a state has under one id. -/
def State.pair (st : State) (id : Nat) : Pair where
  stream s := st.streams ⟨s, s.own, id⟩
  table s := st.table (s, id)
  frames s := (st.incoming s).filter (·.id = id)

/-- What the read loop of a side knows of the stream it is at work on. -/
def Loop.Sound (s : Side) (stream : Nat → Stream) : Loop → Prop
  | .idle | .dispatch _ => True
  | .register f => s = .server ∧ f.id ≠ 0 ∧ f.type = .openStream
  | .enqueue origin f => origin = s.own ∧ f.id ≠ 0 ∧ f.type = .data ∧ f.payload ≠ [] ∧
      (stream f.id).Made
  | .closeRemoteWrite origin f => origin = s.own ∧ f.id ≠ 0 ∧ f.type = .close ∧ (stream f.id).Made
  | .closeNoSend origin f => origin = s.own ∧ f.id ≠ 0 ∧ f.type ≠ .openStream ∧ (stream f.id).Made
  | .remove origin id _ => origin = s.own ∧ id ≠ 0 ∧ Pair.Active s (stream id) ∧
      (stream id).Flagged
  | .reset _ _ | .resetClose _ => False

/-- What every run keeps in which only the client opens streams. -/
structure Invariant (st : State) : Prop where
  pair : ∀ id, id ≠ 0 → (st.pair id).Sound
  /-- The id of keepalives is no stream's. -/
  zero : ∀ s, st.table (s, 0) = none ∧ ∀ f ∈ st.incoming s, f.id = 0 → f.type = .data
  foreign : ∀ ref, ref.origin ≠ ref.side.own ∨ ref.id = 0 → st.streams ref = newStream
  fresh : ∀ id, st.nextID .client < id → st.streams ⟨.client, .opened, id⟩ = newStream
  loop : ∀ s, (st.loop s).Sound s fun id => st.streams ⟨s, s.own, id⟩

variable {c : Stream} {st : State}

theorem Stream.step_newStream (call : Call) : newStream.step call = (newStream, .nothing) := by
  cases call <;> rfl

/-- What a section never undoes. -/
structure Stream.Grows (c c' : Stream) : Prop where
  made : c.Made → c'.Made
  flagged : c.Flagged → c'.Flagged
  active : ∀ s, Pair.Active s c → Pair.Active s c'

variable {c' : Stream}

theorem Stream.Grows.of_stage (hstage : c'.stage = c.stage)
    (hflag : c.Flagged → c'.Flagged) : c.Grows c' := by
  refine ⟨(Pair.Sound.made_congr hstage).mpr, hflag, fun s => ?_⟩
  rw [Pair.Active, Pair.Active, hstage]
  exact id

theorem Stream.Grows.newStream (c : Stream) : Multiplex.newStream.Grows c := by
  refine ⟨fun hmade => absurd rfl hmade.1, ?_, ?_⟩
  · rintro (hclosed | hread | hremote)
    · cases hclosed
    · cases hread
    · cases hremote
  · rintro s (hhanded | ⟨-, habsent⟩)
    · cases hhanded
    · exact absurd rfl habsent

theorem Stream.Reads.grows (h : c.Reads c') : c.Grows c' := .of_stage h.stage h.flagged

open State Multiplex.Stream

theorem Stream.Grows.openNext (c : Stream) : c.Grows c.openNext.1 := by
  have hmoves : ∀ {c' : Stream}, c.stage ≠ .handed → c'.Made → (c.Flagged → c'.Flagged) →
      c.Grows c' := fun hne hmade hflag =>
    ⟨fun _ => hmade, hflag, fun s h => .inr ⟨(h.resolve_left hne).1, hmade.1⟩⟩
  unfold Stream.openNext
  split
  · next hstage => exact hmoves (hstage ▸ nofun) ⟨nofun, nofun⟩ id
  · next hstage =>
    split
    · exact hmoves (hstage ▸ nofun) ⟨nofun, nofun⟩ id
    · exact hmoves (hstage ▸ nofun) ⟨nofun, nofun⟩ id
  · next hstage => exact hmoves (hstage ▸ nofun) ⟨nofun, nofun⟩ fun _ => flagged_closeNoSend _ _
  · next hstage => exact hmoves (hstage ▸ nofun) ⟨nofun, nofun⟩ id
  · exact .of_stage rfl id

theorem Stream.Sound.grows (h : c.Sound) (call : Call) : c.Grows (c.step call).1 := by
  have hsame : c.Grows c := .of_stage rfl id
  have hcall : ∀ {c' : Stream}, c.Reads c' → c.Grows (if c.stage = .handed then c' else c) :=
    fun hreads => iteInduction (fun _ => hreads.grows) fun _ => hsame
  cases call with
  | read size => exact hcall (Reads.read h size)
  | write q => exact hcall (Reads.write c q)
  | close => exact hcall (Reads.close c)
  | closeWrite => exact hcall (Reads.closeWrite c)
  | closeRead => exact hcall (Reads.closeRead c)
  | proceed =>
    rw [Stream.step, Stream.proceed]
    split <;> exact .of_stage rfl id
  | remove =>
    rw [Stream.step]
    split <;> exact .of_stage rfl id
  | reset =>
    rw [Stream.step, Stream.sendReset]
    split <;> exact .of_stage rfl id
  | openStream => exact .openNext c
  | accept =>
    rw [Stream.step]
    split
    · exact ⟨fun _ => ⟨by simp, by simp⟩, id, fun s _ => .inl rfl⟩
    · exact hsame

theorem Loop.Sound.mono {s : Side} {stream stream' : Nat → Stream} {l : Loop}
    (h : l.Sound s stream) (hgrows : ∀ id, (stream id).Grows (stream' id)) : l.Sound s stream' := by
  cases l with
  | idle | dispatch f | register f | reset id msg | resetClose id => exact h
  | enqueue origin f => exact ⟨h.1, h.2.1, h.2.2.1, h.2.2.2.1, (hgrows _).made h.2.2.2.2⟩
  | closeRemoteWrite origin f | closeNoSend origin f =>
    exact ⟨h.1, h.2.1, h.2.2.1, (hgrows _).made h.2.2.2⟩
  | remove origin id overflow =>
    exact ⟨h.1, h.2.1, (hgrows _).active s h.2.2.1, (hgrows _).flagged h.2.2.2⟩

theorem Loop.Sound.setLoop {stream : Side → Nat → Stream} {s : Side} {l : Loop}
    (h : l.Sound s (stream s)) (hloop : ∀ t, t ≠ s → (st.loop t).Sound t (stream t)) (t : Side) :
    ((st.setLoop s l).loop t).Sound t (stream t) := by
  by_cases hts : t = s
  · subst hts
    simpa only [State.setLoop, update_self] using h
  · simpa only [State.setLoop, update_of_ne hts] using hloop t hts

/-! ### How the pairs change -/

namespace State

variable (st : State) (s t : Side) (id id' : Nat) (c : Stream) (out : Output) (ref : Ref)

@[simp] theorem output_streams : (st.output ref out).streams = st.streams := by
  obtain ⟨frame, table⟩ := out
  cases frame <;> cases table <;> rfl

@[simp] theorem output_loop : (st.output ref out).loop = st.loop := by
  obtain ⟨frame, table⟩ := out
  cases frame <;> cases table <;> rfl

@[simp] theorem output_nextID : (st.output ref out).nextID = st.nextID := by
  obtain ⟨frame, table⟩ := out
  cases frame <;> cases table <;> rfl

theorem output_table : (st.output ref out).table =
    match out.table with
    | some entry => update st.table (ref.side, ref.id) entry
    | none => st.table := by
  obtain ⟨frame, table⟩ := out
  cases frame <;> cases table <;> rfl

theorem output_inbound : (st.output ref out).inbound =
    match out.frame with
    | some (type, payload) => update st.inbound ref.side.peer
        (st.inbound ref.side.peer ++ [⟨type, ref.id, payload⟩])
    | none => st.inbound := by
  obtain ⟨frame, table⟩ := out
  cases frame <;> cases table <;> rfl

/-- Under its own id, a section acts on the pair. -/
theorem pair_output_self :
    ((st.setStream ⟨s, s.own, id⟩ c).output ⟨s, s.own, id⟩ out).pair id =
      (st.pair id).act id s c out := by
  ext t
  · simp only [pair, output_streams, setStream, Pair.act]
    by_cases hts : t = s
    · subst hts
      rw [update_self, update_self]
    · rw [update_of_ne hts, update_of_ne]
      exact fun href => hts (Ref.mk.inj href).1
  · simp only [pair, output_table, setStream, Pair.act]
    cases out.table with
    | none => rfl
    | some entry =>
      by_cases hts : t = s
      · subst hts
        simp
      · simp [update_of_ne hts, update_of_ne fun h => hts (Prod.mk.inj h).1]
  · simp only [pair, incoming, output_inbound, output_loop, setStream, Pair.act]
    cases out.frame with
    | none => rfl
    | some frame =>
      obtain ⟨type, payload⟩ := frame
      by_cases hts : t = s.peer
      · subst hts
        simp
      · simp [update_of_ne hts]

/-- It leaves the pairs of the other ids alone. -/
theorem pair_output_ne (hne : id' ≠ id) :
    ((st.setStream ⟨s, s.own, id⟩ c).output ⟨s, s.own, id⟩ out).pair id' = st.pair id' := by
  ext t
  · simp only [pair, output_streams, setStream]
    rw [update_of_ne fun href => hne (Ref.mk.inj href).2.2]
  · simp only [pair, output_table, setStream]
    cases out.table with
    | none => rfl
    | some entry => simp [update_of_ne fun h => hne (Prod.mk.inj h).2]
  · simp only [pair, incoming, output_inbound, output_loop, setStream]
    cases out.frame with
    | none => rfl
    | some frame =>
      obtain ⟨type, payload⟩ := frame
      by_cases hts : t = s.peer
      · subst hts
        simp [hne.symm]
      · simp [update_of_ne hts]

end State

namespace Invariant

variable {st : State}

theorem link_newStream_newStream : Link newStream newStream [] :=
  ⟨List.nil_prefix, fun hlive => absurd hlive not_live_newStream, nofun, nofun, nofun,
    nofun⟩

theorem start : Invariant start := by
  refine ⟨fun id _ => ?_, fun s => ⟨rfl, nofun⟩, fun _ _ => rfl, fun _ _ => rfl, fun _ => trivial⟩
  exact Pair.Sound.of_unopened rfl (fun _ => rfl) rfl sound_newStream nofun rfl
    link_newStream_newStream nofun fun hmade => absurd rfl hmade.1

variable (h : Invariant st)
include h

variable {s : Side}

/-- A section on a stream keeps everything but the pair of its id as it is. -/
theorem output {id : Nat} (hid : id ≠ 0) {c : Stream} {out : Output}
    (hpair : ((st.pair id).act id s c out).Sound) (hgrows : (st.streams ⟨s, s.own, id⟩).Grows c)
    (hfresh : st.nextID .client < id → st.streams ⟨s, s.own, id⟩ = newStream → c = newStream) :
    Invariant ((st.setStream ⟨s, s.own, id⟩ c).output ⟨s, s.own, id⟩ out) := by
  refine ⟨?_, ?_, ?_, ?_, ?_⟩
  · intro id' hid'
    by_cases heq : id' = id
    · subst heq
      rwa [pair_output_self]
    · rw [pair_output_ne _ _ _ _ _ _ heq]
      exact h.pair id' hid'
  · intro t
    obtain ⟨htable, hframes⟩ := h.zero t
    constructor
    · rw [output_table]
      cases out.table with
      | none => exact htable
      | some entry =>
        simp only
        rw [update_of_ne fun heq => hid (Prod.mk.inj heq).2.symm]
        exact htable
    · intro f hf hzero
      rw [incoming, output_inbound, output_loop] at hf
      cases hframe : out.frame with
      | none =>
        rw [hframe] at hf
        exact hframes f hf hzero
      | some frame =>
        obtain ⟨type, payload⟩ := frame
        rw [hframe] at hf
        simp only at hf
        by_cases hts : t = s.peer
        · subst hts
          rw [update_self, ← append_assoc, mem_append, mem_singleton] at hf
          obtain hf | rfl := hf
          · exact hframes f hf hzero
          · exact absurd hzero hid
        · rw [update_of_ne hts] at hf
          exact hframes f hf hzero
  · intro ref href
    rw [output_streams]
    refine (update_of_ne ?_ _ _).trans (h.foreign ref href)
    rintro rfl
    exact href.elim (fun hne => hne rfl) hid
  · intro id' hid'
    rw [output_nextID] at hid'
    rw [output_streams]
    have hnew := h.fresh id' hid'
    by_cases heq : (⟨.client, .opened, id'⟩ : Ref) = ⟨s, s.own, id⟩
    · rw [setStream]
      simp only
      rw [heq, update_self]
      rw [heq] at hnew
      rw [(Ref.mk.inj heq).2.2] at hid'
      exact hfresh hid' hnew
    · exact (update_of_ne heq _ _).trans hnew
  · intro t
    rw [output_loop, output_streams, setStream]
    refine (h.loop t).mono fun id' => ?_
    simp only
    by_cases heq : (⟨t, t.own, id'⟩ : Ref) = ⟨s, s.own, id⟩
    · rw [heq, update_self]
      exact hgrows
    · rw [update_of_ne heq]
      exact .of_stage rfl fun hflag => hflag

theorem call (ref : Ref) (call : Call) : Invariant (st.call ref call) := by
  by_cases hforeign : ref.origin ≠ ref.side.own ∨ ref.id = 0
  · have hnew := h.foreign ref hforeign
    have hsame : st.call ref call = st := by
      rw [State.call, hnew, step_newStream, ← hnew]
      simp [State.setStream, State.output, Output.nothing]
    rw [hsame]
    exact h
  · obtain ⟨s, o, id⟩ := ref
    rw [not_or, ne_eq, not_not] at hforeign
    obtain ⟨howner, hid⟩ := hforeign
    obtain rfl : o = s.own := howner
    have hsound : (st.streams ⟨s, s.own, id⟩).Sound := (h.pair id hid).sound s
    exact h.output hid ((h.pair id hid).call id s call) (hsound.grows call)
      fun _ hnew => by rw [hnew, step_newStream]

/-- The read loop moves on, and nothing else changes. -/
theorem of_incoming {st' : State} (hstreams : st'.streams = st.streams)
    (htable : st'.table = st.table) (hnext : st'.nextID = st.nextID)
    (hincoming : ∀ s, st'.incoming s = st.incoming s) (hloop : ∀ s, (st'.loop s).Sound s
      fun id => st.streams ⟨s, s.own, id⟩) :
    Invariant st' := by
  have hpair : ∀ id, st'.pair id = st.pair id := by
    intro id
    rw [State.pair, State.pair, hstreams, htable]
    simp only [hincoming]
  refine ⟨fun id hid => ?_, fun s => ?_, ?_, ?_, hstreams ▸ hloop⟩
  · rw [hpair]
    exact h.pair id hid
  · rw [htable, hincoming]
    exact h.zero s
  · rw [hstreams]
    exact h.foreign
  · rw [hstreams, hnext]
    exact h.fresh

theorem setLoop {l : Loop} (hl : l.holding = (st.loop s).holding)
    (hsound : l.Sound s fun id => st.streams ⟨s, s.own, id⟩) : Invariant (st.setLoop s l) := by
  refine h.of_incoming rfl rfl rfl (fun t => ?_) (.setLoop hsound fun t _ => h.loop t)
  rw [State.incoming, State.incoming, State.setLoop]
  by_cases hts : t = s
  · subst hts
    simp only [update_self, hl]
  · simp only [update_of_ne hts]

end Invariant

section Receive

variable {st : State} {s : Side} {f : Frame} {l : Loop}

theorem State.frames_cons (hhold : (st.loop s).holding = [f]) :
    (st.pair f.id).frames s = f :: (st.inbound s).filter (·.id = f.id) := by
  simp [pair, incoming, hhold]

variable (c : Stream) (entry : Option (Option Origin))

/-- What the read loop does with the frame in its hand. -/
def State.handle (st : State) (s : Side) (id : Nat) (c : Stream) (entry : Option (Option Origin))
    (l : Loop) : State :=
  ((st.setStream ⟨s, s.own, id⟩ c).output ⟨s, s.own, id⟩ ⟨none, entry⟩).setLoop s l

theorem State.handle_incoming (hl : l.holding = []) (t : Side) :
    (st.handle s f.id c entry l).incoming t = if t = s then st.inbound s else st.incoming t := by
  rw [handle, incoming, setLoop]
  simp only [output_loop, output_inbound]
  by_cases hts : t = s
  · subst hts
    simp [hl, setStream]
  · simp [hts, incoming, setStream]

theorem State.pair_handle_self (hl : l.holding = []) :
    (st.handle s f.id c entry l).pair f.id =
      (st.pair f.id).receive s c entry ((st.inbound s).filter (·.id = f.id)) := by
  have hout := st.pair_output_self s f.id c ⟨none, entry⟩
  ext t : 2
  · exact congrFun (congrArg Pair.stream hout) t
  · exact congrFun (congrArg Pair.table hout) t
  · rw [pair]
    simp only [handle_incoming c entry hl, Pair.receive]
    by_cases hts : t = s
    · subst hts
      rw [if_pos rfl, update_self]
    · rw [if_neg hts, update_of_ne hts]
      rfl

theorem State.pair_handle_ne (hhold : (st.loop s).holding = [f]) (hl : l.holding = []) {id : Nat}
    (hne : id ≠ f.id) : (st.handle s f.id c entry l).pair id = st.pair id := by
  have hout := st.pair_output_ne s f.id id c ⟨none, entry⟩ hne
  ext t : 2
  · exact congrFun (congrArg Pair.stream hout) t
  · exact congrFun (congrArg Pair.table hout) t
  · rw [pair, pair]
    simp only [handle_incoming c entry hl]
    by_cases hts : t = s
    · subst hts
      rw [if_pos rfl, incoming, hhold]
      simp [hne.symm]
    · rw [if_neg hts]

/-- The read loop is done with the frame in its hand. -/
theorem Invariant.handle (h : Invariant st) (hhold : (st.loop s).holding = [f])
    (hl : l.holding = []) {c : Stream} {entry : Option (Option Origin)} (hpair : f.id ≠ 0 →
      ((st.pair f.id).receive s c entry ((st.inbound s).filter (·.id = f.id))).Sound)
    (hzero : f.id = 0 → c = newStream ∧ entry = none)
    (hgrows : (st.streams ⟨s, s.own, f.id⟩).Grows c)
    (hsound : l.Sound s fun id => update st.streams ⟨s, s.own, f.id⟩ c ⟨s, s.own, id⟩) :
    Invariant (st.handle s f.id c entry l) := by
  have hstreams : ∀ ref, (st.handle s f.id c entry l).streams ref =
      update st.streams ⟨s, s.own, f.id⟩ c ref := by
    intro ref
    rw [State.handle, State.setLoop]
    simp only [output_streams]
    rfl
  refine ⟨?_, ?_, ?_, ?_, ?_⟩
  · intro id hid
    by_cases heq : id = f.id
    · subst heq
      rw [pair_handle_self c entry hl]
      exact hpair hid
    · rw [pair_handle_ne c entry hhold hl heq]
      exact h.pair id hid
  · intro t
    constructor
    · have htable : (st.handle s f.id c entry l).table (t, 0) =
          ((st.setStream ⟨s, s.own, f.id⟩ c).output ⟨s, s.own, f.id⟩ ⟨none, entry⟩).table (t, 0) :=
        rfl
      rw [htable, output_table]
      cases entry with
      | none => exact (h.zero t).1
      | some entry =>
        simp only
        rw [update_of_ne]
        · exact (h.zero t).1
        · intro heq
          exact absurd (hzero (Prod.mk.inj heq).2.symm).2 nofun
    · intro g hg
      rw [handle_incoming c entry hl] at hg
      split at hg
      · next hts =>
        subst hts
        exact (h.zero t).2 g (mem_append_right _ hg)
      · exact (h.zero t).2 g hg
  · intro ref href
    rw [hstreams]
    by_cases heq : ref = ⟨s, s.own, f.id⟩
    · rw [heq, update_self]
      rw [heq] at href
      exact (hzero (href.resolve_left fun hne => hne rfl)).1
    · rw [update_of_ne heq]
      exact h.foreign ref href
  · intro id hid
    have hnext : (st.handle s f.id c entry l).nextID = st.nextID := by
      rw [State.handle, State.setLoop]
      simp only [output_nextID]
      rfl
    rw [hnext] at hid
    rw [hstreams]
    have hnew := h.fresh id hid
    by_cases heq : (⟨.client, .opened, id⟩ : Ref) = ⟨s, s.own, f.id⟩
    · -- no frame comes for a stream that is not open
      obtain rfl : s = .client := (Ref.mk.inj heq).1.symm
      obtain rfl : id = f.id := (Ref.mk.inj heq).2.2
      have hne : ((st.pair f.id).stream .client).stage ≠ .handed := by
        rw [show (st.pair f.id).stream .client = newStream from hnew]
        nofun
      have hnone := ((h.pair f.id (ne_zero_of_lt hid)).unopened hne).2.1
      rw [frames_cons hhold] at hnone
      cases hnone
    · rw [update_of_ne heq]
      exact hnew
  · simp only [hstreams]
    refine .setLoop hsound fun t hts => ?_
    rw [output_loop]
    refine (h.loop t).mono fun id => ?_
    rw [update_of_ne fun heq => hts (Ref.mk.inj heq).1]
    exact .of_stage rfl fun hflag => hflag

end Receive

namespace Invariant

variable {st : State} {s : Side} {f : Frame} {origin : Origin} {c : Stream}

section

variable (h : Invariant st)
include h

/-- A frame in the hand of the read loop comes only when the client has opened its stream. -/
theorem active_of_made (hhold : (st.loop s).holding = [f]) (hid : f.id ≠ 0)
    (hmade : (st.streams ⟨s, s.own, f.id⟩).Made) : Pair.Active s (st.streams ⟨s, s.own, f.id⟩) := by
  cases s with
  | server => exact .inr ⟨rfl, hmade.1⟩
  | client =>
    refine .inl ?_
    by_contra hne
    have hnone := ((h.pair f.id hid).unopened hne).2.1
    rw [frames_cons hhold] at hnone
    cases hnone

/-- The read loop ignores a frame. -/
theorem skip (hhold : (st.loop s).holding = [f]) (hf : f.type ≠ .openStream)
    (hskip : st.table (s, f.id) = none ∨ f.type = .data ∧ f.payload = []) :
    Invariant (st.setLoop s .idle) := by
  have hsame : st.setLoop s .idle =
      st.handle s f.id (st.streams ⟨s, s.own, f.id⟩) none .idle := by
    rw [State.handle, State.output, State.setStream, update_eq_self]
  have hstream : ∀ t, (st.pair f.id).stream t = st.streams ⟨t, t.own, f.id⟩ := fun _ => rfl
  rw [hsame]
  refine h.handle hhold rfl ?_ (fun hzero => ⟨h.foreign _ (.inr hzero), rfl⟩)
    (.of_stage rfl fun hflag => hflag) trivial
  intro hid
  have hp := h.pair f.id hid
  have hlink := hp.link s
  rw [frames_cons hhold] at hlink
  refine hp.receive (frames_cons hhold) rfl (hp.sound s) (hlink.skip hf ?_)
    (hp.link_peer s) (fun hflag => hflag) fun _ => rfl
  refine hskip.imp_left fun hnone hlive => ?_
  exact hlive.2 (hp.gone s hlive.1 hnone)

theorem facts {l : Loop} (hloop : st.loop s = l) : l.Sound s fun id => st.streams ⟨s, s.own, id⟩ :=
  hloop ▸ h.loop s

/-- What is known of the stream that the read loop has found. -/
theorem found (hentry : st.table (s, f.id) = some origin) :
    origin = s.own ∧ f.id ≠ 0 ∧ (st.streams ⟨s, s.own, f.id⟩).Made := by
  have hid : f.id ≠ 0 := by
    intro hzero
    rw [hzero, (h.zero s).1] at hentry
    cases hentry
  exact ⟨((h.pair f.id hid).table s origin hentry).1, hid,
    ((h.pair f.id hid).table s origin hentry).2⟩

theorem dispatch (hloop : st.loop s = .dispatch f) :
    Invariant (st.dispatch s f) := by
  have hhold : (st.loop s).holding = [f] := by rw [hloop]; rfl
  have hmem : f ∈ st.incoming s := by
    rw [incoming, hhold]
    exact mem_append_left _ mem_cons_self
  unfold State.dispatch
  split
  · next htype =>
    have hid : f.id ≠ 0 := by
      intro hzero
      rw [(h.zero s).2 f hmem hzero] at htype
      cases htype
    have hp := h.pair f.id hid
    have hin : f ∈ (st.pair f.id).frames s := by
      rw [frames_cons hhold]
      exact mem_cons_self
    cases s with
    | client => exact absurd htype (hp.noOpen f hin)
    | server =>
      -- the server has no stream yet
      have hnew := ((hp.link .server).opening f hin htype).1
      have hnone : st.table (.server, f.id) = none := by
        cases hentry : st.table (.server, f.id) with
        | none => rfl
        | some origin =>
          have hmade := (h.found hentry).2.2
          rw [show st.streams ⟨.server, Side.server.own, f.id⟩ = newStream from hnew] at hmade
          exact absurd rfl hmade.1
      rw [if_neg nofun, if_neg hid, hnone, if_neg nofun]
      exact h.setLoop hhold.symm ⟨rfl, hid, htype⟩
  · next htype =>
    have hne : f.type ≠ .openStream := by rw [htype]; nofun
    split
    · next hnone => exact h.skip hhold hne (.inl hnone)
    · next origin hentry =>
      split
      · next hempty => exact h.skip hhold hne (.inr ⟨htype, hempty⟩)
      · next hpayload =>
        obtain ⟨horigin, hid, hmade⟩ := h.found hentry
        exact h.setLoop hhold.symm ⟨horigin, hid, htype, hpayload, hmade⟩
  · next htype =>
    have hne : f.type ≠ .openStream := by rw [htype]; nofun
    split
    · next hnone => exact h.skip hhold hne (.inl hnone)
    · next origin hentry =>
      obtain ⟨horigin, hid, hmade⟩ := h.found hentry
      exact h.setLoop hhold.symm ⟨horigin, hid, htype, hmade⟩
  · next htype =>
    have hne : f.type ≠ .openStream := by rw [htype]; nofun
    split
    · next hnone => exact h.skip hhold hne (.inl hnone)
    · next origin hentry =>
      obtain ⟨horigin, hid, hmade⟩ := h.found hentry
      exact h.setLoop hhold.symm ⟨horigin, hid, hne, hmade⟩

/-- A stream takes what the frame in the hand of the read loop brings. -/
theorem deliver (hhold : (st.loop s).holding = [f]) (hid : f.id ≠ 0) {l : Loop}
    (hl : l.holding = []) (hstage : c.stage = (st.streams ⟨s, s.own, f.id⟩).stage)
    (hsound : c.Sound) (hmade : (st.streams ⟨s, s.own, f.id⟩).Made)
    (hreader : ∀ {writer : Stream} {fs : List Frame},
      Link writer (st.streams ⟨s, s.own, f.id⟩) (f :: fs) → Link writer c fs)
    (hwrites : (st.streams ⟨s, s.own, f.id⟩).Writes c)
    (hflag : (st.streams ⟨s, s.own, f.id⟩).Flagged → c.Flagged)
    (hloop : l.Sound s fun id => update st.streams ⟨s, s.own, f.id⟩ c ⟨s, s.own, id⟩) :
    Invariant (st.handle s f.id c none l) := by
  have hp := h.pair f.id hid
  have hlink := hp.link s
  rw [frames_cons hhold] at hlink
  refine h.handle hhold hl (fun _ => ?_) (fun hzero => absurd hzero hid) (.of_stage hstage hflag)
    hloop
  refine hp.receive (frames_cons hhold) hstage hsound (hreader hlink) ?_ hflag
    fun habsent => absurd habsent hmade.1
  exact (hp.link_peer s).of_writer hwrites.written hwrites.closed fun hdue =>
    hwrites.resetDue ▸ hdue

end

variable {overflow : Bool}

theorem loopSound_remove (hid : f.id ≠ 0) (hactive : Pair.Active s c) (hflag : c.Flagged) :
    Loop.Sound s (fun id => update st.streams ⟨s, s.own, f.id⟩ c ⟨s, s.own, id⟩)
      (.remove s.own f.id overflow) := by
  simp only [Loop.Sound, update_self]
  exact ⟨trivial, hid, hactive, hflag⟩

variable (h : Invariant st)
include h

theorem enqueue (hloop : st.loop s = .enqueue origin f) :
    Invariant (st.readLoop s) := by
  have hhold : (st.loop s).holding = [f] := by rw [hloop]; rfl
  obtain ⟨rfl, hid, htype, hpayload, hmade⟩ := h.facts hloop
  set x := st.streams ⟨s, s.own, f.id⟩
  have hsound : x.Sound := (h.pair f.id hid).sound s
  rw [readLoop, hloop]
  dsimp only
  split
  · next c hc =>
    have hkeeps : c.stage = x.stage ∧ x.Writes c ∧ (x.Flagged → c.Flagged) := by
      obtain ⟨-, rfl⟩ | ⟨hflag, -, -, -, heq⟩ := enqueue_cases hc
      · exact ⟨rfl, ⟨rfl, id, rfl⟩, id⟩
      · rw [heq]
        exact ⟨rfl, ⟨rfl, id, rfl⟩, fun hold => absurd hold hflag⟩
    exact h.deliver hhold hid rfl hkeeps.1 (hsound.enqueue hpayload hc) hmade
      (fun hlink => hlink.enqueue htype hmade hc) hkeeps.2.1 hkeeps.2.2 trivial
  · exact h.setLoop hhold.symm ⟨rfl, hid, htype ▸ nofun, hmade⟩

theorem closeRemoteWrite (hloop : st.loop s = .closeRemoteWrite origin f) :
    Invariant (st.readLoop s) := by
  have hhold : (st.loop s).holding = [f] := by rw [hloop]; rfl
  obtain ⟨rfl, hid, htype, hmade⟩ := h.facts hloop
  set x := st.streams ⟨s, s.own, f.id⟩
  have hsound : x.Sound := (h.pair f.id hid).sound s
  have hactive := h.active_of_made hhold hid hmade
  have hkeeps : x.closeRemoteWrite.1.stage = x.stage ∧ x.Writes x.closeRemoteWrite.1 ∧
      x.closeRemoteWrite.1.Flagged := by
    unfold closeRemoteWrite
    split
    · next hclosed => exact ⟨rfl, ⟨rfl, id, rfl⟩, .inl hclosed⟩
    · exact ⟨rfl, ⟨rfl, id, rfl⟩, .inr (.inr rfl)⟩
  rw [readLoop, hloop]
  refine h.deliver hhold hid ?_ hkeeps.1 hsound.closeRemoteWrite hmade
    (fun hlink => hlink.closeRemoteWrite htype hmade) hkeeps.2.1 (fun _ => hkeeps.2.2) ?_
  · split <;> rfl
  · split
    · exact loopSound_remove hid (hactive.of_stage hkeeps.1) hkeeps.2.2
    · exact trivial

theorem closeNoSend (hloop : st.loop s = .closeNoSend origin f) :
    Invariant (st.readLoop s) := by
  have hhold : (st.loop s).holding = [f] := by rw [hloop]; rfl
  obtain ⟨rfl, hid, htype, hmade⟩ := h.facts hloop
  set x := st.streams ⟨s, s.own, f.id⟩
  have hsound : x.Sound := (h.pair f.id hid).sound s
  have hactive := h.active_of_made hhold hid hmade
  have hstage : (x.closeNoSend (loopErr f)).stage = x.stage := by
    rw [closeNoSend_eq]
  have hwrites : x.Writes (x.closeNoSend (loopErr f)) := by
    rw [closeNoSend_eq]
    exact ⟨rfl, id, rfl⟩
  rw [readLoop, hloop]
  exact h.deliver hhold hid rfl hstage (hsound.closeNoSend _) hmade
    (fun hlink => hlink.closeNoSend htype _) hwrites (fun _ => flagged_closeNoSend _ _)
    (loopSound_remove hid (hactive.of_stage hstage) (flagged_closeNoSend _ _))

theorem register (hloop : st.loop s = .register f) :
    Invariant (st.readLoop s) := by
  have hhold : (st.loop s).holding = [f] := by rw [hloop]; rfl
  obtain ⟨rfl, hid, htype⟩ := h.facts hloop
  have hp := h.pair f.id hid
  have hlink := hp.link .server
  rw [frames_cons hhold] at hlink
  have hnew : st.streams ⟨.server, Side.server.own, f.id⟩ = newStream :=
    (hlink.opening f mem_cons_self htype).1
  rw [readLoop, hloop]
  refine h.handle hhold rfl (fun _ => hp.register (frames_cons hhold) htype f.payload)
    (fun hzero => absurd hzero hid) ?_ trivial
  rw [hnew]
  exact .newStream _

theorem remove {id : Nat}
    (hloop : st.loop s = .remove origin id overflow) : Invariant (st.readLoop s) := by
  obtain ⟨rfl, hid, hactive, hflag⟩ := h.facts hloop
  have hp := h.pair id hid
  have hsound : (st.streams ⟨s, s.own, id⟩).Sound := hp.sound s
  rw [readLoop, hloop]
  dsimp only
  generalize hc : (if overflow then { st.streams ⟨s, s.own, id⟩ with resetDue := .reset }
    else st.streams ⟨s, s.own, id⟩) = c
  have hreads : (st.streams ⟨s, s.own, id⟩).Reads c := by
    rw [← hc]
    split <;> exact .of_eq
  have hsound' : c.Sound := by
    rw [← hc]
    split
    · exact hsound.resetDue _
    · exact hsound
  have hlink : Link c ((st.pair id).stream s.peer) ((st.pair id).frames s.peer) := by
    rw [← hc]
    split
    · exact (hp.link_peer s).of_writer rfl (fun hclosed => hclosed) nofun
    · exact hp.link_peer s
  have hout : Invariant ((st.setStream ⟨s, s.own, id⟩ c).output ⟨s, s.own, id⟩ ⟨none, some none⟩) := by
    refine h.output hid ?_ hreads.grows fun _ hnew => ?_
    · exact hp.emit id hactive hsound' hreads hlink nofun (.inr ⟨rfl, hreads.flagged hflag⟩)
    · dsimp only at hactive
      rw [hnew] at hactive
      obtain hhanded | ⟨-, habsent⟩ := hactive
      · cases hhanded
      · exact absurd rfl habsent
  refine hout.setLoop ?_ trivial
  rw [output_loop, setStream, hloop]
  rfl

theorem readLoop (s : Side) : Invariant (st.readLoop s) := by
  cases hloop : st.loop s with
  | idle =>
    rw [State.readLoop, hloop]
    dsimp only
    split
    · exact h
    · next f inbound hinbound =>
      refine h.of_incoming rfl rfl rfl (fun t => ?_) (.setLoop trivial fun t _ => h.loop t)
      rw [State.incoming, State.incoming, State.setLoop]
      by_cases hts : t = s
      · subst hts
        simp only [update_self, hloop, hinbound]
        rfl
      · simp only [update_of_ne hts]
  | dispatch f =>
    rw [State.readLoop, hloop]
    exact h.dispatch hloop
  | register f => exact h.register hloop
  | enqueue origin f => exact h.enqueue hloop
  | closeRemoteWrite origin f => exact h.closeRemoteWrite hloop
  | closeNoSend origin f => exact h.closeNoSend hloop
  | remove origin id overflow => exact h.remove hloop
  | reset id msg | resetClose id =>
    exact (h.facts hloop).elim

theorem openStream (hnext : st.nextID .client + 1 < 2 ^ 32)
    (payload : GoString) : Invariant (st.step (.openStream .client payload)) := by
  have hid : nextStreamID (st.nextID .client) = st.nextID .client + 1 := by
    rw [nextStreamID, mod_eq_of_lt hnext, if_neg (succ_ne_zero _)]
  have hnew := h.fresh _ (lt_succ_self _)
  have hp := h.pair _ (succ_ne_zero (st.nextID .client))
  have hne : ((st.pair (st.nextID .client + 1)).stream .client).stage ≠ .handed := by
    rw [show (st.pair (st.nextID .client + 1)).stream .client = newStream from hnew]
    nofun
  -- first the id is taken, and then there is a stream under it
  have htaken : Invariant { st with
      nextID := update st.nextID .client (st.nextID .client + 1) } := by
    refine ⟨h.pair, h.zero, h.foreign, fun id hlt => ?_, h.loop⟩
    change update st.nextID .client (st.nextID .client + 1) .client < id at hlt
    exact h.fresh id (lt_of_succ_lt hlt)
  rw [State.step, hid]
  refine @output _ htaken .client _ (succ_ne_zero (st.nextID .client)) _ .nothing ?_ ?_ ?_
  · refine hp.advance _ hne (sound_newStream.stage _ nofun nofun) nofun
      (hp.unopened hne).2.2.2.symm ?_ ?_ ?_
    · exact Pair.Sound.link_newStream prefix_rfl nofun nofun
    · intro o ho
      have hmade := (hp.table .client o ho).2
      rw [show (st.pair (st.nextID .client + 1)).stream .client = newStream from hnew] at hmade
      exact absurd rfl hmade.1
    · exact fun hmade => absurd rfl (hmade.2 payload)
  · rw [show st.streams ⟨.client, Side.client.own, st.nextID .client + 1⟩ = newStream from hnew]
    exact .newStream _
  · intro hlt
    change update st.nextID .client (st.nextID .client + 1) .client < _ at hlt
    rw [update_self] at hlt
    exact absurd hlt (lt_irrefl _)

theorem keepalive (s : Side) : Invariant (st.sendFrame s ⟨.data, 0, []⟩) := by
  have hincoming : ∀ t, ∃ fs : List Frame, (∀ f ∈ fs, f = ⟨.data, 0, []⟩) ∧
      (st.sendFrame s ⟨.data, 0, []⟩).incoming t = st.incoming t ++ fs := by
    intro t
    rw [incoming, incoming, sendFrame]
    by_cases hts : t = s.peer
    · subst hts
      refine ⟨[⟨.data, 0, []⟩], fun f hf => mem_singleton.mp hf, ?_⟩
      simp only [update_self, append_assoc]
    · refine ⟨[], nofun, ?_⟩
      simp only [update_of_ne hts, append_nil]
  have hpair : ∀ id, id ≠ 0 → (st.sendFrame s ⟨.data, 0, []⟩).pair id = st.pair id := by
    intro id hid
    ext t : 2
    · rfl
    · rfl
    · obtain ⟨fs, hfs, heq⟩ := hincoming t
      rw [State.pair, State.pair]
      simp only
      have hnone : fs.filter (·.id = id) = [] := by
        refine filter_eq_nil_iff.mpr fun f hf => ?_
        rw [hfs f hf]
        simpa using hid.symm
      rw [heq, filter_append, hnone, append_nil]
  refine ⟨fun id hid => ?_, fun t => ⟨(h.zero t).1, fun f hf hzero => ?_⟩, h.foreign, h.fresh,
    h.loop⟩
  · rw [hpair id hid]
    exact h.pair id hid
  · obtain ⟨fs, hfs, heq⟩ := hincoming t
    rw [heq, mem_append] at hf
    obtain hf | hf := hf
    · exact (h.zero t).2 f hf hzero
    · rw [hfs f hf]

end Invariant

/-! ### Runs -/

def Event.opens : Event → Bool
  | .openStream _ _ => true
  | _ => false

theorem State.dispatch_nextID (st : State) (s : Side) (f : Frame) :
    (st.dispatch s f).nextID = st.nextID := by
  unfold dispatch
  split
  · split
    · rfl
    · split
      · rfl
      · split <;> rfl
  all_goals split <;> rfl

theorem State.readLoop_nextID (st : State) (s : Side) : (st.readLoop s).nextID = st.nextID := by
  unfold readLoop
  split
  · split <;> rfl
  · exact st.dispatch_nextID s _
  · rfl
  · split <;> rfl
  all_goals rfl

theorem nextStreamID_le (nextID : Nat) : nextStreamID nextID ≤ nextID + 1 := by
  unfold nextStreamID
  split
  · exact le_add_left 1 nextID
  · exact mod_le _ _

/-- Ids are taken one by one. -/
theorem State.step_nextID_le (st : State) (event : Event) :
    (st.step event).nextID .client ≤ st.nextID .client + if event.opens then 1 else 0 := by
  cases event with
  | openStream s payload =>
    change update st.nextID s (nextStreamID (st.nextID s)) .client ≤ st.nextID .client + 1
    cases s with
    | client =>
      rw [update_self]
      exact nextStreamID_le _
    | server =>
      rw [update_of_ne (show Side.client ≠ .server from nofun)]
      exact le_succ _
  | call ref call =>
    rw [State.step, State.call, State.output_nextID]
    exact le_refl _
  | loop s =>
    rw [step, readLoop_nextID]
    exact le_refl _
  | keepalive s => exact le_refl _

theorem Invariant.step (h : Invariant st) {event : Event}
    (hserver : ∀ payload, event ≠ .openStream .server payload)
    (hnext : event.opens = true → st.nextID .client + 1 < 2 ^ 32) : Invariant (st.step event) := by
  cases event with
  | openStream s payload =>
    cases s with
    | client => exact h.openStream (hnext rfl) payload
    | server => exact absurd rfl (hserver payload)
  | call ref call => exact h.call ref call
  | loop s => exact h.readLoop s
  | keepalive s => exact h.keepalive s

theorem Invariant.foldl (h : Invariant st) {events : List Event}
    (hserver : ∀ payload, .openStream .server payload ∉ events)
    (hfew : st.nextID .client + events.countP Event.opens < 2 ^ 32) :
    Invariant (events.foldl State.step st) := by
  induction events generalizing st with
  | nil => exact h
  | cons event events ih =>
    have hle := st.step_nextID_le event
    rw [countP_cons] at hfew
    refine ih (h.step ?_ ?_) (fun payload hmem => hserver payload (mem_cons_of_mem _ hmem)) ?_
    · rintro payload rfl
      exact hserver payload mem_cons_self
    · intro hopens
      rw [if_pos hopens] at hfew
      omega
    · omega

/-- Two streams of one id, with what was written and read. -/
theorem Pair.Sound.delivered {p : Pair} (h : p.Sound) (s : Side) :
    Delivered (p.stream s) (p.stream s.peer) :=
  ⟨(prefix_append _ _).trans (h.link s).returned, (h.link s).eof, (h.sound s).queued,
    (h.sound s).bounded⟩

/-- In every run in which only the client opens streams, and fewer than there are ids, a stream has
returned what its peer has written. -/
theorem delivered_run (events : List Event)
    (hserver : ∀ payload, .openStream .server payload ∉ events)
    (hfew : events.countP Event.opens < 2 ^ 32) (ref : Ref) :
    ∃ origin, Delivered ((run events).streams ref)
      ((run events).streams ⟨ref.side.peer, origin, ref.id⟩) := by
  have h : Invariant (run events) := Invariant.start.foldl hserver (by simpa [start] using hfew)
  refine ⟨ref.side.peer.own, ?_⟩
  by_cases hforeign : ref.origin ≠ ref.side.own ∨ ref.id = 0
  · rw [h.foreign ref hforeign]
    exact ⟨List.nil_prefix, nofun, rfl, zero_le _⟩
  · obtain ⟨s, o, id⟩ := ref
    rw [not_or, ne_eq, not_not] at hforeign
    obtain ⟨howner, hid⟩ := hforeign
    obtain rfl : o = s.own := howner
    exact (h.pair id hid).delivered s

/-- The client opens a stream and writes a byte, which the server holds. -/
def greeting : List Event :=
  [.openStream .client [], .call ⟨.client, .opened, 1⟩ .openStream,
    .call ⟨.client, .opened, 1⟩ .openStream, .loop .server, .loop .server, .loop .server,
    .call ⟨.client, .opened, 1⟩ (.write [1]), .call ⟨.client, .opened, 1⟩ .proceed, .loop .server,
    .loop .server, .loop .server]

/-- The server opens a stream of the same id, which gets what comes next. -/
def takeover : List Event :=
  greeting ++ [.openStream .server [], .call ⟨.server, .opened, 1⟩ .openStream,
    .call ⟨.server, .opened, 1⟩ .openStream, .call ⟨.client, .opened, 1⟩ (.write [2]),
    .call ⟨.client, .opened, 1⟩ .proceed, .loop .server, .loop .server, .loop .server,
    .call ⟨.server, .opened, 1⟩ (.read 1)]

/-- The stream that the server has opened returns the second byte without the first. -/
theorem takeover_not_delivered :
    ¬ ∀ events : List Event, events.countP Event.opens < 2 ^ 32 → ∀ ref : Ref,
      ∃ origin, Delivered ((run events).streams ref)
        ((run events).streams ⟨ref.side.peer, origin, ref.id⟩) := by
  intro h
  obtain ⟨origin, hdelivered⟩ := h takeover (by decide) ⟨.server, .opened, 1⟩
  have hreturned := hdelivered.returned
  revert hreturned
  cases origin with
  | opened => decide +kernel
  | accepted => decide +kernel

theorem greeting_delivered :
    ((run (greeting ++ [.call ⟨.server, .accepted, 1⟩ .accept,
      .call ⟨.server, .accepted, 1⟩ (.read 5)])).streams ⟨.server, .accepted, 1⟩).returned = [1] ∧
    ∃ origin, Delivered ((run (greeting ++ [.call ⟨.server, .accepted, 1⟩ .accept,
        .call ⟨.server, .accepted, 1⟩ (.read 5)])).streams ⟨.server, .accepted, 1⟩)
      ((run (greeting ++ [.call ⟨.server, .accepted, 1⟩ .accept,
        .call ⟨.server, .accepted, 1⟩ (.read 5)])).streams ⟨.client, origin, 1⟩) :=
  ⟨by decide +kernel, delivered_run _ (by simp [greeting]) (by decide) ⟨.server, .accepted, 1⟩⟩

end Hako.Multiplex
