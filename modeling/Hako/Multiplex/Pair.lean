import Hako.Multiplex.Link

/-!
# Two streams of one id

What two sessions have under one id: a stream on each side, the entries in their tables and the
frames on their way in both directions. The client opens the stream, and the server makes its own
when the first frame arrives.
-/

namespace Hako.Multiplex

open GoLib List Function Side

@[simp] theorem Side.peer_peer (s : Side) : s.peer.peer = s := by cases s <;> rfl

theorem Side.peer_ne (s : Side) : s.peer ≠ s := by cases s <;> nofun

theorem Side.eq_or_eq_peer (s t : Side) :
    t = s ∨ t = s.peer := by cases s <;> cases t <;> simp [peer]

/-- The streams that a session has when only the client opens any. -/
def Side.own : Side → Origin
  | .client => .opened
  | .server => .accepted

/-- Two streams of one id, the tables and the frames on their way to each side. -/
@[ext]
structure Pair where
  stream : Side → Stream
  table : Side → Option Origin
  frames : Side → List Frame

namespace Pair

variable {p : Pair} {s : Side} {c : Stream} {out : Output} {f : Frame} {fs : List Frame}

/-- What holds under one id. -/
structure Sound (p : Pair) : Prop where
  sound : ∀ s, (p.stream s).Sound
  link : ∀ s, Link (p.stream s.peer) (p.stream s) (p.frames s)
  table : ∀ s o, p.table s = some o → o = s.own ∧ (p.stream s).Made
  gone : ∀ s, (p.stream s).Made → p.table s = none → (p.stream s).Flagged
  noOpen : ∀ f ∈ p.frames .client, f.type ≠ .openStream
  clientStage : ∀ payload, (p.stream .client).stage ≠ .waiting payload
  serverStage : (p.stream .server).stage = .absent ∨ (p.stream .server).stage = .handed ∨
    ∃ payload, (p.stream .server).stage = .waiting payload
  unopened : (p.stream .client).stage ≠ .handed → p.stream .server = newStream ∧
    p.frames .client = [] ∧ p.frames .server = [] ∧ (p.stream .client).resetDue = .nothing
  unaccepted : (p.stream .server).stage = .absent → p.stream .server = newStream ∧
    p.frames .client = []

/-- A section on the stream of a side. -/
def act (p : Pair) (id : Nat) (s : Side) (c : Stream) (out : Output) : Pair where
  stream := Function.update p.stream s c
  table := match out.table with
    | some entry => Function.update p.table s entry
    | none => p.table
  frames := match out.frame with
    | some (type, payload) =>
      Function.update p.frames s.peer (p.frames s.peer ++ [⟨type, id, payload⟩])
    | none => p.frames

/-- The first frame on its way to a side arrives. -/
def receive (p : Pair) (s : Side) (c : Stream) (entry : Option (Option Origin))
    (fs : List Frame) : Pair where
  stream := Function.update p.stream s c
  table := match entry with
    | some entry => Function.update p.table s entry
    | none => p.table
  frames := Function.update p.frames s fs

variable {entry : Option (Option Origin)}

section

variable (id : Nat)
include id

@[simp] theorem act_stream_self : (p.act id s c out).stream s = c := update_self _ _ _

@[simp] theorem act_stream_peer : (p.act id s c out).stream s.peer = p.stream s.peer :=
  update_of_ne s.peer_ne _ _

@[simp] theorem act_frames_self : (p.act id s c out).frames s = p.frames s := by
  cases hframe : out.frame with
  | none => simp [act, hframe]
  | some frame =>
    simp only [act, hframe]
    exact update_of_ne s.peer_ne.symm _ _

@[simp] theorem act_table_peer : (p.act id s c out).table s.peer = p.table s.peer := by
  cases htable : out.table with
  | none => simp [act, htable]
  | some entry =>
    simp only [act, htable]
    exact update_of_ne s.peer_ne _ _

theorem act_table_self : (p.act id s c out).table s = out.table.getD (p.table s) := by
  cases htable : out.table with
  | none => simp [act, htable]
  | some entry => simp [act, htable]

theorem act_frames_none (h : out.frame = none) :
    (p.act id s c out).frames s.peer = p.frames s.peer := by
  simp [act, h]

theorem act_frames_some {type : FrameType} {payload : GoString}
    (h : out.frame = some (type, payload)) :
    (p.act id s c out).frames s.peer = p.frames s.peer ++ [⟨type, id, payload⟩] := by
  simp [act, h]

end

@[simp] theorem receive_stream_self : (p.receive s c entry fs).stream s = c := update_self _ _ _

@[simp] theorem receive_stream_peer : (p.receive s c entry fs).stream s.peer = p.stream s.peer :=
  update_of_ne s.peer_ne _ _

@[simp] theorem receive_frames_self : (p.receive s c entry fs).frames s = fs := update_self _ _ _

@[simp] theorem receive_frames_peer : (p.receive s c entry fs).frames s.peer = p.frames s.peer :=
  update_of_ne s.peer_ne _ _

/-- The stream has been opened, or accepted. -/
def Active (s : Side) (c : Stream) : Prop := c.stage = .handed ∨ s = .server ∧ c.stage ≠ .absent

theorem Active.of_stage {c' : Stream} (h : Active s c) (hstage : c'.stage = c.stage) :
    Active s c' := by
  rwa [Active, hstage]

namespace Sound

variable (h : p.Sound)
include h

theorem noOpen_of_active (hactive : Active s (p.stream s)) :
    ∀ f ∈ p.frames s, f.type ≠ .openStream := by
  intro f hf htype
  obtain ⟨hnew, -⟩ := (h.link s).opening f hf htype
  rw [hnew] at hactive
  obtain hhanded | ⟨-, habsent⟩ := hactive
  · cases hhanded
  · exact habsent rfl

/-- A section on a stream that is there for both sides. -/
theorem act (id : Nat) (hactive : Active s (p.stream s))
    (hstage : c.stage = (p.stream s).stage ∨ c.stage = .handed)
    (hmade : c.Made ↔ (p.stream s).Made) (hsound : c.Sound)
    (hreader : Link (p.stream s.peer) c (p.frames s))
    (hwriter : Link c (p.stream s.peer) ((p.act id s c out).frames s.peer))
    (hout : ∀ payload, out.frame ≠ some (.openStream, payload))
    (htable : out.table = none ∨ out.table = some none ∧ c.Flagged)
    (hflag : (p.stream s).Flagged → c.Flagged) : (p.act id s c out).Sound := by
  have hopened : (p.stream .client).stage = .handed := by
    cases s with
    | client => exact hactive.resolve_right nofun
    | server =>
      by_contra hne
      rw [(h.unopened hne).1] at hactive
      obtain hhanded | ⟨-, habsent⟩ := hactive
      · cases hhanded
      · exact habsent rfl
  have hclient : ((p.act id s c out).stream .client).stage = .handed := by
    cases s with
    | client =>
      rw [act_stream_self]
      obtain hstage | hstage := hstage
      · rw [hstage, hopened]
      · exact hstage
    | server =>
      rw [show (p.act id .server c out).stream .client = _ from act_stream_peer id]
      exact hopened
  refine ⟨?_, ?_, ?_, ?_, ?_, ?_, ?_, ?_, ?_⟩
  · intro t
    obtain rfl | rfl := s.eq_or_eq_peer t
    · rwa [act_stream_self]
    · rw [act_stream_peer]
      exact h.sound _
  · intro t
    obtain rfl | rfl := s.eq_or_eq_peer t
    · rwa [act_stream_self, act_stream_peer, act_frames_self]
    · rwa [act_stream_peer, peer_peer, act_stream_self]
  · intro t o ht
    obtain rfl | rfl := s.eq_or_eq_peer t
    · rw [act_table_self] at ht
      rw [act_stream_self, hmade]
      obtain hkeep | ⟨hdrop, -⟩ := htable
      · rw [hkeep] at ht
        exact h.table _ o ht
      · rw [hdrop] at ht
        cases ht
    · rw [act_table_peer] at ht
      rw [act_stream_peer]
      exact h.table _ o ht
  · intro t hmadet ht
    obtain rfl | rfl := s.eq_or_eq_peer t
    · rw [act_stream_self] at hmadet ⊢
      obtain hkeep | ⟨-, hdead⟩ := htable
      · rw [act_table_self, hkeep] at ht
        exact hflag (h.gone _ (hmade.mp hmadet) ht)
      · exact hdead
    · rw [act_table_peer] at ht
      rw [act_stream_peer] at hmadet ⊢
      exact h.gone _ hmadet ht
  · cases s with
    | client =>
      intro f hf
      have hself : (p.act id .client c out).frames .client = p.frames .client := act_frames_self id
      rw [hself] at hf
      exact h.noOpen f hf
    | server =>
      intro f hf
      cases hframe : out.frame with
      | none =>
        rw [show (p.act id .server c out).frames .client = _ from act_frames_none id hframe] at hf
        exact h.noOpen f hf
      | some frame =>
        obtain ⟨type, payload⟩ := frame
        rw [show (p.act id .server c out).frames .client = _ from act_frames_some id hframe,
          mem_append, mem_singleton] at hf
        obtain hf | rfl := hf
        · exact h.noOpen f hf
        · rintro rfl
          exact hout payload hframe
  · intro payload
    rw [hclient]
    nofun
  · cases s with
    | client =>
      rw [show (p.act id .client c out).stream .server = _ from act_stream_peer id]
      exact h.serverStage
    | server =>
      rw [act_stream_self]
      obtain hstage | hstage := hstage
      · rw [hstage]
        exact h.serverStage
      · exact .inr (.inl hstage)
  · exact fun hne => absurd hclient hne
  · intro habsent
    cases s with
    | client =>
      have hserver : (p.act id .client c out).stream .server = p.stream .server := act_stream_peer id
      have hself : (p.act id .client c out).frames .client = p.frames .client := act_frames_self id
      rw [hserver] at habsent
      rw [hserver, hself]
      exact h.unaccepted habsent
    | server =>
      rw [act_stream_self] at habsent
      obtain hstage | hstage := hstage
      · obtain hhanded | ⟨-, hne⟩ := hactive
        · rw [hstage, hhanded] at habsent
          cases habsent
        · exact absurd (hstage.symm.trans habsent) hne
      · rw [hstage] at habsent
        cases habsent

/-- A frame arrives for a stream. -/
theorem receive (hframes : p.frames s = f :: fs) (hstage : c.stage = (p.stream s).stage)
    (hsound : c.Sound) (hreader : Link (p.stream s.peer) c fs)
    (hwriter : Link c (p.stream s.peer) (p.frames s.peer))
    (hflag : (p.stream s).Flagged → c.Flagged)
    (hnew : (p.stream s).stage = .absent → c = p.stream s) : (p.receive s c none fs).Sound := by
  have hmade : c.Made ↔ (p.stream s).Made := by
    rw [Stream.Made, Stream.Made, hstage]
  have hsame : ∀ t, ((p.receive s c none fs).stream t).stage = (p.stream t).stage := by
    intro t
    obtain rfl | rfl := s.eq_or_eq_peer t
    · rw [receive_stream_self, hstage]
    · rw [receive_stream_peer]
  -- frames come only when the client has opened the stream
  have hopened : (p.stream .client).stage = .handed := by
    by_contra hne
    obtain ⟨-, hclient, hserver, -⟩ := h.unopened hne
    cases s with
    | client =>
      rw [hclient] at hframes
      cases hframes
    | server =>
      rw [hserver] at hframes
      cases hframes
  refine ⟨?_, ?_, ?_, ?_, ?_, ?_, ?_, ?_, ?_⟩
  · intro t
    obtain rfl | rfl := s.eq_or_eq_peer t
    · rwa [receive_stream_self]
    · rw [receive_stream_peer]
      exact h.sound _
  · intro t
    obtain rfl | rfl := s.eq_or_eq_peer t
    · rwa [receive_stream_self, receive_stream_peer, receive_frames_self]
    · rwa [receive_stream_peer, peer_peer, receive_stream_self, receive_frames_peer]
  · intro t o ht
    obtain rfl | rfl := s.eq_or_eq_peer t
    · rw [receive_stream_self, hmade]
      exact h.table _ o ht
    · rw [receive_stream_peer]
      exact h.table _ o ht
  · intro t hmadet ht
    obtain rfl | rfl := s.eq_or_eq_peer t
    · rw [receive_stream_self] at hmadet ⊢
      exact hflag (h.gone _ (hmade.mp hmadet) ht)
    · rw [receive_stream_peer] at hmadet ⊢
      exact h.gone _ hmadet ht
  · intro f' hf'
    cases s with
    | client =>
      exact h.noOpen f' (by rw [hframes]; exact mem_cons_of_mem _ hf')
    | server =>
      exact h.noOpen f' hf'
  · intro payload
    rw [hsame]
    exact h.clientStage payload
  · rw [hsame]
    exact h.serverStage
  · intro hne
    rw [hsame] at hne
    exact absurd hopened hne
  · intro habsent
    rw [hsame] at habsent
    cases s with
    | client =>
      rw [(h.unaccepted habsent).2] at hframes
      cases hframes
    | server =>
      obtain rfl := hnew habsent
      rw [receive_stream_self, show (p.receive .server _ none fs).frames .client = p.frames .client
        from receive_frames_peer]
      exact h.unaccepted habsent

end Sound

end Pair

/-! ### Calls -/

/-- What a section may do to a stream as a reader. -/
structure Stream.Reads (c c' : Stream) : Prop where
  stage : c'.stage = c.stage
  flagged : c.Flagged → c'.Flagged
  bytes : c'.returned ++ c'.unread <+: c.returned ++ c.unread
  live : ¬ c'.Flagged → c'.returned ++ c'.unread = c.returned ++ c.unread
  ended : c'.remoteWriteClosed = true → c'.closed = false → c'.localReadClosed = false →
    c.remoteWriteClosed = true ∧ c.closed = false ∧ c.localReadClosed = false ∧
      c'.returned ++ c'.unread = c.returned ++ c.unread
  eof : c'.eof = true → c.eof = true ∧ c.returned <+: c'.returned ∨
    c.remoteWriteClosed = true ∧ c.closed = false ∧ c.localReadClosed = false ∧
      c'.returned = c.returned ++ c.unread

namespace Stream.Reads

variable {c c' : Stream}

/-- A section that does nothing to a stream as a reader. -/
theorem of_eq (hstage : c'.stage = c.stage := by rfl) (hclosed : c'.closed = c.closed := by rfl)
    (hread : c'.localReadClosed = c.localReadClosed := by rfl)
    (hremote : c'.remoteWriteClosed = c.remoteWriteClosed := by rfl)
    (hunread : c'.unread = c.unread := by rfl) (hreturned : c'.returned = c.returned := by rfl)
    (heof : c'.eof = c.eof := by rfl) : c.Reads c' := by
  have hflag : c'.Flagged ↔ c.Flagged := by
    rw [Flagged, Flagged, hclosed, hread, hremote]
  refine ⟨hstage, hflag.mpr, ?_, ?_, ?_, ?_⟩
  · rw [hreturned, hunread]
  · rw [hreturned, hunread]
    exact fun _ => rfl
  · rw [hreturned, hunread, hclosed, hread, hremote]
    exact fun h₁ h₂ h₃ => ⟨h₁, h₂, h₃, rfl⟩
  · rw [heof, hreturned]
    exact fun h => .inl ⟨h, prefix_rfl⟩

theorem link (h : c.Reads c') {writer : Stream} {frames : List Frame}
    (hlink : Link writer c frames) (hopen : ∀ f ∈ frames, f.type ≠ .openStream) :
    Link writer c' frames := by
  refine hlink.of_reader hopen h.bytes ?_ h.ended h.eof
  rintro ⟨hmade, hflag⟩
  rw [Made, h.stage] at hmade
  exact ⟨⟨hmade, fun hold => hflag (h.flagged hold)⟩, h.live hflag⟩

theorem read (hsound : c.Sound) (size : Nat) : c.Reads (c.read size) := by
  have hc := consumes_read hsound.nonempty size
  have hbytes := hc.bytes
  have hreturned := hc.returned
  have heof := hc.eof
  rw [read_eq] at hbytes hreturned heof ⊢
  refine ⟨rfl, id, ⟨[], (append_nil _).trans hbytes⟩, fun _ => hbytes,
    fun h₁ h₂ h₃ => ⟨h₁, h₂, h₃, hbytes⟩, ?_⟩
  intro he
  exact (heof he).imp_left fun hold => ⟨hold, hreturned⟩

variable (c)

theorem write (p : GoString) : c.Reads (c.write p) := by
  unfold Stream.write
  split
  · exact of_eq
  · exact of_eq

theorem close : c.Reads c.close := by
  unfold Stream.close
  split
  · refine ⟨rfl, fun _ => .inl rfl, ?_, fun hflag => absurd (.inl rfl) hflag, fun _ => nofun,
      fun he => .inl ⟨he, prefix_rfl⟩⟩
    simp [unread]
  · exact of_eq

theorem closeWrite : c.Reads c.closeWrite := by
  unfold Stream.closeWrite
  split
  · exact of_eq
  · exact of_eq

theorem closeRead : c.Reads c.closeRead := by
  unfold Stream.closeRead
  split
  · refine ⟨rfl, fun _ => .inr (.inl rfl), ?_, fun hflag => absurd (.inr (.inl rfl)) hflag,
      fun _ _ => nofun, fun he => .inl ⟨he, prefix_rfl⟩⟩
    simp [unread]
  · exact of_eq

end Stream.Reads

/-- What a section without a frame may do to a stream as a writer. -/
structure Stream.Writes (c c' : Stream) : Prop where
  written : c'.written = c.written
  closed : c.localWriteClosed = true → c'.localWriteClosed = true
  resetDue : c'.resetDue = c.resetDue

open Multiplex.Stream

theorem Stream.writes_read (c : Stream) (size : Nat) : c.Writes (c.read size) := by
  rw [read_eq]
  exact ⟨rfl, id, rfl⟩

theorem Stream.writes_write (c : Stream) (p : GoString) : c.Writes (c.write p) := by
  unfold write
  split
  · exact ⟨rfl, id, rfl⟩
  · exact ⟨rfl, id, rfl⟩

theorem Stream.writes_close (c : Stream) : c.Writes c.close := by
  unfold close
  split
  · exact ⟨rfl, fun _ => rfl, rfl⟩
  · exact ⟨rfl, id, rfl⟩

theorem Stream.writes_closeWrite (c : Stream) : c.Writes c.closeWrite := by
  unfold closeWrite
  split
  · exact ⟨rfl, fun _ => rfl, rfl⟩
  · exact ⟨rfl, id, rfl⟩

theorem Stream.writes_closeRead (c : Stream) : c.Writes c.closeRead := by
  unfold closeRead
  split
  · exact ⟨rfl, id, rfl⟩
  · exact ⟨rfl, id, rfl⟩

namespace Pair.Sound

variable {p : Pair} {s : Side} {c : Stream} {out : Output} {f : Frame} {fs : List Frame}

theorem act_nothing (p : Pair) (id : Nat) (s : Side) : p.act id s (p.stream s) .nothing = p := by
  ext t
  · simp [Pair.act]
  · simp [Pair.act, Output.nothing]
  · simp [Pair.act, Output.nothing]

theorem link_peer (h : p.Sound) (s : Side) :
    Link (p.stream s) (p.stream s.peer) (p.frames s.peer) := by
  have hlink := h.link s.peer
  rwa [peer_peer] at hlink

theorem made_congr {c' : Stream} (h : c'.stage = c.stage) : c'.Made ↔ c.Made := by
  rw [Made, Made, h]

section

variable (h : p.Sound)
include h

/-- A section of the application on a stream it has. -/
theorem apply (id : Nat) (hhanded : (p.stream s).stage = .handed)
    (hsound : c.Sound) (hreads : (p.stream s).Reads c) (hwrites : (p.stream s).Writes c) :
    (p.act id s c .nothing).Sound := by
  refine h.act id (.inl hhanded) (.inl hreads.stage) (made_congr hreads.stage) hsound ?_ ?_ nofun
    (.inl rfl) hreads.flagged
  · exact hreads.link (h.link s) (h.noOpen_of_active (.inl hhanded))
  · exact (h.link_peer s).of_writer hwrites.written hwrites.closed fun hdue => by
      rw [← hwrites.resetDue, hdue]

/-- A section that sends a frame or removes the stream. -/
theorem emit (id : Nat) (hactive : Active s (p.stream s)) (hsound : c.Sound)
    (hreads : (p.stream s).Reads c)
    (hwriter : Link c (p.stream s.peer) ((p.act id s c out).frames s.peer))
    (hout : ∀ payload, out.frame ≠ some (.openStream, payload))
    (htable : out.table = none ∨ out.table = some none ∧ c.Flagged) : (p.act id s c out).Sound :=
  h.act id hactive (.inl hreads.stage) (made_congr hreads.stage) hsound
    (hreads.link (h.link s) (h.noOpen_of_active hactive)) hwriter hout htable hreads.flagged

theorem proceed (id : Nat) (s : Side) :
    (p.act id s (p.stream s).proceed.1 (p.stream s).proceed.2).Sound := by
  have hsound := h.sound s
  have hsound' := hsound.proceed
  unfold Stream.proceed at hsound' ⊢
  split
  · rw [act_nothing]
    exact h
  · next q hq =>
    have hhanded := hsound.holder (by simp [hq])
    rw [hq] at hsound'
    refine h.emit id (.inl hhanded) hsound' .of_eq ?_ (by simp) (.inl rfl)
    rw [act_frames_some id rfl]
    refine (h.link_peer s).send (by simp) ?_ rfl ?_ (by simp) .inl
    · simp [dataOf]
    · intro hclosed
      rw [hsound.writing q hq] at hclosed
      cases hclosed
  · next remove hremove =>
    have hhanded := hsound.holder (by simp [hremove])
    rw [hremove] at hsound'
    refine h.emit id (.inl hhanded) hsound' .of_eq ?_ (by simp) (.inl rfl)
    rw [act_frames_some id rfl]
    refine (h.link_peer s).send (by simp) ?_ rfl (fun _ => rfl) ?_ .inl
    · simp [dataOf]
    · exact fun _ => .inl (hsound.closing remove hremove).1
  · next hremove =>
    have hhanded := hsound.holder (by simp [hremove])
    have hflag := hsound.removing hremove
    rw [hremove] at hsound'
    refine h.emit id (.inl hhanded) hsound' .of_eq ?_ (by simp) (.inr ⟨rfl, hflag⟩)
    rw [act_frames_none id rfl]
    exact (h.link_peer s).of_writer rfl (fun hclosed => hclosed) (fun hdue => hdue)

theorem active_of_resetDue (hdue : (p.stream s).resetDue ≠ .nothing) :
    Active s (p.stream s) := by
  cases s with
  | client =>
    refine .inl ?_
    by_contra hne
    exact hdue (h.unopened hne).2.2.2
  | server =>
    refine .inr ⟨rfl, fun habsent => ?_⟩
    rw [(h.unaccepted habsent).1] at hdue
    exact hdue rfl

theorem sendReset (id : Nat) (s : Side) :
    (p.act id s (p.stream s).sendReset.1 (p.stream s).sendReset.2).Sound := by
  have hsound := h.sound s
  unfold Stream.sendReset
  split
  · rw [act_nothing]
    exact h
  · next hdue =>
    have hactive := h.active_of_resetDue (s := s) (by simp [hdue])
    refine h.emit id hactive (hsound.resetDue _) .of_eq ?_ (by simp) (.inl rfl)
    rw [act_frames_some id rfl]
    refine (h.link_peer s).send (by simp) ?_ rfl (fun _ => rfl) (by simp) fun _ => .inr rfl
    simp [dataOf]
  · next hdue =>
    have hactive := h.active_of_resetDue (s := s) (by simp [hdue])
    refine h.emit id hactive (hsound.resetDue _) .of_eq ?_ (by simp) (.inl rfl)
    rw [act_frames_some id rfl]
    refine (h.link_peer s).send (by simp) ?_ rfl (fun _ => rfl) (fun _ => .inr hdue) (by simp)
    simp [dataOf]

theorem accept (id : Nat) (s : Side) :
    (p.act id s ((p.stream s).step .accept).1 ((p.stream s).step .accept).2).Sound := by
  have hsound' := (h.sound s).step .accept
  rw [step] at hsound' ⊢
  split
  · next payload hstage =>
    rw [hstage] at hsound'
    cases s with
    | client => exact absurd hstage (h.clientStage payload)
    | server =>
      have hactive : Active .server (p.stream .server) := .inr ⟨rfl, by simp [hstage]⟩
      have hmade : (p.stream .server).Made := ⟨by simp [hstage], by simp [hstage]⟩
      refine h.act id hactive (.inr rfl) ⟨fun _ => hmade, fun _ => ⟨by simp, by simp⟩⟩ hsound' ?_
        ?_ (by simp [Output.nothing]) (.inl rfl) (fun hflag => hflag)
      · exact (h.link .server).of_reader (h.noOpen_of_active hactive) prefix_rfl
          (fun hlive => ⟨⟨hmade, hlive.2⟩, rfl⟩) (fun h₁ h₂ h₃ => ⟨h₁, h₂, h₃, rfl⟩)
          (fun he => .inl ⟨he, prefix_rfl⟩)
      · exact (h.link_peer .server).of_writer rfl (fun hclosed => hclosed) (fun hdue => hdue)
  · rw [act_nothing]
    exact h

end

/-- The server has no stream as long as the client has not sent the frame that opens it. -/
theorem of_unopened (hserver : p.stream .server = newStream) (hframes : ∀ s, p.frames s = [])
    (hentry : p.table .server = none) (hsound : (p.stream .client).Sound)
    (hwaiting : ∀ payload, (p.stream .client).stage ≠ .waiting payload)
    (hdue : (p.stream .client).resetDue = .nothing) (hlink : Link newStream (p.stream .client) [])
    (htable : ∀ o, p.table .client = some o → o = .opened ∧ (p.stream .client).Made)
    (hgone : (p.stream .client).Made → p.table .client = none → (p.stream .client).Flagged) :
    p.Sound := by
  refine ⟨?_, ?_, ?_, ?_, by simp [hframes], hwaiting, .inl (by rw [hserver]; rfl),
    fun _ => ⟨hserver, hframes _, hframes _, hdue⟩, fun _ => ⟨hserver, hframes _⟩⟩
  · intro s
    cases s with
    | client => exact hsound
    | server =>
      rw [hserver]
      exact sound_newStream
  · intro s
    cases s with
    | client =>
      rw [show client.peer = .server from rfl, hserver, hframes]
      exact hlink
    | server =>
      rw [show server.peer = .client from rfl, hserver, hframes]
      refine ⟨List.nil_prefix, fun hlive => absurd hlive not_live_newStream, nofun, nofun,
        nofun, fun hclose => ?_⟩
      rw [hdue] at hclose
      cases hclose
  · intro s o ho
    cases s with
    | client => exact htable o ho
    | server =>
      rw [hentry] at ho
      cases ho
  · intro s hmade hnone
    cases s with
    | client => exact hgone hmade hnone
    | server =>
      rw [hserver] at hmade
      exact absurd rfl hmade.1

/-- What is known of the other side as long as the client has not sent that frame. -/
theorem unopened_facts (h : p.Sound) (hstage : (p.stream .client).stage ≠ .handed) :
    p.stream .server = newStream ∧ (∀ s, p.frames s = []) ∧ p.table .server = none ∧
      Link newStream (p.stream .client) [] := by
  obtain ⟨hserver, hclient, hframes, -⟩ := h.unopened hstage
  refine ⟨hserver, fun s => by cases s <;> assumption, ?_, ?_⟩
  · cases hentry : p.table .server with
    | none => rfl
    | some o =>
      have hmade := (h.table .server o hentry).2
      rw [hserver] at hmade
      exact absurd rfl hmade.1
  · have hlink := h.link .client
    rwa [show client.peer = .server from rfl, hserver, hclient] at hlink

/-- The client moves on without a frame. -/
theorem advance (h : p.Sound) (id : Nat) (hstage : (p.stream .client).stage ≠ .handed)
    {entry : Option (Option Origin)} (hsound : c.Sound)
    (hwaiting : ∀ payload, c.stage ≠ .waiting payload)
    (hdue : c.resetDue = (p.stream .client).resetDue) (hlink : Link newStream c [])
    (htable : ∀ o, entry.getD (p.table .client) = some o → o = .opened ∧ c.Made)
    (hgone : c.Made → entry.getD (p.table .client) = none → c.Flagged) :
    (p.act id .client c ⟨none, entry⟩).Sound := by
  obtain ⟨hserver, hframes, hentry, -⟩ := h.unopened_facts hstage
  have hstream : (p.act id .client c ⟨none, entry⟩).stream .client = c := act_stream_self id
  have hpeer : (p.act id .client c ⟨none, entry⟩).stream .server = newStream := by
    rw [← hserver]
    exact act_stream_peer id
  refine of_unopened hpeer ?_ ?_ ?_ ?_ ?_ ?_ ?_ ?_
  · intro s
    exact hframes s
  · rw [← hentry]
    exact act_table_peer id
  · rwa [hstream]
  · rwa [hstream]
  · rw [hstream, hdue]
    exact (h.unopened hstage).2.2.2
  · rwa [hstream]
  · rw [act_table_self, hstream]
    exact htable
  · rw [act_table_self, hstream]
    exact hgone

/-- A stream that has got nothing from a writer that is not there yet. -/
theorem link_newStream (hreturned : c.returned ++ c.unread <+: [])
    (hended : c.remoteWriteClosed = true → c.closed = false → c.localReadClosed = false →
      false = true ∧ [] = c.returned ++ c.unread)
    (heof : c.eof = true → false = true ∧ c.returned = []) : Link newStream c [] :=
  ⟨hreturned, fun _ => ⟨by rw [prefix_nil.mp hreturned]; rfl, trivial⟩, hended, heof, nofun, nofun⟩

variable (h : p.Sound)
include h

/-- `OpenStream` sends the frame that opens a stream. -/
theorem sendOpen (id : Nat) {payload openPayload : GoString}
    (hstage : (p.stream .client).stage = .registered payload)
    (hsound : Stream.Sound { p.stream .client with stage := .handed }) :
    (p.act id .client { p.stream .client with stage := .handed }
      ⟨some (.openStream, openPayload), none⟩).Sound := by
  have hne : (p.stream .client).stage ≠ .handed := by rw [hstage]; nofun
  obtain ⟨hserver, hframes, hentry, hlink⟩ := h.unopened_facts hne
  have hwritten := ((h.sound .client).idle hne).2.1
  have hdue := (h.unopened hne).2.2.2
  have hmade : (p.stream .client).Made := ⟨by rw [hstage]; nofun, by rw [hstage]; nofun⟩
  generalize hc : ({ p.stream .client with stage := .handed } : Stream) = c at *
  set q := p.act id .client c ⟨some (.openStream, openPayload), none⟩
  have hstream : q.stream .client = c := act_stream_self id
  have hpeer : q.stream .server = newStream := by
    rw [← hserver]
    exact act_stream_peer id
  have hself : q.frames .client = [] := by
    rw [← hframes .client]
    exact act_frames_self id
  have hsent : q.frames .server = [⟨.openStream, id, openPayload⟩] := by
    rw [show q.frames .server = _ from act_frames_some id rfl, hframes]
    rfl
  have hclink : Link newStream c [] := by
    rw [← hc]
    exact link_newStream hlink.returned hlink.ended hlink.eof
  refine ⟨?_, ?_, ?_, ?_, by rw [hself]; nofun, by rw [hstream, ← hc]; nofun,
    .inl (by rw [hpeer]; rfl), fun hnot => absurd (by rw [hstream, ← hc]) hnot,
    fun _ => ⟨hpeer, hself⟩⟩
  · intro s
    cases s with
    | client => rwa [hstream]
    | server =>
      rw [hpeer]
      exact sound_newStream
  · intro s
    cases s with
    | client => rwa [show client.peer = .server from rfl, hpeer, hstream, hself]
    | server =>
      rw [show server.peer = .client from rfl, hpeer, hstream, hsent]
      have hcwritten : c.written = [] := by
        rw [← hc]
        exact hwritten
      have hcdue : c.resetDue ≠ .close := by
        rw [← hc]
        exact fun hclose => by cases hdue.symm.trans hclose
      refine ⟨List.nil_prefix, fun hlive => absurd hlive not_live_newStream, nofun, nofun,
        ?_, fun hclose => absurd hclose hcdue⟩
      intro f hf _
      rw [mem_singleton] at hf
      exact ⟨rfl, [], by rw [hf], nofun, hcwritten, trivial⟩
  · intro s o ho
    cases s with
    | client =>
      rw [hstream, ← hc]
      exact ⟨(h.table .client o ho).1, nofun, nofun⟩
    | server =>
      rw [show q.table .server = none from hentry] at ho
      cases ho
  · intro s hm hnone
    cases s with
    | client =>
      rw [hstream, ← hc]
      exact h.gone .client hmade hnone
    | server =>
      rw [hpeer] at hm
      exact absurd rfl hm.1

theorem openNext (id : Nat) (s : Side) :
    (p.act id s (p.stream s).openNext.1 (p.stream s).openNext.2).Sound := by
  cases s with
  | server =>
    -- a server only accepts
    have hsame : (p.stream .server).openNext = (p.stream .server, .nothing) := by
      obtain hstage | hstage | ⟨payload, hstage⟩ := h.serverStage <;>
        rw [Stream.openNext, hstage]
    rw [hsame, act_nothing]
    exact h
  | client =>
    have hsound' := (h.sound .client).openNext
    have hgone := h.gone .client
    have htable := h.table .client
    have hlink := fun hne => (h.unopened_facts hne).2.2.2
    unfold Stream.openNext at hsound' ⊢
    split
    · next payload hstage =>
      rw [hstage] at hsound'
      have hne : (p.stream .client).stage ≠ .handed := by rw [hstage]; nofun
      refine h.advance id hne hsound' nofun rfl ?_ ?_ nofun
      · exact link_newStream (hlink hne).returned (hlink hne).ended (hlink hne).eof
      · intro o ho
        exact ⟨(Option.some.inj ho).symm, nofun, nofun⟩
    · next payload hstage =>
      rw [hstage] at hsound'
      have hne : (p.stream .client).stage ≠ .handed := by rw [hstage]; nofun
      have hmade : (p.stream .client).Made := ⟨by rw [hstage]; nofun, by rw [hstage]; nofun⟩
      dsimp only at hsound'
      split
      · next hlarge =>
        rw [if_pos hlarge] at hsound'
        refine h.advance id hne hsound' nofun rfl ?_ ?_ fun _ hnone => hgone hmade hnone
        · exact link_newStream (hlink hne).returned (hlink hne).ended (hlink hne).eof
        · exact fun o ho => ⟨(htable o ho).1, nofun, nofun⟩
      · next hsmall =>
        rw [if_neg hsmall] at hsound'
        exact h.sendOpen id hstage hsound'
    · next hstage =>
      rw [hstage] at hsound'
      have hne : (p.stream .client).stage ≠ .handed := by rw [hstage]; nofun
      rw [closeNoSend_eq] at hsound' ⊢
      refine h.advance id hne hsound' nofun rfl ?_ ?_ fun _ _ => .inl rfl
      · exact link_newStream (hlink hne).returned (fun _ => nofun) (hlink hne).eof
      · exact fun o ho => ⟨(htable o ho).1, nofun, nofun⟩
    · next hstage =>
      rw [hstage] at hsound'
      have hne : (p.stream .client).stage ≠ .handed := by rw [hstage]; nofun
      refine h.advance id hne hsound' nofun rfl ?_ nofun fun _ _ =>
        (h.sound .client).refused hstage
      exact link_newStream (hlink hne).returned (hlink hne).ended (hlink hne).eof
    · rw [act_nothing]
      exact h

/-- Every section of a call keeps what holds under its id. -/
theorem call (id : Nat) (s : Side) (call : Call) :
    (p.act id s ((p.stream s).step call).1 ((p.stream s).step call).2).Sound := by
  have hsound := h.sound s
  have hidle : (p.act id s (p.stream s) .nothing).Sound := by
    rw [act_nothing]
    exact h
  have hcall : ∀ {c : Stream}, ((p.stream s).stage = .handed → c.Sound) → (p.stream s).Reads c →
      (p.stream s).Writes c →
      (p.act id s (if (p.stream s).stage = .handed then c else p.stream s) .nothing).Sound := by
    intro c hc hreads hwrites
    split
    · next hstage => exact h.apply id hstage (hc hstage) hreads hwrites
    · exact hidle
  cases call with
  | read size =>
    exact hcall (fun hstage => hsound.read hstage size) (.read hsound size) (writes_read _ _)
  | write q => exact hcall (fun hstage => hsound.write hstage q) (.write _ q) (writes_write _ _)
  | close => exact hcall hsound.close (.close _) (writes_close _)
  | closeWrite => exact hcall hsound.closeWrite (.closeWrite _) (writes_closeWrite _)
  | closeRead => exact hcall hsound.closeRead (.closeRead _) (writes_closeRead _)
  | proceed => exact h.proceed id s
  | remove =>
    have hsound' := hsound.step .remove
    rw [step] at hsound' ⊢
    split
    · next hremoving =>
      rw [if_pos hremoving] at hsound'
      have hhanded : (p.stream s).stage = .handed := by
        by_contra hne
        rw [(hsound.idle hne).2.2] at hremoving
        cases hremoving
      refine h.emit id (.inl hhanded) hsound' .of_eq ?_ (by simp)
        (.inr ⟨rfl, hsound.readRemoving hremoving⟩)
      rw [act_frames_none id rfl]
      exact (h.link_peer s).of_writer rfl (fun hclosed => hclosed) (fun hdue => hdue)
    · exact hidle
  | reset => exact h.sendReset id s
  | openStream => exact h.openNext id s
  | accept => exact h.accept id s

end Pair.Sound

/-- The frame arrives that opens a stream. -/
theorem Pair.Sound.register {p : Pair} (h : p.Sound) {f : Frame} {fs : List Frame}
    (hframes : p.frames .server = f :: fs) (hf : f.type = .openStream) (payload : GoString) :
    (p.receive .server { newStream with stage := .waiting payload } (some (some .accepted))
      fs).Sound := by
  have hlink := h.link .server
  rw [hframes] at hlink
  have hnew : p.stream .server = newStream := (hlink.opening f mem_cons_self hf).1
  have hopened : (p.stream .client).stage = .handed := by
    by_contra hne
    rw [(h.unopened hne).2.2.1] at hframes
    cases hframes
  have hreader := hlink.register hf payload
  generalize hc : ({ newStream with stage := .waiting payload } : Stream) = c at *
  have hserver : (p.receive .server c (some (some .accepted)) fs).stream .server = c :=
    Pair.receive_stream_self
  have hclient : (p.receive .server c (some (some .accepted)) fs).stream .client =
      p.stream .client := Pair.receive_stream_peer
  have hself : (p.receive .server c (some (some .accepted)) fs).frames .client = p.frames .client :=
    Pair.receive_frames_peer
  have hmade : c.Made := by
    rw [← hc]
    exact ⟨nofun, nofun⟩
  refine ⟨?_, ?_, ?_, ?_, by rw [hself]; exact h.noOpen, by rw [hclient]; exact h.clientStage,
    .inr (.inr ⟨payload, by rw [hserver, ← hc]⟩), ?_, ?_⟩
  · intro s
    cases s with
    | client =>
      rw [hclient]
      exact h.sound .client
    | server =>
      rw [hserver, ← hc]
      exact sound_newStream.stage _ nofun nofun
  · intro s
    cases s with
    | client =>
      rw [hclient, hself, show client.peer = .server from rfl, hserver, ← hc]
      refine (h.link .client).of_writer ?_ ?_ ?_
      · rw [show client.peer = .server from rfl, hnew]
      · rw [show client.peer = .server from rfl, hnew]
        nofun
      · nofun
    | server =>
      rw [hserver, show server.peer = .client from rfl, hclient, Pair.receive_frames_self]
      exact hreader
  · intro s o ho
    cases s with
    | client =>
      rw [hclient]
      exact h.table .client o ho
    | server =>
      rw [hserver]
      exact ⟨(Option.some.inj ho).symm, hmade⟩
  · intro s hs hnone
    cases s with
    | client =>
      exact h.gone .client hs hnone
    | server => cases hnone
  · intro hne
    exact absurd hopened hne
  · intro habsent
    rw [hserver] at habsent
    exact absurd habsent hmade.1

end Hako.Multiplex
