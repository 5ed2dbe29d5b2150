import Hako.Multiplex.Session

/-!
# One direction of one stream

A writer, a reader and the frames between them. While the reader takes what comes, the bytes that
were written are those it has, followed by those on their way; it stops to take any when it is
closed in one way or another.
-/

namespace Hako.Multiplex

open GoLib List Multiplex.Stream

namespace Stream

variable {c : Stream}

/-- The stream has been put into the table. -/
def Made (c : Stream) : Prop := c.stage ≠ .absent ∧ ∀ payload, c.stage ≠ .allocated payload

/-- The stream takes no more data. -/
def Flagged (c : Stream) : Prop :=
  c.closed = true ∨ c.localReadClosed = true ∨ c.remoteWriteClosed = true

/-- The stream takes what comes. -/
def Live (c : Stream) : Prop := c.Made ∧ ¬ c.Flagged

theorem not_live_newStream : ¬ newStream.Live := fun h => h.1.1 rfl

/-- What holds of a stream by itself. -/
structure Sound (c : Stream) : Prop where
  queued : c.queuedBytes = c.unread.length
  bounded : c.queuedBytes ≤ maxQueuedBytesPerStream
  nonempty : [] ∉ c.queue
  idle : c.stage ≠ .handed → c.holder = .free ∧ c.written = [] ∧ c.removing = false
  writing : ∀ p, c.holder = .writing p → c.localWriteClosed = false
  closing : ∀ remove, c.holder = .closing remove →
    c.localWriteClosed = true ∧ (remove = true → c.Flagged)
  removing : c.holder = .removing → c.Flagged
  readRemoving : c.removing = true → c.Flagged
  refused : c.stage = .refusedClosed → c.Flagged

theorem sound_newStream : newStream.Sound :=
  ⟨rfl, Nat.zero_le _, nofun, fun _ => ⟨rfl, rfl, rfl⟩, nofun, nofun, nofun, nofun, nofun⟩

/-! ### What `Read` does -/

theorem unread_refill (c : Stream) : c.refill.unread = c.unread := by
  unfold refill
  split
  · next payload queue hbuf hqueue => simp [unread, hbuf, hqueue]
  · rfl

/-- A stream after the buffer was filled again, but for what it holds. -/
theorem refill_eq (c : Stream) :
    c.refill = { c with readBuf := c.refill.readBuf, queue := c.refill.queue } := by
  unfold refill
  split <;> rfl

theorem nonempty_refill (h : [] ∉ c.queue) : [] ∉ c.refill.queue := by
  unfold refill
  split
  · next payload queue hbuf hqueue =>
    rw [hqueue] at h
    exact fun hmem => h (mem_cons_of_mem _ hmem)
  · exact h

theorem unread_of_refill (hqueue : [] ∉ c.queue) (h : c.refill.readBuf = []) : c.unread = [] := by
  unfold refill at h
  split at h
  · next payload queue hbuf hq =>
    rw [hq, show payload = [] from h] at hqueue
    exact absurd mem_cons_self hqueue
  · next hcase =>
    cases hq : c.queue with
    | nil => simp [unread, h, hq]
    | cons payload queue => exact absurd hq (hcase payload queue h)

/-- `Read` changes only what a stream holds and what it has returned. -/
theorem read_eq (c : Stream) (size : Nat) :
    c.read size = { c with
      readBuf := (c.read size).readBuf, queue := (c.read size).queue,
      queuedBytes := (c.read size).queuedBytes, returned := (c.read size).returned,
      eof := (c.read size).eof } := by
  unfold read
  rw [refill_eq]
  split
  · rfl
  · split
    · rfl
    · dsimp only
      split
      · rfl
      · split <;> rfl

/-- What a section on a stream does to what it holds. -/
structure Consumes (c c' : Stream) : Prop where
  bytes : c'.returned ++ c'.unread = c.returned ++ c.unread
  returned : c.returned <+: c'.returned
  queued : c.queuedBytes = c.unread.length → c'.queuedBytes = c'.unread.length
  le : c'.queuedBytes ≤ c.queuedBytes
  nonempty : [] ∉ c'.queue
  eof : c'.eof = true → c.eof = true ∨
    c.remoteWriteClosed = true ∧ c.closed = false ∧ c.localReadClosed = false ∧
      c'.returned = c.returned ++ c.unread

theorem consumes_read (hqueue : [] ∉ c.queue) (size : Nat) : Consumes c (c.read size) := by
  have hsame : Consumes c c := ⟨rfl, prefix_rfl, id, le_refl _, hqueue, .inl⟩
  have hnonempty := nonempty_refill hqueue
  have hheld : c.refill.readBuf ++ c.refill.queue.flatten = c.unread := unread_refill c
  have hempty := @unread_of_refill c hqueue
  unfold read
  split
  · exact hsame
  · split
    · exact hsame
    · rw [refill_eq]
      -- from here on only what the refilled stream holds matters
      generalize c.refill.readBuf = buf at *
      generalize c.refill.queue = queue at *
      dsimp only
      split
      · exact ⟨by simp only [unread, hheld], prefix_rfl, by simp only [unread, hheld, imp_self],
          le_refl _, hnonempty, .inl⟩
      · next herr =>
        split
        · next hend =>
          refine ⟨by simp only [unread, hheld], prefix_rfl,
            by simp only [unread, hheld, imp_self], le_refl _, hnonempty, fun _ => .inr ?_⟩
          have hflags : ¬ (c.closed = true ∨ c.localReadClosed = true) := fun h => herr ⟨hend.1, h⟩
          rw [not_or, Bool.not_eq_true, Bool.not_eq_true] at hflags
          exact ⟨hend.2, hflags.1, hflags.2, by rw [hempty hend.1, append_nil]⟩
        · refine ⟨?_, prefix_append _ _, ?_, Nat.sub_le _ _, hnonempty, .inl⟩
          · rw [unread, ← hheld, append_assoc, ← append_assoc (buf.take size), take_append_drop]
          · intro hqueued
            rw [unread, hqueued, ← hheld]
            simp only [length_append, length_take, length_drop]
            omega

/-! ### Streams stay sound -/

theorem flagged_closeNoSend (c : Stream) (err : CloseErr) : (c.closeNoSend err).Flagged := by
  unfold closeNoSend
  split
  · exact .inl ‹_›
  · exact .inl rfl

/-- What `closeNoSend` leaves alone. -/
theorem closeNoSend_eq (c : Stream) (err : CloseErr) :
    c.closeNoSend err = { c with closed := true, closeErr := (c.closeNoSend err).closeErr } := by
  unfold closeNoSend
  split
  · next h => rw [← h]
  · rfl

theorem Sound.closeNoSend (h : c.Sound) (err : CloseErr) : (c.closeNoSend err).Sound := by
  rw [closeNoSend_eq]
  have hflag : ∀ {c' : Stream}, c'.closed = true → c'.Flagged := .inl
  exact ⟨h.queued, h.bounded, h.nonempty, h.idle, h.writing,
    fun remove hremove => ⟨(h.closing remove hremove).1, fun _ => hflag rfl⟩, fun _ => hflag rfl,
    fun _ => hflag rfl, fun _ => hflag rfl⟩

theorem Sound.closeRemoteWrite (h : c.Sound) : c.closeRemoteWrite.1.Sound := by
  unfold Stream.closeRemoteWrite
  split
  · exact h
  · have hflag : ∀ {c' : Stream}, c'.remoteWriteClosed = true → c'.Flagged := fun h => .inr (.inr h)
    exact ⟨h.queued, h.bounded, h.nonempty, h.idle, h.writing,
      fun remove hremove => ⟨(h.closing remove hremove).1, fun _ => hflag rfl⟩, fun _ => hflag rfl,
      fun _ => hflag rfl, fun _ => hflag rfl⟩

variable {payload : GoString} {c' : Stream}

/-- A stream that takes a payload holds it behind the others. -/
theorem enqueue_cases (h : c.enqueue payload = some c') :
    c.Flagged ∧ c' = c ∨ ¬ c.Flagged ∧ c.queuedBytes + payload.length ≤ maxQueuedBytesPerStream ∧
      c'.unread = c.unread ++ payload ∧ (payload ≠ [] → [] ∉ c.queue → [] ∉ c'.queue) ∧
      c' = { c with
        queuedBytes := c.queuedBytes + payload.length, readBuf := c'.readBuf, queue := c'.queue } := by
  unfold enqueue at h
  split at h
  · next hflag =>
    refine .inl ⟨?_, (Option.some.inj h).symm⟩
    simpa [Flagged, or_assoc] using hflag
  · next hflag =>
    have hnot : ¬ c.Flagged := by simpa [Flagged, or_assoc] using hflag
    split at h
    · cases h
    · next hroom =>
      refine .inr ⟨hnot, Nat.le_of_not_lt hroom, ?_⟩
      split at h
      · next hempty =>
        obtain rfl := Option.some.inj h
        exact ⟨by simp [unread, hempty.1, hempty.2], fun _ hq => hq, rfl⟩
      · obtain rfl := Option.some.inj h
        refine ⟨by simp [unread], fun hpayload hq => ?_, rfl⟩
        rw [mem_append, mem_singleton]
        rintro (hmem | hmem)
        · exact hq hmem
        · exact hpayload hmem.symm

variable (h : c.Sound)
include h

theorem Sound.enqueue (hpayload : payload ≠ [])
    (henqueue : c.enqueue payload = some c') : c'.Sound := by
  obtain ⟨-, rfl⟩ | ⟨-, hroom, hunread, hqueue, heq⟩ := enqueue_cases henqueue
  · exact h
  · have hnonempty := hqueue hpayload h.nonempty
    have hqueued : c'.queuedBytes = c'.unread.length := by
      rw [hunread, length_append, ← h.queued, heq]
    rw [heq] at hqueued hnonempty ⊢
    exact { h with queued := hqueued, bounded := hroom, nonempty := hnonempty }

section

variable (hstage : c.stage = .handed)
include hstage

theorem Sound.read (size : Nat) :
    (c.read size).Sound := by
  have hc := consumes_read h.nonempty size
  have hqueued := hc.queued h.queued
  have hle := le_trans hc.le h.bounded
  have hnonempty := hc.nonempty
  rw [read_eq] at hqueued hle hnonempty ⊢
  exact { h with
    queued := hqueued, bounded := hle, nonempty := hnonempty, idle := fun hne => absurd hstage hne }

theorem Sound.write (p : GoString) :
    (c.write p).Sound := by
  unfold Stream.write
  split
  · next hok =>
    exact { h with
      idle := fun hne => absurd hstage hne, writing := fun _ _ => by simpa using hok.2.2.2,
      closing := nofun, removing := nofun }
  · exact h

theorem Sound.close : c.close.Sound := by
  unfold Stream.close
  split
  · have hflag : ∀ {c' : Stream}, c'.closed = true → c'.Flagged := .inl
    refine ⟨rfl, Nat.zero_le _, nofun, fun hne => absurd hstage hne, ?_,
      fun _ _ => ⟨rfl, fun _ => hflag rfl⟩, fun _ => hflag rfl, fun _ => hflag rfl,
      fun _ => hflag rfl⟩
    intro p hp
    split at hp <;> cases hp
  · exact h

theorem Sound.closeWrite : c.closeWrite.Sound := by
  unfold Stream.closeWrite
  split
  · refine { h with
      idle := fun hne => absurd hstage hne, writing := nofun, closing := ?_, removing := nofun }
    intro remove hremove
    refine ⟨rfl, fun htrue => ?_⟩
    rw [← Holder.closing.inj hremove, Bool.or_eq_true] at htrue
    exact .inr htrue.symm
  · exact h

theorem Sound.closeRead : c.closeRead.Sound := by
  unfold Stream.closeRead
  split
  · have hflag : ∀ {c' : Stream}, c'.localReadClosed = true → c'.Flagged := fun h => .inr (.inl h)
    exact ⟨rfl, Nat.zero_le _, nofun, fun hne => absurd hstage hne, h.writing,
      fun remove hremove => ⟨(h.closing remove hremove).1, fun _ => hflag rfl⟩, fun _ => hflag rfl,
      fun _ => hflag rfl, fun _ => hflag rfl⟩
  · exact h

end

/-- What keeps a stream sound does not depend on where its calls are. -/
theorem Sound.holder (hstage : c.holder ≠ .free) : c.stage = .handed := by
  by_contra hne
  exact hstage (h.idle hne).1

theorem Sound.proceed : c.proceed.1.Sound := by
  unfold Stream.proceed
  split
  · exact h
  · next p hp =>
    have hhanded := h.holder (by rw [hp]; nofun)
    refine { h with
      idle := fun hne => absurd hhanded hne, writing := fun _ _ => h.writing p hp, closing := ?_,
      removing := ?_ }
    · intro remove hremove
      split at hremove <;> cases hremove
    · intro hremove
      split at hremove <;> cases hremove
  · next remove hremove =>
    have hhanded := h.holder (by rw [hremove]; nofun)
    have hclosing := h.closing remove hremove
    refine { h with
      idle := fun hne => absurd hhanded hne, writing := ?_, closing := ?_, removing := ?_ }
    · intro p hp
      split at hp <;> cases hp
    · intro other hother
      split at hother <;> cases hother
    · intro hholder
      split at hholder
      · next htrue => exact hclosing.2 htrue
      · cases hholder
  · next hremove =>
    have hhanded := h.holder (by rw [hremove]; nofun)
    exact { h with
      idle := fun hne => absurd hhanded hne, writing := nofun, closing := nofun, removing := nofun }

/-- A section that moves only the stage along. -/
theorem Sound.stage (stage : Stage) (hfree : c.stage ≠ .handed)
    (hrefused : stage = .refusedClosed → c.Flagged) : { c with stage := stage }.Sound :=
  { h with idle := fun _ => h.idle hfree, refused := hrefused }

theorem Sound.resetDue (due : ResetDue) : { c with resetDue := due }.Sound :=
  { h with }

theorem Sound.openNext : c.openNext.1.Sound := by
  unfold Stream.openNext
  split
  · next hstage => exact h.stage _ (by rw [hstage]; nofun) nofun
  · next hstage =>
    have hne : c.stage ≠ .handed := by rw [hstage]; nofun
    split <;> exact h.stage _ hne nofun
  · next hstage =>
    refine (h.closeNoSend .openFailed).stage _ ?_ fun _ => flagged_closeNoSend _ _
    rw [closeNoSend_eq, hstage]
    nofun
  · next hstage => exact h.stage _ (by rw [hstage]; nofun) nofun
  · exact h

theorem Sound.step (call : Call) : (c.step call).1.Sound := by
  have hcall : ∀ {c' : Stream}, (c.stage = .handed → c'.Sound) →
      Stream.Sound (if c.stage = .handed then c' else c) :=
    fun hc => iteInduction hc fun _ => h
  cases call with
  | read size => exact hcall fun hstage => h.read hstage size
  | write p => exact hcall fun hstage => h.write hstage p
  | close => exact hcall h.close
  | closeWrite => exact hcall h.closeWrite
  | closeRead => exact hcall h.closeRead
  | proceed => exact h.proceed
  | remove =>
    rw [Stream.step]
    split
    · exact { h with
        idle := fun hne => ⟨(h.idle hne).1, (h.idle hne).2.1, rfl⟩
        readRemoving := nofun }
    · exact h
  | reset =>
    rw [Stream.step, Stream.sendReset]
    split
    · exact h
    · exact h.resetDue _
    · exact h.resetDue _
  | openStream => exact h.openNext
  | accept =>
    rw [Stream.step]
    split
    · next hstage => exact h.stage _ (by rw [hstage]; nofun) nofun
    · exact h

end Stream

/-! ### Frames on their way -/

/-- The bytes in some frames. -/
def dataOf (fs : List Frame) : GoString :=
  fs.flatMap fun f => if f.type = .data then f.payload else []

@[simp] theorem dataOf_append (fs gs : List Frame) : dataOf (fs ++ gs) = dataOf fs ++ dataOf gs :=
  flatMap_append

/-- No data comes behind a close frame, unless the stream is reset before. -/
def Ends (done : Prop) : List Frame → Prop
  | [] => True
  | f :: fs =>
    match f.type with
    | .reset => True
    | .close => done ∧ dataOf fs = []
    | _ => Ends done fs

variable {fs : List Frame}

theorem Ends.mono {done done' : Prop} (himp : done → done') (h : Ends done fs) :
    Ends done' fs := by
  induction fs with
  | nil => trivial
  | cons f fs ih =>
    unfold Ends at h ⊢
    split
    · trivial
    · next hclose =>
      rw [hclose] at h
      exact ⟨himp h.1, h.2⟩
    · next hreset hclose =>
      split at h
      · exact absurd ‹_› hreset
      · exact absurd ‹_› hclose
      · exact ih h

/-- One more frame: data only if there is more to come, and a close frame only if there is not, or
behind a reset. -/
theorem Ends.concat {done : Prop} {g : Frame} (h : Ends done fs) (hdata : done → dataOf [g] = [])
    (hclose : g.type = .close → done ∨ ∃ f ∈ fs, f.type = .reset) : Ends done (fs ++ [g]) := by
  induction fs with
  | nil =>
    rw [nil_append]
    unfold Ends
    split
    · trivial
    · next hg =>
      obtain hdone | ⟨f, hf, -⟩ := hclose hg
      · exact ⟨hdone, rfl⟩
      · cases hf
    · trivial
  | cons f fs ih =>
    rw [cons_append]
    unfold Ends at h ⊢
    split
    · trivial
    · next hf =>
      rw [hf] at h
      exact ⟨h.1, by rw [dataOf_append, h.2, hdata h.1, nil_append]⟩
    · next hreset hcl =>
      split at h
      · exact absurd ‹_› hreset
      · exact absurd ‹_› hcl
      · refine ih h fun hg => (hclose hg).imp_right ?_
        rintro ⟨f', hf', htype⟩
        obtain rfl | hmem := mem_cons.mp hf'
        · exact absurd htype hreset
        · exact ⟨f', hmem, htype⟩

/-! ### Links -/

/-- What ties a writer, a reader and the frames between them. -/
structure Link (writer reader : Stream) (frames : List Frame) : Prop where
  returned : reader.returned ++ reader.unread <+: writer.written
  live : reader.Live → writer.written = reader.returned ++ reader.unread ++ dataOf frames ∧
    Ends (writer.localWriteClosed = true) frames
  ended : reader.remoteWriteClosed = true → reader.closed = false →
    reader.localReadClosed = false →
    writer.localWriteClosed = true ∧ writer.written = reader.returned ++ reader.unread
  eof : reader.eof = true → writer.localWriteClosed = true ∧ reader.returned = writer.written
  /-- The frame that opens the stream comes first, and the reader is made when it arrives. -/
  opening : ∀ f ∈ frames, f.type = .openStream → reader = newStream ∧
    ∃ rest, frames = f :: rest ∧ (∀ g ∈ rest, g.type ≠ .openStream) ∧
      writer.written = dataOf rest ∧ Ends (writer.localWriteClosed = true) rest
  /-- A reset arrives before the close frame that `sendReset` sends behind it. -/
  reset : writer.resetDue = .close → (∃ f ∈ frames, f.type = .reset) ∨
    ¬ reader.Live ∧ ∀ f ∈ frames, f.type ≠ .openStream

namespace Link

variable {writer reader writer' reader' : Stream} {frames : List Frame} {f g : Frame}

section

variable (h : Link writer reader frames)
include h

/-- The writer changes and sends nothing. -/
theorem of_writer (hwritten : writer'.written = writer.written)
    (hclosed : writer.localWriteClosed = true → writer'.localWriteClosed = true)
    (hreset : writer'.resetDue = .close → writer.resetDue = .close) :
    Link writer' reader frames := by
  refine ⟨?_, ?_, ?_, ?_, ?_, fun hdue => h.reset (hreset hdue)⟩
  · rw [hwritten]
    exact h.returned
  · intro hlive
    rw [hwritten]
    exact ⟨(h.live hlive).1, (h.live hlive).2.mono hclosed⟩
  · intro hremote hclosed' hread
    rw [hwritten]
    exact ⟨hclosed (h.ended hremote hclosed' hread).1, (h.ended hremote hclosed' hread).2⟩
  · intro heof
    rw [hwritten]
    exact ⟨hclosed (h.eof heof).1, (h.eof heof).2⟩
  · intro f hf htype
    obtain ⟨hnew, rest, hframes, hrest, hdata, hends⟩ := h.opening f hf htype
    exact ⟨hnew, rest, hframes, hrest, by rw [hwritten, hdata], hends.mono hclosed⟩

/-- The writer sends a frame. -/
theorem send (hg : g.type ≠ .openStream) (hwritten : writer'.written = writer.written ++ dataOf [g])
    (hclosed : writer'.localWriteClosed = writer.localWriteClosed)
    (hdata : writer.localWriteClosed = true → dataOf [g] = [])
    (hclose : g.type = .close → writer.localWriteClosed = true ∨ writer.resetDue = .close)
    (hreset : writer'.resetDue = .close → writer.resetDue = .close ∨ g.type = .reset) :
    Link writer' reader (frames ++ [g]) := by
  have hnone : (∀ f ∈ frames, f.type ≠ .openStream) → ∀ f ∈ frames ++ [g],
      f.type ≠ .openStream :=
    fun hframes => forall_mem_append.mpr ⟨hframes, forall_mem_singleton.mpr hg⟩
  refine ⟨?_, ?_, ?_, ?_, ?_, ?_⟩
  · rw [hwritten]
    exact h.returned.trans (prefix_append _ _)
  · intro hlive
    obtain ⟨hbytes, hends⟩ := h.live hlive
    refine ⟨by rw [hwritten, hbytes, dataOf_append, ← append_assoc], ?_⟩
    rw [hclosed]
    refine hends.concat hdata fun htype => (hclose htype).imp_right fun hdue => ?_
    exact (h.reset hdue).resolve_right fun hdead => hdead.1 hlive
  · intro hremote hclosed' hread
    obtain ⟨hdone, hbytes⟩ := h.ended hremote hclosed' hread
    rw [hclosed, hwritten, hdata hdone, append_nil]
    exact ⟨hdone, hbytes⟩
  · intro heof
    obtain ⟨hdone, hbytes⟩ := h.eof heof
    rw [hclosed, hwritten, hdata hdone, append_nil]
    exact ⟨hdone, hbytes⟩
  · intro f hf htype
    rw [mem_append, mem_singleton] at hf
    obtain hf | rfl := hf
    · obtain ⟨hnew, rest, hframes, hrest, hbytes, hends⟩ := h.opening f hf htype
      refine ⟨hnew, rest ++ [g], by rw [hframes, cons_append],
        forall_mem_append.mpr ⟨hrest, forall_mem_singleton.mpr hg⟩, ?_, ?_⟩
      · rw [hwritten, hbytes, dataOf_append]
      · rw [hclosed]
        refine hends.concat hdata fun hgtype => (hclose hgtype).imp_right fun hdue => ?_
        obtain ⟨f', hf', hf'type⟩ := (h.reset hdue).resolve_right fun hdead => hdead.2 f hf htype
        rw [hframes] at hf'
        obtain rfl | hmem := mem_cons.mp hf'
        · rw [htype] at hf'type
          cases hf'type
        · exact ⟨f', hmem, hf'type⟩
    · exact absurd htype hg
  · intro hdue
    obtain hdue | htype := hreset hdue
    · obtain ⟨f, hf, htype⟩ | ⟨hdead, hframes⟩ := h.reset hdue
      · exact .inl ⟨f, mem_append_left _ hf, htype⟩
      · exact .inr ⟨hdead, hnone hframes⟩
    · exact .inl ⟨g, mem_append_right _ mem_cons_self, htype⟩

/-- The reader changes on its own: it gives out bytes or throws some away. -/
theorem of_reader (hopen : ∀ f ∈ frames, f.type ≠ .openStream)
    (hbytes : reader'.returned ++ reader'.unread <+: reader.returned ++ reader.unread)
    (hlive : reader'.Live → reader.Live ∧
      reader'.returned ++ reader'.unread = reader.returned ++ reader.unread)
    (hended : reader'.remoteWriteClosed = true → reader'.closed = false →
      reader'.localReadClosed = false →
      reader.remoteWriteClosed = true ∧ reader.closed = false ∧ reader.localReadClosed = false ∧
        reader'.returned ++ reader'.unread = reader.returned ++ reader.unread)
    (heof : reader'.eof = true → reader.eof = true ∧ reader.returned <+: reader'.returned ∨
      reader.remoteWriteClosed = true ∧ reader.closed = false ∧ reader.localReadClosed = false ∧
        reader'.returned = reader.returned ++ reader.unread) : Link writer reader' frames := by
  refine ⟨hbytes.trans h.returned, ?_, ?_, ?_, fun f hf htype => absurd htype (hopen f hf), ?_⟩
  · intro hl
    rw [(hlive hl).2]
    exact h.live (hlive hl).1
  · intro hremote hclosed hread
    obtain ⟨hremote, hclosed, hread, heq⟩ := hended hremote hclosed hread
    rw [heq]
    exact h.ended hremote hclosed hread
  · intro he
    obtain ⟨hold, hprefix⟩ | ⟨hremote, hclosed, hread, heq⟩ := heof he
    · obtain ⟨hdone, hall⟩ := h.eof hold
      refine ⟨hdone, ?_⟩
      have hle : reader'.returned <+: writer.written :=
        ((prefix_append _ _).trans hbytes).trans h.returned
      rw [hall] at hprefix
      exact hle.eq_of_length (le_antisymm hle.length_le hprefix.length_le)
    · obtain ⟨hdone, hall⟩ := h.ended hremote hclosed hread
      exact ⟨hdone, by rw [heq, hall]⟩
  · intro hdue
    obtain hr | ⟨hdead, hnone⟩ := h.reset hdue
    · exact .inl hr
    · exact .inr ⟨fun hl => hdead (hlive hl).1, hnone⟩

end

variable (h : Link writer reader (f :: frames))
include h

/-- A frame arrives that does not open the stream: none behind it does. -/
theorem no_open (hf : f.type ≠ .openStream) :
    ∀ g ∈ f :: frames, g.type ≠ .openStream := by
  intro g hg htype
  obtain ⟨-, rest, hframes, -⟩ := h.opening g hg htype
  rw [(List.cons.inj hframes).1] at hf
  exact hf htype

/-- A frame is ignored: the reader takes nothing, or there is nothing in it. -/
theorem skip (hf : f.type ≠ .openStream)
    (hskip : ¬ reader.Live ∨ f.type = .data ∧ f.payload = []) : Link writer reader frames := by
  have hopen := h.no_open hf
  refine ⟨h.returned, ?_, h.ended, h.eof, ?_, ?_⟩
  · intro hlive
    obtain ⟨htype, hempty⟩ := hskip.resolve_left (not_not_intro hlive)
    obtain ⟨hbytes, hends⟩ := h.live hlive
    refine ⟨by simpa [dataOf, hempty] using hbytes, ?_⟩
    unfold Ends at hends
    rwa [htype] at hends
  · intro g hg htype
    exact absurd htype (hopen g (mem_cons_of_mem _ hg))
  · intro hdue
    have hrest : ∀ g ∈ frames, g.type ≠ .openStream := fun g hg =>
      hopen g (mem_cons_of_mem _ hg)
    obtain ⟨g, hg, htype⟩ | ⟨hdead, -⟩ := h.reset hdue
    · obtain rfl | hmem := mem_cons.mp hg
      · refine .inr ⟨hskip.resolve_right fun hdata => ?_, hrest⟩
        rw [hdata.1] at htype
        cases htype
      · exact .inl ⟨g, hmem, htype⟩
    · exact .inr ⟨hdead, hrest⟩

/-- A payload arrives and is held for `Read`. -/
theorem enqueue (hf : f.type = .data) (hmade : reader.Made)
    (henqueue : reader.enqueue f.payload = some reader') : Link writer reader' frames := by
  have hne : f.type ≠ .openStream := by rw [hf]; nofun
  obtain ⟨hflag, rfl⟩ | ⟨hflag, -, hunread, -, heq⟩ := enqueue_cases henqueue
  · exact h.skip hne (.inl fun hlive => hlive.2 hflag)
  · obtain ⟨hbytes, hends⟩ := h.live ⟨hmade, hflag⟩
    have hreturned : reader'.returned = reader.returned := by rw [heq]
    have hflag' : ¬ reader'.Flagged := by
      rw [heq]
      exact hflag
    have hall : writer.written = reader'.returned ++ reader'.unread ++ dataOf frames := by
      rw [hbytes, hreturned, hunread]
      simp [dataOf, hf]
    have hopen := h.no_open hne
    refine ⟨⟨_, hall.symm⟩, fun _ => ⟨hall, ?_⟩, ?_, ?_, ?_, ?_⟩
    · unfold Ends at hends
      rwa [hf] at hends
    · exact fun hremote => absurd (.inr (.inr hremote)) hflag'
    · intro heof
      rw [heq] at heof
      -- the end was reported before, so that nothing was on its way
      obtain ⟨hdone, hall'⟩ := h.eof heof
      rw [hreturned]
      exact ⟨hdone, hall'⟩
    · exact fun g hg htype => absurd htype (hopen g (mem_cons_of_mem _ hg))
    · intro hdue
      obtain ⟨g, hg, htype⟩ | ⟨hdead, -⟩ := h.reset hdue
      · obtain rfl | hmem := mem_cons.mp hg
        · rw [hf] at htype
          cases htype
        · exact .inl ⟨g, hmem, htype⟩
      · exact absurd ⟨hmade, hflag⟩ hdead

/-- The close frame arrives. -/
theorem closeRemoteWrite (hf : f.type = .close)
    (hmade : reader.Made) : Link writer reader.closeRemoteWrite.1 frames := by
  have hne : f.type ≠ .openStream := by rw [hf]; nofun
  have hopen := h.no_open hne
  unfold Stream.closeRemoteWrite
  split
  · next hclosed => exact h.skip hne (.inl fun hlive => hlive.2 (.inl hclosed))
  · next hclosed =>
    have hdead : ¬ Live { reader with remoteWriteClosed := true } := fun hlive =>
      hlive.2 (.inr (.inr rfl))
    refine ⟨h.returned, fun hlive => absurd hlive hdead, ?_, h.eof, ?_, ?_⟩
    · intro _ hclosed' hread
      cases hremote : reader.remoteWriteClosed with
      | true => exact h.ended hremote hclosed' hread
      | false =>
        replace hclosed' : reader.closed = false := hclosed'
        replace hread : reader.localReadClosed = false := hread
        have hflag : ¬ reader.Flagged := by simp [Flagged, hremote, hclosed', hread]
        obtain ⟨hbytes, hends⟩ := h.live ⟨hmade, hflag⟩
        unfold Ends at hends
        rw [hf] at hends
        refine ⟨hends.1, ?_⟩
        have hdata : dataOf (f :: frames) = [] := by
          simpa [dataOf, hf] using hends.2
        rw [hbytes, hdata, append_nil]
        rfl
    · exact fun g hg htype => absurd htype (hopen g (mem_cons_of_mem _ hg))
    · exact fun _ => .inr ⟨hdead, fun g hg => hopen g (mem_cons_of_mem _ hg)⟩

/-- A frame makes the reader close. -/
theorem closeNoSend (hne : f.type ≠ .openStream)
    (err : CloseErr) : Link writer (reader.closeNoSend err) frames := by
  have hopen := h.no_open hne
  have hdead : ¬ (reader.closeNoSend err).Live := fun hlive =>
    hlive.2 (flagged_closeNoSend _ _)
  rw [closeNoSend_eq] at hdead ⊢
  exact ⟨h.returned, fun hlive => absurd hlive hdead, fun _ => nofun, h.eof,
    fun g hg htype => absurd htype (hopen g (mem_cons_of_mem _ hg)),
    fun _ => .inr ⟨hdead, fun g hg => hopen g (mem_cons_of_mem _ hg)⟩⟩

/-- The frame arrives that opens the stream. -/
theorem register (hf : f.type = .openStream)
    (payload : GoString) : Link writer { newStream with stage := .waiting payload } frames := by
  obtain ⟨-, rest, hframes, hrest, hbytes, hends⟩ := h.opening f mem_cons_self hf
  obtain rfl := (List.cons.inj hframes).2
  refine ⟨List.nil_prefix, fun _ => ⟨hbytes, hends⟩, nofun, nofun,
    fun g hg htype => absurd htype (hrest g hg), ?_⟩
  intro hdue
  obtain ⟨g, hg, htype⟩ | ⟨-, hnone⟩ := h.reset hdue
  · obtain rfl | hmem := mem_cons.mp hg
    · rw [hf] at htype
      cases htype
    · exact .inl ⟨g, hmem, htype⟩
  · exact absurd hf (hnone f mem_cons_self)

end Link

end Hako.Multiplex
