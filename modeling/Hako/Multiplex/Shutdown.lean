import Hako.Multiplex.Session

/-!
# Closing a server session

`closeWithError` takes all streams out of the table in one section, closes each of them, and then
closes the channel that tells everybody. The read loop may be in the middle of a frame all the
while: it may put a new stream into the table after the sweep, and start the goroutine that offers
the stream to `AcceptStream`. This goroutine waits for room in the queue or for the end of the
session, whichever it sees first; only in the second case it closes the stream.

So a stream that is registered after the sweep and offered nevertheless is never closed.

Every section under a mutex and every operation on a channel is one action. `sendReset` does
nothing here but may call `closeWithError`, as every goroutine may at any time.
-/

namespace Hako.Multiplex.Shutdown

open GoLib List

/-! ### The session -/

/-- The goroutine that offers a stream to `AcceptStream`. -/
inductive Handover where
  | offering (payload : GoString)
  /-- It has seen the end of the session and closes the stream, -/
  | closing
  /-- and removes it. -/
  | removing
  | finished
deriving DecidableEq

/-- A stream with its goroutine. `late` is there for the statements: the table was swept before the
stream was put into it. -/
structure Entry where
  id : Nat
  stream : Stream
  handover : Handover
  late : Bool

/-- Where the read loop is. A stream is given by its place in `streams`. -/
inductive Loop where
  | idle
  | register (id : Nat) (payload : GoString)
  | enqueue (ref id : Nat) (payload : GoString)
  | closeRemoteWrite (ref id : Nat)
  | closeNoSend (ref id : Nat) (err : CloseErr)
  | remove (ref id : Nat)
  | closeWithError (err : CloseErr)
  | finished

/-- Where the call of `closeWithError` is that `closeOnce` lets through. -/
inductive Closer where
  | idle
  /-- It has swept the table and has these streams to close. -/
  | sweeping (err : CloseErr) (left : List Nat)
  /-- It has closed the channel and closes the connection. -/
  | signalled
  | returned

structure Session where
  /-- All streams there ever were. -/
  streams : List Entry
  /-- The table, by stream id. -/
  table : List (Nat × Nat)
  acceptCh : List (Nat × GoString)
  /-- The channel `closed` is closed. -/
  closed : Bool
  closer : Closer
  loop : Loop
  /-- The streams that `AcceptStream` has returned. -/
  accepted : List Nat

def start : Session := ⟨[], [], [], false, .idle, .idle, []⟩

def acceptCapacity : Nat := 256

namespace Session

def getStream (s : Session) (id : Nat) : Option Nat := (s.table.find? (·.1 = id)).map Prod.snd

def removeStream (s : Session) (id : Nat) : Session :=
  { s with table := s.table.filter (·.1 ≠ id) }

/-- Changes one stream. -/
def modify (s : Session) (ref : Nat) (f : Entry → Entry) : Session :=
  { s with streams := s.streams.modify ref f }

/-- Changes one stream under its mutex. -/
def modifyStream (s : Session) (ref : Nat) (f : Stream → Stream) : Session :=
  s.modify ref fun e => { e with stream := f e.stream }

/-- `newStream` and `registerStream`, and the goroutine. -/
def register (s : Session) (id : Nat) (payload : GoString) : Session :=
  let late := match s.closer with
    | .idle => false
    | _ => true
  { s with
      streams := s.streams ++ [⟨id, newStream, .offering payload, late⟩]
      table := (id, s.streams.length) :: s.table.filter (·.1 ≠ id) }

/-- The first section of `closeWithError`, for the call that `closeOnce` lets through. -/
def sweep (s : Session) (err : CloseErr) : Session :=
  match s.closer with
  | .idle => { s with closer := .sweeping err (s.table.map Prod.snd), table := [] }
  | _ => s

/-- The read loop has a frame, and looks for its stream. -/
def dispatch (s : Session) (f : Frame) : Session :=
  match f.type, s.getStream f.id with
  | .openStream, none => if f.id = 0 then s else { s with loop := .register f.id f.payload }
  | .openStream, some _ => s
  | _, none => s
  | .data, some ref => if f.payload = [] then s else { s with loop := .enqueue ref f.id f.payload }
  | .close, some ref => { s with loop := .closeRemoteWrite ref f.id }
  | .reset, some ref => { s with loop := .closeNoSend ref f.id (State.loopErr f) }

/-- The next section of `readLoop`, once it has a frame. -/
def readLoop (s : Session) : Session :=
  match s.loop with
  | .idle => s
  | .register id payload => { s.register id payload with loop := .idle }
  | .enqueue ref id payload =>
    match s.streams[ref]? with
    | none => s
    | some e =>
      match e.stream.enqueue payload with
      | some c => { s.modifyStream ref fun _ => c with loop := .idle }
      | none => { s with loop := .closeNoSend ref id .receiveQueueFull }
  | .closeRemoteWrite ref id =>
    match s.streams[ref]? with
    | none => s
    | some e =>
      { s.modifyStream ref fun _ => e.stream.closeRemoteWrite.1 with
          loop := if e.stream.closeRemoteWrite.2 then .remove ref id else .idle }
  | .closeNoSend ref id err =>
    { s.modifyStream ref (·.closeNoSend err) with loop := .remove ref id }
  | .remove _ id => { s.removeStream id with loop := .idle }
  | .closeWithError err =>
    match s.closer with
    | .idle => s.sweep err
    | .returned => { s with loop := .finished }
    | _ => s
  | .finished => s

/-- The next section of `closeWithError`; the streams are closed in any order. -/
def close (s : Session) (k : Nat) : Session :=
  match s.closer with
  | .sweeping err left =>
    match left[k]? with
    | some ref =>
      { s.modifyStream ref (·.closeNoSend err) with closer := .sweeping err (left.eraseIdx k) }
    | none => if left = [] then { s with closed := true, closer := .signalled } else s
  | .signalled => { s with closer := .returned }
  | _ => s

/-- The goroutine of a stream sends it to `acceptCh`. -/
def offer (s : Session) (ref : Nat) : Session :=
  match s.streams[ref]? with
  | some ⟨_, _, .offering payload, _⟩ =>
    if s.acceptCh.length < acceptCapacity then
      { s.modify ref fun e => { e with handover := .finished } with
          acceptCh := s.acceptCh ++ [(ref, payload)] }
    else s
  | _ => s

/-- The goroutine of a stream sees the end of the session. -/
def abandon (s : Session) (ref : Nat) : Session :=
  match s.streams[ref]? with
  | some ⟨_, _, .offering _, _⟩ =>
    if s.closed then s.modify ref fun e => { e with handover := .closing } else s
  | _ => s

/-- The next section of that goroutine. -/
def withdraw (s : Session) (ref : Nat) : Session :=
  match s.streams[ref]? with
  | some ⟨_, _, .closing, _⟩ =>
    s.modify ref fun e =>
      { e with stream := e.stream.closeNoSend .closedPipe, handover := .removing }
  | some ⟨id, _, .removing, _⟩ =>
    (s.modify ref fun e => { e with handover := .finished }).removeStream id
  | _ => s

/-- `AcceptStream`, where it returns a stream. -/
def acceptStream (s : Session) : Session :=
  match s.acceptCh with
  | [] => s
  | (ref, _) :: acceptCh => { s with acceptCh := acceptCh, accepted := s.accepted ++ [ref] }

end Session

inductive Action where
  /-- The read loop reads a frame. -/
  | frame (f : Frame)
  /-- It fails to read one, or cannot make sense of it. -/
  | fail (err : CloseErr)
  | readLoop
  /-- Some goroutine calls `closeWithError`. -/
  | closeWithError (err : CloseErr)
  | close (k : Nat)
  | offer (ref : Nat)
  | abandon (ref : Nat)
  | withdraw (ref : Nat)
  | acceptStream
  /-- `Read` on a stream, where it does not wait. -/
  | read (ref size : Nat)

def Session.step (s : Session) : Action → Session
  | .frame f =>
    match s.loop with
    | .idle => s.dispatch f
    | _ => s
  | .fail err =>
    match s.loop with
    | .idle => { s with loop := .closeWithError err }
    | _ => s
  | .readLoop => s.readLoop
  | .closeWithError err => s.sweep err
  | .close k => s.close k
  | .offer ref => s.offer ref
  | .abandon ref => s.abandon ref
  | .withdraw ref => s.withdraw ref
  | .acceptStream => s.acceptStream
  | .read ref size => s.modifyStream ref (·.read size)

def run (s : Session) (actions : List Action) : Session := actions.foldl Session.step s

/-- `closeWithError` has returned, and the read loop and all goroutines have finished. -/
structure Settled (s : Session) : Prop where
  closer : s.closer = .returned
  loop : s.loop = .finished
  handover : ∀ e ∈ s.streams, e.handover = .finished

/-- `Read` would wait. -/
def Waits (c : Stream) : Prop :=
  c.readBuf = [] ∧ c.queue = [] ∧ ¬ (c.closed ∨ c.localReadClosed ∨ c.remoteWriteClosed)

/-- The streams that `AcceptStream` has returned or may return, and those in the table. -/
def Session.reachable (s : Session) : List Nat :=
  s.accepted ++ s.acceptCh.map Prod.fst ++ s.table.map Prod.snd

/-! ### Streams that stay closed -/

variable (c : Stream) (err : CloseErr)

theorem closed_closeNoSend : (c.closeNoSend err).closed = true := by
  rw [Stream.closeNoSend]
  split
  · assumption
  · rfl

/-- What the sections do to a stream: it stays closed, and its write side is left alone. -/
structure Keeps (c c' : Stream) : Prop where
  closed : c.closed = true → c'.closed = true
  localWriteClosed : c'.localWriteClosed = c.localWriteClosed

theorem keeps_closeNoSend : Keeps c (c.closeNoSend err) := by
  refine ⟨fun _ => closed_closeNoSend c err, ?_⟩
  rw [Stream.closeNoSend]
  split <;> rfl

theorem keeps_closeRemoteWrite : Keeps c c.closeRemoteWrite.1 := by
  rw [Stream.closeRemoteWrite]
  split
  · exact ⟨id, rfl⟩
  · exact ⟨id, rfl⟩

theorem keeps_enqueue {c c' : Stream} {payload : GoString} (h : c.enqueue payload = some c') :
    Keeps c c' := by
  rw [Stream.enqueue] at h
  split at h
  · cases h
    exact ⟨id, rfl⟩
  · split at h
    · cases h
    · split at h
      · cases h
        exact ⟨id, rfl⟩
      · cases h
        exact ⟨id, rfl⟩

theorem keeps_refill : Keeps c c.refill := by
  rw [Stream.refill]
  split
  · exact ⟨id, rfl⟩
  · exact ⟨id, rfl⟩

theorem keeps_read (size : Nat) : Keeps c (c.read size) := by
  obtain ⟨hclosed, hwrite⟩ := keeps_refill c
  rw [Stream.read]
  split
  · exact ⟨id, rfl⟩
  · split
    · exact ⟨id, rfl⟩
    · dsimp only
      split
      · exact ⟨hclosed, hwrite⟩
      · split
        · exact ⟨hclosed, hwrite⟩
        · exact ⟨hclosed, hwrite⟩

/-! ### Who closes a stream -/

/-- The streams that `closeWithError` has still to close. -/
def Session.left (s : Session) : List Nat :=
  match s.closer with
  | .sweeping _ left => left
  | _ => []

/-- Somebody will close a stream, if it is not closed: `closeWithError`, which is to find it in the
table or has found it, or the goroutine of a stream that came too late for it. -/
inductive Safe (s : Session) (ref : Nat) (e : Entry) : Prop
  | closed (h : e.stream.closed = true)
  | listed (hcloser : s.closer = .idle) (hmem : (e.id, ref) ∈ s.table)
  | swept (hmem : ref ∈ s.left)
  | offering (hlate : e.late = true) {payload : GoString} (h : e.handover = .offering payload)
  | closing (h : e.handover = .closing)

/-- What holds of a stream. -/
structure EntryOk (s : Session) (ref : Nat) (e : Entry) : Prop where
  open_write : e.stream.localWriteClosed = false
  started : e.handover = .closing ∨ e.handover = .removing → s.closer ≠ .idle
  removing : e.handover = .removing → e.stream.closed = true
  safe : Safe s ref e

/-- The read loop has the stream that the table has under its id, if any. -/
def Session.LoopOk (s : Session) : Loop → Prop
  | .register id _ => ∀ ref, (id, ref) ∉ s.table
  | .enqueue ref id _ | .closeRemoteWrite ref id | .closeNoSend ref id _ =>
    ∀ ref', (id, ref') ∈ s.table → ref' = ref
  | .remove ref id => (∀ ref', (id, ref') ∈ s.table → ref' = ref) ∧
    ∀ e, s.streams[ref]? = some e → e.stream.closed = true
  | _ => True

structure Inv (s : Session) : Prop where
  unique : ∀ {id ref ref'}, (id, ref) ∈ s.table → (id, ref') ∈ s.table → ref = ref'
  reachable : ∀ ref ∈ s.reachable, ref < s.streams.length
  entry : ∀ {ref e}, s.streams[ref]? = some e → EntryOk s ref e
  closer : s.closed = true → s.closer ≠ .idle
  loop : s.LoopOk s.loop

theorem inv_start : Inv start := ⟨nofun, nofun, nofun, nofun, trivial⟩

section Steps

variable {s : Session} {ref id : Nat} {f : Entry → Entry} {s' : Session} {e : Entry}

theorem getElem?_modify (s : Session) (ref : Nat) (f : Entry → Entry) (ref' : Nat) :
    (s.modify ref f).streams[ref']? = s.streams[ref']?.map fun e => if ref = ref' then f e else e :=
  List.getElem?_modify ..

/-- A changed stream comes from one that was there. -/
theorem of_getElem?_modify {ref' : Nat} {e' : Entry}
    (h : (s.modify ref f).streams[ref']? = some e') :
    ∃ e, s.streams[ref']? = some e ∧ e' = if ref = ref' then f e else e := by
  rw [getElem?_modify, Option.map_eq_some_iff] at h
  obtain ⟨e, he, rfl⟩ := h
  exact ⟨e, he, rfl⟩

/-- What the read loop knows stays true if streams stay closed and the table does not grow. -/
theorem Session.LoopOk.mono {l : Loop} (h : s.LoopOk l)
    (htable : ∀ p ∈ s'.table, p ∈ s.table)
    (hclosed : ∀ {ref : Nat} {e' : Entry}, s'.streams[ref]? = some e' →
      ∃ e, s.streams[ref]? = some e ∧ (e.stream.closed = true → e'.stream.closed = true)) :
    s'.LoopOk l := by
  cases l with
  | register id payload => exact fun ref hmem => h ref (htable _ hmem)
  | enqueue ref id payload | closeRemoteWrite ref id | closeNoSend ref id err =>
    exact fun ref' hmem => h ref' (htable _ hmem)
  | remove ref id =>
    refine ⟨fun ref' hmem => h.1 ref' (htable _ hmem), fun e' he' => ?_⟩
    obtain ⟨e, he, hkeep⟩ := hclosed he'
    exact hkeep (h.2 e he)
  | _ => trivial

section

variable (h : EntryOk s ref e)
include h

/-- In a step only the streams that `closeWithError` is to find, or has found, need a reason to stay
safe. -/
theorem EntryOk.step (hstarted : s.closer ≠ .idle → s'.closer ≠ .idle)
    (hlisted : s.closer = .idle → (e.id, ref) ∈ s.table → Safe s' ref e)
    (hswept : ref ∈ s.left → Safe s' ref e) : EntryOk s' ref e where
  open_write := h.open_write
  started hgone := hstarted (h.started hgone)
  removing := h.removing
  safe := by
    cases h.safe with
    | closed hclosed => exact .closed hclosed
    | listed hidle hmem => exact hlisted hidle hmem
    | swept hmem => exact hswept hmem
    | offering hlate hoffering => exact .offering hlate hoffering
    | closing hclosing => exact .closing hclosing

/-- A stream is safe as long as `closeWithError` stays where it is and the stream is taken out of
the table only if it is closed. -/
theorem EntryOk.mono (hcloser : s'.closer = s.closer)
    (htable : s.closer = .idle → (e.id, ref) ∈ s.table →
      e.stream.closed = true ∨ (e.id, ref) ∈ s'.table) : EntryOk s' ref e := by
  refine h.step (hcloser ▸ ·) (fun hidle hmem => ?_)
    fun hmem => .swept (by rwa [Session.left, hcloser])
  exact (htable hidle hmem).elim .closed (.listed (hcloser.trans hidle))

theorem EntryOk.congr (hcloser : s'.closer = s.closer)
    (htable : s'.table = s.table) : EntryOk s' ref e :=
  h.mono hcloser fun _ hmem => .inr (htable ▸ hmem)

end

/-- Sections that change the read loop, or the queue of streams, and nothing else. -/
theorem Inv.frame (h : Inv s) (hloop : s'.LoopOk s'.loop)
    (hstreams : s'.streams = s.streams := by rfl) (htable : s'.table = s.table := by rfl)
    (hclosed : s'.closed = s.closed := by rfl) (hcloser : s'.closer = s.closer := by rfl)
    (hreachable : ∀ ref ∈ s'.reachable, ref ∈ s.reachable := by exact fun _ hmem => hmem) :
    Inv s' where
  unique := by rw [htable]; exact h.unique
  reachable ref hmem := by rw [hstreams]; exact h.reachable ref (hreachable ref hmem)
  entry {ref e} he := (h.entry (hstreams ▸ he)).congr hcloser htable
  closer hc := hcloser ▸ h.closer (hclosed ▸ hc)
  loop := hloop

/-- Sections on one stream. -/
theorem Inv.modify (h : Inv s)
    (hclosed : ∀ e, s.streams[ref]? = some e → e.stream.closed = true → (f e).stream.closed = true)
    (hentry : ∀ e, s.streams[ref]? = some e → EntryOk s ref e → EntryOk s ref (f e)) :
    Inv (s.modify ref f) where
  unique := h.unique
  reachable ref' hmem := by
    have hlt := h.reachable ref' hmem
    rwa [Session.modify, length_modify]
  entry {ref' e'} he' := by
    obtain ⟨e, he, rfl⟩ := of_getElem?_modify he'
    split
    · next heq =>
      subst heq
      exact (hentry e he (h.entry he)).congr rfl rfl
    · exact (h.entry he).congr rfl rfl
  closer := h.closer
  loop := by
    refine Session.LoopOk.mono h.loop (fun _ hmem => hmem) fun {ref' e'} he' => ?_
    obtain ⟨e, he, rfl⟩ := of_getElem?_modify he'
    refine ⟨e, he, fun hc => ?_⟩
    split
    · next heq =>
      subst heq
      exact hclosed e he hc
    · exact hc

theorem EntryOk.keeps (h : EntryOk s ref e) {c : Stream} (hkeeps : Keeps e.stream c) :
    EntryOk s ref { e with stream := c } where
  open_write := hkeeps.localWriteClosed.trans h.open_write
  started := h.started
  removing hremoving := hkeeps.closed (h.removing hremoving)
  safe := by
    cases h.safe with
    | closed hclosed => exact .closed (hkeeps.closed hclosed)
    | listed hidle hmem => exact .listed hidle hmem
    | swept hmem => exact .swept hmem
    | offering hlate hoffering => exact .offering hlate hoffering
    | closing hclosing => exact .closing hclosing

theorem Inv.modifyStream (h : Inv s) {ref : Nat} {f : Stream → Stream}
    (hkeeps : ∀ c, Keeps c (f c)) : Inv (s.modifyStream ref f) :=
  h.modify (fun e _ => (hkeeps e.stream).closed) fun e _ hok => hok.keeps (hkeeps e.stream)

/-- A section that has read the stream before it writes it. -/
theorem Inv.setStream (h : Inv s) (he : s.streams[ref]? = some e) {c : Stream}
    (hkeeps : Keeps e.stream c) : Inv (s.modifyStream ref fun _ => c) := by
  refine h.modify (fun e' he' => ?_) fun e' he' hok => ?_
  · cases he.symm.trans he'
    exact hkeeps.closed
  · cases he.symm.trans he'
    exact hok.keeps hkeeps

theorem mem_filter_ne {table : List (Nat × Nat)} {p : Nat × Nat} :
    p ∈ table.filter (·.1 ≠ id) ↔ p ∈ table ∧ p.1 ≠ id := by
  rw [mem_filter, decide_eq_true_eq]

/-- A stream is taken out of the table, which is harmless if it is closed or the table was swept. -/
theorem Inv.removeStream (h : Inv s)
    (hremoved : s.closer = .idle → ∀ ref e, (id, ref) ∈ s.table → s.streams[ref]? = some e →
      e.stream.closed = true) : Inv (s.removeStream id) where
  unique hmem hmem' := h.unique (mem_filter_ne.mp hmem).1 (mem_filter_ne.mp hmem').1
  reachable ref hmem := by
    refine h.reachable ref ?_
    simp only [Session.reachable, Session.removeStream, mem_append, mem_map] at hmem ⊢
    refine hmem.imp_right ?_
    rintro ⟨p, hp, rfl⟩
    exact ⟨p, (mem_filter_ne.mp hp).1, rfl⟩
  entry {ref e} he := by
    refine (h.entry he).mono rfl fun hidle hmem => ?_
    by_cases heq : e.id = id
    · exact .inl (hremoved hidle ref e (heq ▸ hmem) he)
    · exact .inr (mem_filter_ne.mpr ⟨hmem, heq⟩)
  closer := h.closer
  loop := Session.LoopOk.mono h.loop (fun _ hmem => (mem_filter_ne.mp hmem).1)
    fun {_ e'} he' => ⟨e', he', fun hc => hc⟩

/-! ### The read loop -/

theorem mem_of_getStream (h : s.getStream id = some ref) : (id, ref) ∈ s.table := by
  obtain ⟨p, hp, rfl⟩ := Option.map_eq_some_iff.mp h
  have hid := find?_some hp
  rw [decide_eq_true_eq] at hid
  rw [← hid]
  exact mem_of_find?_eq_some hp

theorem not_mem_of_getStream (h : s.getStream id = none) (ref : Nat) : (id, ref) ∉ s.table := by
  intro hmem
  have hnone := find?_eq_none.mp (Option.map_eq_none_iff.mp h) (id, ref) hmem
  exact hnone (decide_eq_true rfl)

section

variable (h : Inv s)
include h

theorem Inv.dispatch (f : Frame) : Inv (s.dispatch f) := by
  have hheld : ∀ {ref}, s.getStream f.id = some ref → ∀ ref', (f.id, ref') ∈ s.table → ref' = ref :=
    fun hget ref' hmem => h.unique hmem (mem_of_getStream hget)
  unfold Session.dispatch
  split
  · next hnone =>
    split
    · exact h
    · exact h.frame (not_mem_of_getStream hnone)
  · exact h
  · exact h
  · next hsome =>
    split
    · exact h
    · exact h.frame (hheld hsome)
  · next hsome => exact h.frame (hheld hsome)
  · next hsome => exact h.frame (hheld hsome)

/-- The read loop comes to the end of a frame. -/
theorem Inv.idle : Inv { s with loop := .idle } := h.frame trivial

theorem Inv.register (hnew : ∀ ref, (id, ref) ∉ s.table) (payload : GoString) :
    Inv { s.register id payload with loop := .idle } where
  unique {id' ref ref'} hmem hmem' := by
    obtain heq | hold := mem_cons.mp hmem
    · obtain heq' | hold' := mem_cons.mp hmem'
      · exact (Prod.mk.inj heq).2.trans (Prod.mk.inj heq').2.symm
      · exact absurd (Prod.mk.inj heq).1 (mem_filter_ne.mp hold').2
    · obtain heq' | hold' := mem_cons.mp hmem'
      · exact absurd (Prod.mk.inj heq').1 (mem_filter_ne.mp hold).2
      · exact h.unique (mem_filter_ne.mp hold).1 (mem_filter_ne.mp hold').1
  reachable ref hmem := by
    change ref < (s.streams ++ [_]).length
    rw [length_append, length_singleton]
    have hold : ∀ {ref}, ref ∈ s.reachable → ref < s.streams.length + 1 :=
      fun hmem => Nat.lt_succ_of_lt (h.reachable _ hmem)
    simp only [Session.reachable, Session.register, map_cons, mem_append, mem_cons] at hmem hold
    obtain hmem | rfl | hmem := hmem
    · exact hold (.inl hmem)
    · exact Nat.lt_succ_self _
    · obtain ⟨p, hp, rfl⟩ := mem_map.mp hmem
      exact hold (.inr (mem_map_of_mem (mem_filter_ne.mp hp).1))
  entry {ref e} he := by
    change (s.streams ++ [_])[ref]? = some e at he
    by_cases hlt : ref < s.streams.length
    · rw [getElem?_append_left hlt] at he
      refine (h.entry he).mono rfl fun _ hmem => .inr ?_
      refine mem_cons_of_mem _ (mem_filter_ne.mpr ⟨hmem, fun heq => hnew ref ?_⟩)
      exact heq ▸ hmem
    · -- the new stream, which is in the table
      have hlast : ref = s.streams.length := by
        have hbound := (List.getElem?_eq_some_iff.mp he).1
        rw [length_append, length_singleton] at hbound
        omega
      subst hlast
      rw [getElem?_concat_length] at he
      cases he
      refine ⟨rfl, fun hgone => by simp at hgone, nofun, ?_⟩
      cases hcloser : s.closer with
      | idle => exact .listed hcloser mem_cons_self
      | _ => exact .offering (by simp only) rfl
  closer := h.closer
  loop := trivial

theorem Inv.sweep (err : CloseErr) : Inv (s.sweep err) := by
  unfold Session.sweep
  split
  · next hidle =>
    refine ⟨nofun, fun ref hmem => h.reachable ref ?_, fun {ref e} he => ?_, fun _ => nofun, ?_⟩
    · simp only [Session.reachable, map_nil, append_nil] at hmem ⊢
      exact mem_append_left _ hmem
    · refine (h.entry he).step (fun _ => nofun) (fun _ hmem => .swept (mem_map_of_mem hmem)) ?_
      rw [Session.left, hidle]
      exact nofun
    · exact Session.LoopOk.mono h.loop nofun fun {_ e'} he' => ⟨e', he', fun hc => hc⟩
  · exact h

theorem Inv.readLoop : Inv s.readLoop := by
  have hloop := h.loop
  unfold Session.readLoop
  split
  · exact h
  · next id payload hs =>
    rw [hs] at hloop
    exact h.register hloop payload
  · next ref id payload hs =>
    rw [hs] at hloop
    split
    · exact h
    · next e he =>
      split
      · next c hc => exact (h.setStream he (keeps_enqueue hc)).idle
      · exact h.frame hloop
  · next ref id hs =>
    split
    · exact h
    · next e he =>
      -- nobody has closed the write side, so the stream stays in the table
      have hstay : e.stream.closeRemoteWrite.2 = false := by
        rw [Stream.closeRemoteWrite]
        split
        · rfl
        · exact (h.entry he).open_write
      rw [hstay]
      exact (h.setStream he (keeps_closeRemoteWrite e.stream)).idle
  · next ref id err hs =>
    rw [hs] at hloop
    refine (h.modifyStream fun c => keeps_closeNoSend c err).frame ⟨hloop, fun e' he' => ?_⟩
    obtain ⟨e, -, rfl⟩ := of_getElem?_modify he'
    rw [if_pos rfl]
    exact closed_closeNoSend _ _
  · next ref id hs =>
    rw [hs] at hloop
    refine (h.removeStream fun _ ref' e hmem he => ?_).idle
    exact hloop.2 e (hloop.1 ref' hmem ▸ he)
  · split
    · exact h.sweep _
    · exact h.frame trivial
    · exact h
  · exact h

/-! ### `closeWithError` and the goroutines -/

theorem Inv.close (k : Nat) : Inv (s.close k) := by
  unfold Session.close
  split
  · next err left hs =>
    split
    · next ref hk =>
      have hinv := @Inv.modifyStream s h ref _ fun c => keeps_closeNoSend c err
      refine { hinv with entry := fun {ref' e'} he' => ?_, closer := fun _ => nofun }
      have hok := hinv.entry he'
      by_cases heq : ref = ref'
      · refine ⟨hok.open_write, fun _ => nofun, hok.removing, .closed ?_⟩
        obtain ⟨e, -, rfl⟩ := of_getElem?_modify he'
        rw [if_pos heq]
        exact closed_closeNoSend _ _
      · refine hok.step (fun _ => nofun) (fun hidle => nomatch hidle.symm.trans hs) fun hmem => ?_
        change ref' ∈ s.left at hmem
        rw [Session.left, hs] at hmem
        refine .swept ?_
        refine (mem_eraseIdx_iff_getElem?).mpr ?_
        obtain ⟨i, hi⟩ := mem_iff_getElem?.mp hmem
        refine ⟨i, fun hik => heq ?_, hi⟩
        rw [hik, hk] at hi
        exact Option.some.inj hi
    · split
      · next hnil =>
        refine ⟨h.unique, h.reachable, fun he => (h.entry he).step (fun _ => nofun)
          (fun hidle => nomatch hidle.symm.trans hs) ?_, fun _ => nofun, h.loop⟩
        rw [Session.left, hs, hnil]
        exact nofun
      · exact h
  · next hs =>
    refine ⟨h.unique, h.reachable, fun he => (h.entry he).step (fun _ => nofun)
      (fun hidle => nomatch hidle.symm.trans hs) ?_, fun _ => nofun, h.loop⟩
    rw [Session.left, hs]
    exact nofun
  · exact h

end

/-- A goroutine finishes with a stream that is not its to close, or that it has closed. -/
theorem EntryOk.finish {ref : Nat} {e : Entry} (h : EntryOk s ref e)
    (hdone : e.stream.closed = true ∨ e.late = false ∧ e.handover ≠ .closing) :
    EntryOk s ref { e with handover := .finished } where
  open_write := h.open_write
  started hgone := by simp at hgone
  removing := nofun
  safe := by
    obtain hclosed | ⟨hlate, hclosing⟩ := hdone
    · exact .closed hclosed
    · cases h.safe with
      | closed hclosed => exact .closed hclosed
      | listed hidle hmem => exact .listed hidle hmem
      | swept hmem => exact .swept hmem
      | offering hlate' _ => exact nomatch hlate.symm.trans hlate'
      | closing hclosing' => exact absurd hclosing' hclosing

variable (h : Inv s)
include h

theorem Inv.offer (htimely : ∀ e, s.streams[ref]? = some e → e.late = false) :
    Inv (s.offer ref) := by
  unfold Session.offer
  split
  · next id stream payload late he =>
    split
    · have hinv : Inv (s.modify ref fun e => { e with handover := .finished }) := by
        refine h.modify (fun _ _ hc => hc) fun e he' hok => ?_
        cases he.symm.trans he'
        exact hok.finish (.inr ⟨htimely _ he, nofun⟩)
      refine { hinv with
        reachable := fun ref' hmem => ?_, entry := fun he' => (hinv.entry he').congr rfl rfl }
      by_cases heq : ref' = ref
      · have hlt := (List.getElem?_eq_some_iff.mp he).1
        rw [heq]
        change ref < (s.streams.modify ref _).length
        rwa [length_modify]
      · refine hinv.reachable ref' ?_
        simpa [Session.reachable, Session.modify, heq] using hmem
    · exact h
  · exact h

theorem Inv.abandon (ref : Nat) : Inv (s.abandon ref) := by
  unfold Session.abandon
  split
  · next id stream payload late he =>
    split
    · next hclosed =>
      refine h.modify (fun _ _ hc => hc) fun e _ hok => ?_
      exact ⟨hok.open_write, fun _ => h.closer hclosed, nofun, .closing rfl⟩
    · exact h
  · exact h

theorem Inv.withdraw (ref : Nat) : Inv (s.withdraw ref) := by
  unfold Session.withdraw
  split
  · next id stream late he =>
    refine h.modify (fun _ _ _ => closed_closeNoSend _ _) fun e he' hok => ?_
    cases he.symm.trans he'
    have hkeeps := hok.keeps (keeps_closeNoSend stream .closedPipe)
    exact ⟨hkeeps.open_write, fun _ => hok.started (.inl rfl), fun _ => closed_closeNoSend _ _,
      .closed (closed_closeNoSend _ _)⟩
  · next id stream late he =>
    have hinv : Inv (s.modify ref fun e => { e with handover := .finished }) := by
      refine h.modify (fun _ _ hc => hc) fun e he' hok => ?_
      cases he.symm.trans he'
      exact hok.finish (.inl (hok.removing rfl))
    exact hinv.removeStream fun hidle => absurd hidle ((h.entry he).started (.inr rfl))
  · exact h

theorem Inv.acceptStream : Inv s.acceptStream := by
  unfold Session.acceptStream
  split
  · exact h
  · next ref payload acceptCh hs =>
    refine h.frame h.loop rfl rfl rfl rfl fun ref' hmem => ?_
    simp only [Session.reachable, hs, map_cons, mem_append, mem_cons,
      not_mem_nil, or_false] at hmem ⊢
    grind

end Steps

/-! ### Runs -/

/-- Only streams that were registered before the sweep are sent to `acceptCh`. -/
def Timely (s : Session) : Action → Prop
  | .offer ref => ∀ e, s.streams[ref]? = some e → e.late = false
  | _ => True

def TimelyRun (s : Session) : List Action → Prop
  | [] => True
  | action :: actions => Timely s action ∧ TimelyRun (s.step action) actions

theorem Inv.step {s : Session} (h : Inv s) {action : Action} (htimely : Timely s action) :
    Inv (s.step action) := by
  cases action with
  | frame f =>
    rw [Session.step]
    split
    · exact h.dispatch f
    · exact h
  | fail err =>
    rw [Session.step]
    split
    · exact h.frame trivial
    · exact h
  | readLoop => exact h.readLoop
  | closeWithError err => exact h.sweep err
  | close k => exact h.close k
  | offer ref => exact h.offer htimely
  | abandon ref => exact h.abandon ref
  | withdraw ref => exact h.withdraw ref
  | acceptStream => exact h.acceptStream
  | read ref size => exact h.modifyStream fun c => keeps_read c size

theorem Inv.run {s : Session} (h : Inv s) {actions : List Action}
    (htimely : TimelyRun s actions) : Inv (run s actions) := by
  induction actions generalizing s with
  | nil => exact h
  | cons action actions ih => exact ih (h.step htimely.1) htimely.2

/-- In every run in which only streams that were registered before the sweep are offered: once
`closeWithError` has returned and the read loop and the goroutines have finished, every stream that
`AcceptStream` has returned or may return and every stream in the table is closed, and `Read` on it
does not wait. -/
theorem closed_of_timely (actions : List Action) (htimely : TimelyRun start actions)
    (hsettled : Settled (run start actions)) :
    ∀ ref ∈ (run start actions).reachable, ∃ e, (run start actions).streams[ref]? = some e ∧
      e.stream.closed = true ∧ ¬ Waits e.stream := by
  have h := inv_start.run htimely
  intro ref hmem
  have he := getElem?_eq_getElem (h.reachable ref hmem)
  refine ⟨_, he, ?_⟩
  have hfinished := hsettled.handover _ (mem_of_getElem? he)
  have hclosed : Safe (run start actions) ref _ := (h.entry he).safe
  cases hclosed with
  | closed hclosed => exact ⟨hclosed, fun hwaits => hwaits.2.2 (.inl hclosed)⟩
  | listed hidle _ => exact nomatch hidle.symm.trans hsettled.closer
  | swept hmem =>
    rw [Session.left, hsettled.closer] at hmem
    cases hmem
  | offering _ hoffering => exact nomatch hoffering.symm.trans hfinished
  | closing hclosing => exact nomatch hclosing.symm.trans hfinished

/-- A stream is accepted and the session is closed. -/
def shortSession : List Action :=
  [.frame ⟨.openStream, 1, []⟩, .readLoop, .offer 0, .acceptStream, .closeWithError .closedPipe,
    .close 0, .close 0, .close 0, .fail .closedPipe, .readLoop]

theorem shortSession_closed :
    ∃ e, (run start shortSession).streams[0]? = some e ∧ e.stream.closed = true := by
  obtain ⟨e, he, hclosed, -⟩ := closed_of_timely shortSession
    ⟨trivial, trivial, fun _ he => (Option.some.inj he) ▸ rfl, trivial, trivial, trivial, trivial,
      trivial, trivial, trivial, trivial⟩
    ⟨rfl, rfl, forall_mem_singleton.mpr rfl⟩ 0 mem_cons_self
  exact ⟨e, he, hclosed⟩

/-- The read loop has a frame that opens a stream; the session is closed; the stream is registered,
offered, and returned by `AcceptStream`. -/
def lateOpen : List Action :=
  [.frame ⟨.openStream, 1, []⟩, .closeWithError .closedPipe, .close 0, .close 0, .readLoop,
    .offer 0, .fail .closedPipe, .readLoop, .acceptStream]

theorem lateOpen_not_closed :
    Settled (run start lateOpen) ∧ (run start lateOpen).accepted = [0] ∧
      ∃ e, (run start lateOpen).streams[0]? = some e ∧ e.stream.closed = false ∧ Waits e.stream :=
  ⟨⟨rfl, rfl, forall_mem_singleton.mpr rfl⟩, rfl, _, rfl, rfl, rfl, rfl, by decide⟩

end Hako.Multiplex.Shutdown
