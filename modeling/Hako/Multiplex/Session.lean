import Hako.GoLib.Utf8

/-!
# Streams over one connection

Two sessions carry streams over a connection: the client opens them, the server accepts them. Each
session has a table of its streams and a read loop that hands each frame to its stream. A stream
that holds too much is reset, so that the read loop never waits for a reader.

Everything that is done under one mutex, and every frame that is written, is one event. What a call
has still to do behind its first section is kept in its stream: the holder of the write mutex, a
removal that `CloseRead` owes, and the frames of a reset.
-/

namespace Hako.Multiplex

open GoLib

/-! ### Frames -/

inductive Side where
  | client
  | server
deriving DecidableEq

def Side.peer : Side → Side
  | .client => .server
  | .server => .client

inductive FrameType where
  | openStream
  | data
  | close
  | reset
deriving DecidableEq

structure Frame where
  type : FrameType
  id : Nat
  payload : GoString
deriving DecidableEq

def maxQueuedBytesPerStream : Nat := 4 * 1024 * 1024
def maxFrameSize : Nat := 256 * 1024
def maxDataPayload : Nat := 128 * 1024

def isBlank (b : UInt8) : Bool := b = 0x20 || b = 0x0a || b = 0x0d || b = 0x09

def trimASCII (b : GoString) : GoString := ((b.dropWhile isBlank).reverse.dropWhile isBlank).reverse

/-! ### Streams -/

/-- The errors that a stream can be closed with. Only a connection that ends gives `io.EOF`. -/
inductive CloseErr where
  | closedPipe
  | receiveQueueFull
  | openFailed
  | reset (msg : GoString)
  /-- The session was closed because of its connection or a frame. -/
  | session (msg : GoString)
deriving DecidableEq

/-- How far the call is that hands out a stream. -/
inductive Stage where
  | absent
  /-- `OpenStream` has an id. -/
  | allocated (openPayload : GoString)
  /-- It has put the stream into the table. -/
  | registered (openPayload : GoString)
  /-- Its frame was too large. -/
  | refused
  /-- It has closed the stream, -/
  | refusedClosed
  /-- and removed it. -/
  | failed
  /-- A goroutine offers the stream to `AcceptStream`. -/
  | waiting (openPayload : GoString)
  /-- The application has the stream. -/
  | handed
deriving DecidableEq

/-- What is left to do for the call that holds `writeMu`. -/
inductive Holder where
  | free
  | writing (p : GoString)
  /-- The close frame is to be sent, and perhaps the stream to be removed. -/
  | closing (remove : Bool)
  | removing
deriving DecidableEq

/-- What is left of `sendReset`. -/
inductive ResetDue where
  | nothing
  | reset
  | close
deriving DecidableEq

/-- A stream. The last three fields are there for the statements: the bytes that `Write` has sent,
those that `Read` has returned, and whether it has reported the end. -/
structure Stream where
  stage : Stage
  holder : Holder
  /-- `CloseRead` has to remove the stream. -/
  removing : Bool
  resetDue : ResetDue
  closed : Bool
  localReadClosed : Bool
  localWriteClosed : Bool
  remoteWriteClosed : Bool
  closeErr : Option CloseErr
  readBuf : GoString
  queue : List GoString
  queuedBytes : Nat
  written : GoString
  returned : GoString
  eof : Bool
deriving DecidableEq

def newStream : Stream where
  stage := .absent
  holder := .free
  removing := false
  resetDue := .nothing
  closed := false
  localReadClosed := false
  localWriteClosed := false
  remoteWriteClosed := false
  closeErr := none
  readBuf := []
  queue := []
  queuedBytes := 0
  written := []
  returned := []
  eof := false

namespace Stream

/-- The bytes that are held for `Read`. -/
def unread (c : Stream) : GoString := c.readBuf ++ c.queue.flatten

def closeNoSend (c : Stream) (err : CloseErr) : Stream :=
  if c.closed then c else { c with closed := true, closeErr := c.closeErr.or (some err) }

/-- `closeRemoteWrite`, and whether the stream is to be removed. -/
def closeRemoteWrite (c : Stream) : Stream × Bool :=
  if c.closed then (c, false) else ({ c with remoteWriteClosed := true }, c.localWriteClosed)

/-- `enqueue`, none if the stream would hold too much. -/
def enqueue (c : Stream) (payload : GoString) : Option Stream :=
  if c.closed || c.localReadClosed || c.remoteWriteClosed then some c
  else if maxQueuedBytesPerStream < c.queuedBytes + payload.length then none
  else if c.readBuf = [] ∧ c.queue = [] then
    some { c with queuedBytes := c.queuedBytes + payload.length, readBuf := payload }
  else
    some { c with queuedBytes := c.queuedBytes + payload.length, queue := c.queue ++ [payload] }

/-- The next payload of the queue is moved to an empty buffer. -/
def refill (c : Stream) : Stream :=
  match c.readBuf, c.queue with
  | [], payload :: queue => { c with readBuf := payload, queue := queue }
  | _, _ => c

/-- `Read`, where it does not wait. -/
def read (c : Stream) (size : Nat) : Stream :=
  if size = 0 then c
  else if c.readBuf = [] ∧ c.queue = [] ∧
      ¬ (c.closed ∨ c.localReadClosed ∨ c.remoteWriteClosed) then c
  else
    let c := c.refill
    if c.readBuf = [] ∧ (c.closed ∨ c.localReadClosed) then c
    else if c.readBuf = [] ∧ c.remoteWriteClosed then { c with eof := true }
    else
      { c with
        readBuf := c.readBuf.drop size
        queuedBytes := c.queuedBytes - (c.readBuf.take size).length
        returned := c.returned ++ c.readBuf.take size }

/-- `Write` as far as its check. -/
def write (c : Stream) (p : GoString) : Stream :=
  if c.holder = .free ∧ p ≠ [] ∧ ¬ c.closed ∧ ¬ c.localWriteClosed then
    { c with holder := .writing p }
  else c

/-- The first section of `Close`. -/
def close (c : Stream) : Stream :=
  if c.holder = .free ∧ ¬ c.closed then
    { c with
      holder := if c.localWriteClosed then .removing else .closing true
      closed := true
      localReadClosed := true
      localWriteClosed := true
      closeErr := c.closeErr.or (some .closedPipe)
      readBuf := []
      queue := []
      queuedBytes := 0 }
  else c

/-- The first section of `CloseWrite`. -/
def closeWrite (c : Stream) : Stream :=
  if c.holder = .free ∧ ¬ c.closed ∧ ¬ c.localWriteClosed then
    { c with
      holder := .closing (c.remoteWriteClosed || c.localReadClosed)
      localWriteClosed := true }
  else c

/-- The first section of `CloseRead`. -/
def closeRead (c : Stream) : Stream :=
  if ¬ c.closed ∧ ¬ c.localReadClosed then
    { c with
      removing := c.localWriteClosed
      localReadClosed := true
      readBuf := []
      queue := []
      queuedBytes := 0 }
  else c

end Stream

/-- The calls on a stream, and what goes on in those that have begun. -/
inductive Call where
  | read (size : Nat)
  | write (p : GoString)
  | close
  | closeWrite
  | closeRead
  /-- The next section of the call that holds `writeMu`. -/
  | proceed
  /-- `CloseRead` removes the stream. -/
  | remove
  /-- The next frame of `sendReset`. -/
  | reset
  /-- The next section of `OpenStream`. -/
  | openStream
  /-- `AcceptStream` takes the stream. -/
  | accept

/-- Where a stream was made. -/
inductive Origin where
  | opened
  | accepted
deriving DecidableEq

/-- What a section does outside of its stream: it sends a frame, or changes the table. -/
structure Output where
  frame : Option (FrameType × GoString)
  /-- The new entry in the table. -/
  table : Option (Option Origin)

def Output.nothing : Output := ⟨none, none⟩

namespace Stream

/-- The next section of the call that holds `writeMu`. -/
def proceed (c : Stream) : Stream × Output :=
  match c.holder with
  | .free => (c, .nothing)
  | .writing p =>
    ({ c with
        holder := if p.drop maxDataPayload = [] then .free else .writing (p.drop maxDataPayload)
        written := c.written ++ p.take maxDataPayload },
      ⟨some (.data, p.take maxDataPayload), none⟩)
  | .closing remove =>
    ({ c with holder := if remove then .removing else .free }, ⟨some (.close, []), none⟩)
  | .removing => ({ c with holder := .free }, ⟨none, some none⟩)

/-- The next section of `OpenStream`. -/
def openNext (c : Stream) : Stream × Output :=
  match c.stage with
  | .allocated payload => ({ c with stage := .registered payload }, ⟨none, some (some .opened)⟩)
  | .registered payload =>
    if maxFrameSize < payload.length then ({ c with stage := .refused }, .nothing)
    else ({ c with stage := .handed }, ⟨some (.openStream, payload), none⟩)
  | .refused => ({ c.closeNoSend .openFailed with stage := .refusedClosed }, .nothing)
  | .refusedClosed => ({ c with stage := .failed }, ⟨none, some none⟩)
  | _ => (c, .nothing)

/-- The next frame of `sendReset`. -/
def sendReset (c : Stream) : Stream × Output :=
  match c.resetDue with
  | .nothing => (c, .nothing)
  | .reset => ({ c with resetDue := .close }, ⟨some (.reset, lit "mux receive queue full"), none⟩)
  | .close => ({ c with resetDue := .nothing }, ⟨some (.close, []), none⟩)

/-- One section on a stream; the application calls only those that it has. -/
def step (c : Stream) : Call → Stream × Output
  | .read size => (if c.stage = .handed then c.read size else c, .nothing)
  | .write p => (if c.stage = .handed then c.write p else c, .nothing)
  | .close => (if c.stage = .handed then c.close else c, .nothing)
  | .closeWrite => (if c.stage = .handed then c.closeWrite else c, .nothing)
  | .closeRead => (if c.stage = .handed then c.closeRead else c, .nothing)
  | .proceed => c.proceed
  | .remove =>
    if c.removing then ({ c with removing := false }, ⟨none, some none⟩) else (c, .nothing)
  | .reset => c.sendReset
  | .openStream => c.openNext
  | .accept =>
    match c.stage with
    | .waiting _ => ({ c with stage := .handed }, .nothing)
    | _ => (c, .nothing)

end Stream

/-! ### Sessions -/

structure Ref where
  side : Side
  origin : Origin
  id : Nat
deriving DecidableEq

/-- Where a read loop is, with the frame it has in hand. -/
inductive Loop where
  | idle
  | dispatch (f : Frame)
  | register (f : Frame)
  | enqueue (origin : Origin) (f : Frame)
  | closeRemoteWrite (origin : Origin) (f : Frame)
  | closeNoSend (origin : Origin) (f : Frame)
  /-- The stream is to be removed, and reset if it held too much. -/
  | remove (origin : Origin) (id : Nat) (overflow : Bool)
  /-- `sendReset` for a frame that makes no sense. -/
  | reset (id : Nat) (msg : GoString)
  | resetClose (id : Nat)

/-- Both sessions, with the frames that are on their way to each. -/
structure State where
  nextID : Side → Nat
  table : Side × Nat → Option Origin
  streams : Ref → Stream
  inbound : Side → List Frame
  loop : Side → Loop

def start : State where
  nextID _ := 0
  table _ := none
  streams _ := newStream
  inbound _ := []
  loop _ := .idle

def nextStreamID (nextID : Nat) : Nat :=
  if (nextID + 1) % 2 ^ 32 = 0 then 1 else (nextID + 1) % 2 ^ 32

inductive Event where
  /-- `OpenStream` takes an id. -/
  | openStream (side : Side) (openPayload : GoString)
  | call (ref : Ref) (call : Call)
  /-- The next section of the read loop. -/
  | loop (side : Side)
  | keepalive (side : Side)

namespace State

def sendFrame (st : State) (s : Side) (f : Frame) : State :=
  { st with inbound := Function.update st.inbound s.peer (st.inbound s.peer ++ [f]) }

def setTable (st : State) (s : Side) (id : Nat) (entry : Option Origin) : State :=
  { st with table := Function.update st.table (s, id) entry }

def setStream (st : State) (ref : Ref) (c : Stream) : State :=
  { st with streams := Function.update st.streams ref c }

def setLoop (st : State) (s : Side) (loop : Loop) : State :=
  { st with loop := Function.update st.loop s loop }

/-- What a section does outside of its stream. -/
def output (st : State) (ref : Ref) (out : Output) : State :=
  let st := match out.frame with
    | some (type, payload) => st.sendFrame ref.side ⟨type, ref.id, payload⟩
    | none => st
  match out.table with
  | some entry => st.setTable ref.side ref.id entry
  | none => st

def call (st : State) (ref : Ref) (call : Call) : State :=
  (st.setStream ref ((st.streams ref).step call).1).output ref ((st.streams ref).step call).2

/-- The read loop looks at a frame. -/
def dispatch (st : State) (s : Side) (f : Frame) : State :=
  match f.type with
  | .openStream =>
    if s = .client then st.setLoop s (.reset f.id (lit "unexpected open"))
    else if f.id = 0 then st.setLoop s (.reset f.id (lit "invalid stream id"))
    else if (st.table (s, f.id)).isSome then
      st.setLoop s (.reset f.id (lit "stream already exists"))
    else st.setLoop s (.register f)
  | .data =>
    match st.table (s, f.id) with
    | none => st.setLoop s .idle
    | some origin => st.setLoop s (if f.payload = [] then .idle else .enqueue origin f)
  | .close =>
    match st.table (s, f.id) with
    | none => st.setLoop s .idle
    | some origin => st.setLoop s (.closeRemoteWrite origin f)
  | .reset =>
    match st.table (s, f.id) with
    | none => st.setLoop s .idle
    | some origin => st.setLoop s (.closeNoSend origin f)

/-- The error that the read loop closes a stream with. -/
def loopErr (f : Frame) : CloseErr :=
  match f.type with
  | .data => .receiveQueueFull
  | _ => .reset (if trimASCII f.payload = [] then lit "reset" else trimASCII f.payload)

/-- One section of `readLoop`. -/
def readLoop (st : State) (s : Side) : State :=
  match st.loop s with
  | .idle =>
    match st.inbound s with
    | [] => st
    | f :: inbound =>
      { st with inbound := Function.update st.inbound s inbound }.setLoop s (.dispatch f)
  | .dispatch f => st.dispatch s f
  | .register f =>
    ((st.setStream ⟨s, .accepted, f.id⟩ { newStream with stage := .waiting f.payload }).setTable s
      f.id (some .accepted)).setLoop s .idle
  | .enqueue origin f =>
    match (st.streams ⟨s, origin, f.id⟩).enqueue f.payload with
    | some c => (st.setStream ⟨s, origin, f.id⟩ c).setLoop s .idle
    | none => st.setLoop s (.closeNoSend origin f)
  | .closeRemoteWrite origin f =>
    let (c, remove) := (st.streams ⟨s, origin, f.id⟩).closeRemoteWrite
    (st.setStream ⟨s, origin, f.id⟩ c).setLoop s
      (if remove then .remove origin f.id false else .idle)
  | .closeNoSend origin f =>
    (st.setStream ⟨s, origin, f.id⟩ ((st.streams ⟨s, origin, f.id⟩).closeNoSend (loopErr f))).setLoop
      s (.remove origin f.id (f.type = .data))
  | .remove origin id overflow =>
    let c := st.streams ⟨s, origin, id⟩
    ((st.setStream ⟨s, origin, id⟩ (if overflow then { c with resetDue := .reset } else c)).setTable
      s id none).setLoop s .idle
  | .reset id msg => (st.sendFrame s ⟨.reset, id, msg⟩).setLoop s (.resetClose id)
  | .resetClose id => (st.sendFrame s ⟨.close, id, []⟩).setLoop s .idle

def step (st : State) : Event → State
  | .openStream s payload =>
    { st.setStream ⟨s, .opened, nextStreamID (st.nextID s)⟩
        { newStream with stage := .allocated payload } with
      nextID := Function.update st.nextID s (nextStreamID (st.nextID s)) }
  | .call ref call => st.call ref call
  | .loop s => st.readLoop s
  | .keepalive s => st.sendFrame s ⟨.data, 0, []⟩

end State

def run (events : List Event) : State := events.foldl State.step start

/-- What a stream has returned was written by its peer, all of it when the end was reported, and
the stream knows how much it holds. -/
structure Delivered (c peer : Stream) : Prop where
  returned : c.returned <+: peer.written
  eof : c.eof = true → peer.localWriteClosed = true ∧ c.returned = peer.written
  queued : c.queuedBytes = c.unread.length
  bounded : c.queuedBytes ≤ maxQueuedBytesPerStream

end Hako.Multiplex
