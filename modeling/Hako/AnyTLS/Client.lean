import Hako.Lib.Threads

/-!
# The sessions of a client

A client opens streams over sessions and keeps a session for reuse when its stream has died. What
the goroutines do is cut at the mutexes: every operation below is one critical section, one atomic
access or one write to the connection, and leads to what its goroutine does next.

Sessions are numbered by the order of their creation, which is the order of their sequence
numbers, and the pool lists them in the order of the skip list, the latest first.
-/

namespace Hako.AnyTLS.Client

open Threads

/-- The settings of `Client` that its sessions depend on. -/
structure Config where
  disableReuse : Bool
  idleSessionTimeout : Int
  minIdleSession : Nat

/-- A stream that was put into the map of its session. `returned` tells that `CreateStream` has
returned it. -/
structure Stream where
  sess : Nat
  id : UInt32
  died : Bool
  dieHook : Bool
  returned : Bool
deriving DecidableEq, Repr

/-- A session. `recvLoop` tells that the loop is running. -/
structure Session where
  die : Bool
  streams : List (UInt32 × Nat)
  streamId : UInt32
  idleSince : Int
  recvLoop : Bool
deriving DecidableEq, Repr

/-- The client, all sessions it has created and all streams they have opened. -/
structure State where
  die : Bool
  idleSession : List Nat
  sessions : List Nat
  heap : List Session
  streams : List Stream
deriving DecidableEq, Repr

/-- The atomic operations. -/
inductive Op where
  -- `CreateStream`
  | createStream
  | getIdleSession
  | dialOut
  | createSession
  | addSession (s : Nat)
  | run (s : Nat)
  | openStream (s : Nat)
  | newStream (s : Nat)
  | writeSYN (s : Nat) (sid : UInt32)
  | addStream (s : Nat) (sid : UInt32)
  | setDieHook (r : Nat)
  -- `Stream.closeWithError` and `Stream.closeLocally`
  | finish (r : Nat) (notify : Bool)
  | streamClosed (s : Nat) (sid : UInt32)
  | writeFIN (s : Nat) (sid : UInt32)
  | deleteStream (s : Nat) (sid : UInt32)
  | dieHook (s : Nat)
  | selectDie (s : Nat)
  | insertIdle (s : Nat)
  -- `Session.Close`
  | close (s : Nat)
  | removeIdle (s : Nat)
  | deleteSession (s : Nat)
  | closeStreams (s : Nat)
  -- `recvLoop`
  | recvFIN (s : Nat) (sid : UInt32)
  | recvSYNACK (s : Nat) (sid : UInt32)
  | recvReturn (s : Nat)
  -- `idleCleanup` and `Client.Close`
  | idleCleanup
  | idleCleanupExpTime (expTime : Int)
  | dieCancel
  | closeSessions
deriving DecidableEq, Repr

/-- What the environment chooses: the time, and whether dialing and writing succeed. -/
structure Env where
  now : Int
  ok : Bool

namespace State

/-- `IsClosed` -/
def isClosed (st : State) (s : Nat) : Bool := (st.heap[s]?).elim true Session.die

def modifySession (st : State) (s : Nat) (f : Session → Session) : State :=
  { st with heap := st.heap.modify s f }

/-- The map `streams` of a session. -/
def streamsOf (st : State) (s : Nat) : List (UInt32 × Nat) := (st.heap[s]?).elim [] Session.streams

/-! ### Streams -/

/-- `finish` and what `closeWithError` or `closeLocally` does behind it. Only the first call takes
the hook. -/
def finish (st : State) (r : Nat) (notify : Bool) : State × List Op :=
  match st.streams[r]? with
  | none => (st, [])
  | some x =>
    if x.died then (st, [])
    else
      ({ st with streams := st.streams.set r { x with died := true, dieHook := false } },
        (if notify then [.streamClosed x.sess x.id] else []) ++
          if x.dieHook then [.dieHook x.sess] else [])

/-- `setDieHook`, and the return of `CreateStream` behind it. -/
def setDieHook (st : State) (r : Nat) : State :=
  { st with streams := st.streams.modify r fun x => { x with dieHook := true, returned := true } }

/-- The end of `OpenStream`, under the lock of the streams. -/
def addStream (st : State) (s : Nat) (sid : UInt32) : State × List Op :=
  if st.isClosed s then (st, [.close s])
  else
    ({ st.modifySession s fun x =>
        { x with streams := (sid, st.streams.length) :: x.streams.filter (·.1 ≠ sid) } with
        streams := st.streams ++ [⟨s, sid, false, false, false⟩] },
      [.setDieHook st.streams.length])

def deleteStream (st : State) (s : Nat) (sid : UInt32) : State :=
  st.modifySession s fun x => { x with streams := x.streams.filter (·.1 ≠ sid) }

/-! ### Sessions -/

/-- The sections of `Session.Close` that empty the map of the streams. -/
def closeLocallyAll : List Nat → State → State × List Op
  | [], st => (st, [])
  | r :: rs, st =>
    let (st₁, ops) := st.finish r false
    let (st₂, ops') := closeLocallyAll rs st₁
    (st₂, ops ++ ops')

def closeStreams (st : State) (s : Nat) : State × List Op :=
  let (st', ops) := closeLocallyAll ((st.streamsOf s).map Prod.snd) st
  (st'.modifySession s fun x => { x with streams := [] }, ops)

/-- The first section of `Session.Close`, and its hook. -/
def close (st : State) (s : Nat) : State × List Op :=
  if st.isClosed s then (st, [])
  else
    (st.modifySession s fun x => { x with die := true },
      [.removeIdle s, .deleteSession s, .closeStreams s])

/-- `createSession` up to the map of the sessions. -/
def createSession (st : State) : State × List Op :=
  ({ st with heap := st.heap ++ [⟨false, [], 0, 0, false⟩] },
    [.addSession st.heap.length, .run st.heap.length, .openStream st.heap.length])

/-! ### The pool -/

/-- `Remove` -/
def removeIdle (st : State) (s : Nat) : State :=
  { st with idleSession := st.idleSession.filter (· ≠ s) }

/-- `Insert`, and the time that is set under the same lock. -/
def insertIdle (st : State) (s : Nat) (now : Int) : State :=
  { st.modifySession s fun x => { x with idleSince := now } with
    idleSession := st.idleSession.filter (s < ·) ++ s :: st.idleSession.filter (· < s) }

def getIdleSession (st : State) : State × List Op :=
  match st.idleSession with
  | [] => (st, [.dialOut])
  | s :: _ => (st.removeIdle s, [.openStream s])

/-- The loop of `idleCleanupExpTime` over the pool: the sessions it keeps and those it closes. -/
def cleanupLoop (cfg : Config) (expTime now : Int) :
    List Nat → Nat → List Session → List Session × List Nat × List Nat
  | [], _, heap => (heap, [], [])
  | s :: rest, activeCount, heap =>
    if ¬(heap[s]?).elim 0 Session.idleSince < expTime then
      let (heap', keep, toClose) := cleanupLoop cfg expTime now rest (activeCount + 1) heap
      (heap', s :: keep, toClose)
    else if activeCount < cfg.minIdleSession then
      let (heap', keep, toClose) := cleanupLoop cfg expTime now rest (activeCount + 1)
        (heap.modify s fun x => { x with idleSince := now })
      (heap', s :: keep, toClose)
    else
      let (heap', keep, toClose) := cleanupLoop cfg expTime now rest activeCount heap
      (heap', keep, s :: toClose)

def idleCleanupExpTime (cfg : Config) (expTime now : Int) (st : State) : State × List Op :=
  let (heap, keep, toClose) := cleanupLoop cfg expTime now st.idleSession 0 st.heap
  ({ st with idleSession := keep, heap := heap }, toClose.map .close)

end State

/-! ### Operations -/

/-- What an operation does, and what its goroutine does next. -/
def exec (cfg : Config) (env : Env) (op : Op) (st : State) : State × List Op :=
  match op with
  | .createStream =>
    (st, if st.die then [] else if cfg.disableReuse then [.dialOut] else [.getIdleSession])
  | .getIdleSession => st.getIdleSession
  | .dialOut => (st, if env.ok then [.createSession] else [])
  | .createSession => st.createSession
  | .addSession s => ({ st with sessions := s :: st.sessions }, [])
  | .run s => (st.modifySession s fun x => { x with recvLoop := true }, [])
  | .openStream s => (st, if st.isClosed s then [.close s] else [.newStream s])
  | .newStream s =>
    (st.modifySession s fun x => { x with streamId := x.streamId + 1 },
      [.writeSYN s ((st.heap[s]?).elim 0 Session.streamId + 1)])
  -- a failed write closes the session, and so does `CreateStream` behind it
  | .writeSYN s sid => (st, if env.ok then [.addStream s sid] else [.close s, .close s])
  | .addStream s sid => st.addStream s sid
  | .setDieHook r => (st.setDieHook r, [])
  | .finish r notify => st.finish r notify
  | .streamClosed s sid => (st, if st.isClosed s then [] else [.writeFIN s sid])
  | .writeFIN s sid =>
    (st, if env.ok then [.deleteStream s sid] else [.close s, .deleteStream s sid])
  | .deleteStream s sid => (st.deleteStream s sid, [])
  | .dieHook s =>
    (st, if st.isClosed s then [] else if cfg.disableReuse then [.close s] else [.selectDie s])
  | .selectDie s => (st, if st.die then [.close s] else [.insertIdle s])
  | .insertIdle s => (st.insertIdle s env.now, [])
  | .close s => st.close s
  | .removeIdle s => (if cfg.disableReuse then st else st.removeIdle s, [])
  | .deleteSession s => ({ st with sessions := st.sessions.filter (· ≠ s) }, [])
  | .closeStreams s => st.closeStreams s
  | .recvFIN s sid =>
    (st.deleteStream s sid,
      match (st.streamsOf s).lookup sid with
      | some r => [.finish r false]
      | none => [])
  | .recvSYNACK s sid =>
    (st,
      match (st.streamsOf s).lookup sid with
      | some r => [.finish r true]
      | none => [])
  | .recvReturn s => (st.modifySession s fun x => { x with recvLoop := false }, [.close s])
  | .idleCleanup => (st, [.idleCleanupExpTime (env.now - cfg.idleSessionTimeout)])
  | .idleCleanupExpTime expTime => st.idleCleanupExpTime cfg expTime env.now
  | .dieCancel => ({ st with die := true }, [.closeSessions])
  | .closeSessions => ({ st with sessions := [] }, st.sessions.map .close)

/-- What a thread was started for. -/
inductive Kind where
  | createStream
  | recvLoop (s : Nat)
  | other
deriving DecidableEq, Repr

/-- The loop of session `s` waits for a header. -/
def Receives (st : State) (ts : List (Thread Kind Op)) (s : Nat) : Prop :=
  (st.heap[s]?).elim false Session.recvLoop = true ∧ ∀ t ∈ ts, t.kind ≠ .recvLoop s

/-- The threads that can start. -/
inductive Starts (cfg : Config) : State → List (Thread Kind Op) → Thread Kind Op → Prop
  | createStream {st : State} {ts : List (Thread Kind Op)} :
      Starts cfg st ts ⟨.createStream, [.createStream]⟩
  | streamClose {st : State} {ts : List (Thread Kind Op)} {r : Nat} {x : Stream} :
      st.streams[r]? = some x → x.returned = true →
      Starts cfg st ts ⟨.other, [.finish r true]⟩
  | recvFIN {st : State} {ts : List (Thread Kind Op)} {s : Nat} {sid : UInt32} :
      Receives st ts s → Starts cfg st ts ⟨.recvLoop s, [.recvFIN s sid]⟩
  | recvSYNACK {st : State} {ts : List (Thread Kind Op)} {s : Nat} {sid : UInt32} :
      Receives st ts s → Starts cfg st ts ⟨.recvLoop s, [.recvSYNACK s sid]⟩
  | recvReturn {st : State} {ts : List (Thread Kind Op)} {s : Nat} :
      Receives st ts s → Starts cfg st ts ⟨.recvLoop s, [.recvReturn s]⟩
  | sessionClose {st : State} {ts : List (Thread Kind Op)} {s : Nat} :
      s < st.heap.length → Starts cfg st ts ⟨.other, [.close s]⟩
  | idleCleanup {st : State} {ts : List (Thread Kind Op)} :
      cfg.disableReuse = false → Starts cfg st ts ⟨.other, [.idleCleanup]⟩
  | clientClose {st : State} {ts : List (Thread Kind Op)} : Starts cfg st ts ⟨.other, [.dieCancel]⟩

def system (cfg : Config) : System State Env Kind Op := ⟨exec cfg, Starts cfg⟩

/-- A new client. -/
def newClient : State := ⟨false, [], [], [], []⟩

/-! ### The property -/

/-- The session exists and is not closed. -/
def State.Open (st : State) (s : Nat) : Prop := st.isClosed s = false

/-- The session has a stream that has not died. -/
def State.HasLiveStream (st : State) (s : Nat) : Prop :=
  ∃ x ∈ st.streams, x.sess = s ∧ x.died = false

/-- Open sessions without a stream are in the pool, the pool holds no others, and none twice. -/
structure State.Pooled (st : State) : Prop where
  idle : ∀ s, st.Open s → ¬st.HasLiveStream s → s ∈ st.idleSession
  isOpen : ∀ s ∈ st.idleSession, st.Open s
  free : ∀ s ∈ st.idleSession, ¬st.HasLiveStream s
  nodup : st.idleSession.Nodup

end Hako.AnyTLS.Client
