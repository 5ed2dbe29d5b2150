import Hako.GoLib.Utf8

/-!
# The mKCP connection

`Conn` turns datagrams into a byte stream: numbered data segments, acknowledged one by one and
cumulatively. Every method that changes the connection does so in one section under its mutex;
here it is a function on the connection. The clock is an input: `current` is what the section
reads at its start, `elapsed` what it reads again when it changes the state. Deadlines and the
channels that wake other goroutines are left out.

Reliability rests on a part of the connection only, its `View`: the window, the cache, the
counters and the numbers still to be acknowledged. The second half of the file says what each
function does to the view.
-/

namespace Hako.Mkcp

open GoLib List

/-! ### Configuration -/

structure Config where
  MTU : UInt32
  TTI : UInt32
  UplinkCapacity : UInt32
  DownlinkCapacity : UInt32
  Congestion : Bool
  WriteBuffer : UInt32

namespace Config

/-- A value that stands for a default when it is zero. -/
def orDefault (value default : UInt32) : UInt32 := if value = 0 then default else value

def mtu (c : Config) : UInt32 := orDefault c.MTU 1350

def tti (c : Config) : UInt32 := orDefault c.TTI 50

def uplinkCapacity (c : Config) : UInt32 := orDefault c.UplinkCapacity 5

def downlinkCapacity (c : Config) : UInt32 := orDefault c.DownlinkCapacity 20

def writeBuffer (c : Config) : UInt32 := orDefault c.WriteBuffer (2 * 1024 * 1024)

/-- The segments of a capacity in one interval. With a `TTI` above 1000 the source divides by
zero here; `newConn` then makes no connection. -/
def inFlightSize (c : Config) (capacity : UInt32) : UInt32 :=
  let size := capacity * 1024 * 1024 / c.mtu / (1000 / c.tti)
  if size < 8 then 8 else size

def sendingInFlightSize (c : Config) : UInt32 := c.inFlightSize c.uplinkCapacity

def receivingInFlightSize (c : Config) : UInt32 := c.inFlightSize c.downlinkCapacity

def sendingBufferSize (c : Config) : UInt32 := c.writeBuffer / c.mtu

end Config

/-! ### Segments -/

def commandTerminate : UInt8 := 2

def commandPing : UInt8 := 3

def segmentOptionClose : UInt8 := 1

def dataSegmentOverhead : Nat := 18

structure DataSegment where
  conv : UInt16
  option : UInt8
  timestamp : UInt32
  number : UInt32
  sendingNext : UInt32
  payload : GoString
  timeout : UInt32
  transmit : UInt32
deriving DecidableEq

structure AckSegment where
  conv : UInt16
  option : UInt8
  receivingWindow : UInt32
  receivingNext : UInt32
  timestamp : UInt32
  numberList : List UInt32
deriving DecidableEq

structure CmdOnlySegment where
  conv : UInt16
  cmd : UInt8
  option : UInt8
  sendingNext : UInt32
  receivingNext : UInt32
  peerRTO : UInt32
deriving DecidableEq

inductive Segment where
  | data (s : DataSegment)
  | ack (s : AckSegment)
  | cmdOnly (s : CmdOnlySegment)
deriving DecidableEq

namespace Segment

def conversation : Segment → UInt16
  | data s => s.conv
  | ack s => s.conv
  | cmdOnly s => s.conv

def byteSize : Segment → Nat
  | data s => dataSegmentOverhead + s.payload.length
  | ack s => 17 + s.numberList.length * 4
  | cmdOnly _ => 16

/-- What the peer reads: the counters of a data segment are local. -/
def onWire : Segment → Segment
  | data s => data { s with timeout := 0, transmit := 0 }
  | s => s

end Segment

/-! ### The connection -/

inductive ConnState where
  | active
  | readyToClose
  | peerClosed
  | terminating
  | peerTerminating
  | terminated
deriving DecidableEq

structure AckItem where
  number : UInt32
  timestamp : UInt32
  nextFlush : UInt32
deriving DecidableEq

/-- The map `recvCache` is a list of segments with distinct numbers. -/
structure Conn where
  cfg : Config
  conv : UInt16
  mss : Nat
  rto : UInt32
  rttVariation : UInt32
  srtt : UInt32
  minRtt : UInt32
  rtoUpdated : UInt32
  state : ConnState
  stateBegin : UInt32
  lastIncoming : UInt32
  lastPing : UInt32
  readBuf : GoString
  recvCache : List DataSegment
  recvNext : UInt32
  ackList : List AckItem
  ackDirty : Bool
  sendWindow : List DataSegment
  sendNext : UInt32
  firstUnacked : UInt32
  remoteRecvWin : UInt32
  totalInFlightSize : UInt32
  controlWindow : UInt32
  firstUnackedWasUpdated : Bool

/-- A connection whose writer adds `overhead` bytes; none if the configuration makes the source
divide by zero. -/
def newConn (cfg : Config) (conv : UInt16) (overhead : Nat) : Option Conn :=
  if 1000 / cfg.tti = 0 then none
  else some
    { cfg, conv, mss := max 576 (cfg.mtu.toNat - overhead - dataSegmentOverhead), rto := 100,
      rttVariation := 0, srtt := 0, minRtt := cfg.tti, rtoUpdated := 0, state := .active,
      stateBegin := 0, lastIncoming := 0, lastPing := 0, readBuf := [], recvCache := [],
      recvNext := 0, ackList := [], ackDirty := false, sendWindow := [], sendNext := 0,
      firstUnacked := 0, remoteRecvWin := 32, totalInFlightSize := 0,
      controlWindow := cfg.sendingInFlightSize, firstUnackedWasUpdated := false }

/-- A connection with the default configuration, without a header. -/
def exampleConn : Conn :=
  { cfg := ⟨0, 0, 0, 0, false, 0⟩, conv := 7, mss := 1332, rto := 100, rttVariation := 0,
    srtt := 0, minRtt := 50, rtoUpdated := 0, state := .active, stateBegin := 0,
    lastIncoming := 0, lastPing := 0, readBuf := [], recvCache := [], recvNext := 0,
    ackList := [], ackDirty := false, sendWindow := [], sendNext := 0, firstUnacked := 0,
    remoteRecvWin := 32, totalInFlightSize := 0, controlWindow := 194,
    firstUnackedWasUpdated := false }

namespace Conn

def setState (c : Conn) (elapsed : UInt32) (state : ConnState) : Conn :=
  if c.state = state then c
  else
    let c := { c with state, stateBegin := elapsed }
    match state with
    | .active | .readyToClose => c
    | .peerClosed | .terminating | .peerTerminating | .terminated => { c with sendWindow := [] }

/-- The section of `Read` for a buffer of `n` bytes: the bytes read, if there are any. -/
def read (c : Conn) (n : Nat) : Conn × GoString :=
  ({ c with readBuf := c.readBuf.drop n }, c.readBuf.take n)

/-- One round of the loop of `Write`, with `b` the bytes still to be written. -/
def write (c : Conn) (b : GoString) : Option (Conn × GoString) :=
  if b ≠ [] ∧ c.state = .active ∧
      UInt32.ofNat c.sendWindow.length ≤ c.cfg.sendingBufferSize then
    let payload := b.take c.mss
    let seg : DataSegment :=
      { conv := 0, option := 0, timestamp := 0, number := c.sendNext, sendingNext := 0, payload,
        timeout := 0, transmit := 0 }
    some ({ c with sendNext := c.sendNext + 1, sendWindow := c.sendWindow ++ [seg] }, payload)
  else none

def close (c : Conn) (elapsed : UInt32) : Option Conn :=
  match c.state with
  | .readyToClose | .terminating | .terminated => none
  | .active => some (c.setState elapsed .readyToClose)
  | .peerClosed => some (c.setState elapsed .terminating)
  | .peerTerminating => some (c.setState elapsed .terminated)

/-! ### Input -/

def handleOption (c : Conn) (elapsed : UInt32) (opt : UInt8) : Conn :=
  if opt &&& segmentOptionClose = segmentOptionClose then
    match c.state with
    | .readyToClose => c.setState elapsed .terminating
    | .active => c.setState elapsed .peerClosed
    | _ => c
  else c

def findFirstUnacked (c : Conn) : Conn :=
  let firstUnacked := match c.sendWindow with
    | [] => c.sendNext
    | seg :: _ => seg.number
  { c with
    firstUnacked
    firstUnackedWasUpdated := c.firstUnackedWasUpdated || c.firstUnacked ≠ firstUnacked }

def cached (c : Conn) (number : UInt32) : Option DataSegment :=
  c.recvCache.find? (·.number = number)

/-- One round of the loop of `deliverLocked`. -/
def deliverNext (c : Conn) (seg : DataSegment) : Conn :=
  { c with
    recvCache := c.recvCache.filter (·.number ≠ c.recvNext)
    recvNext := c.recvNext + 1
    readBuf := c.readBuf ++ seg.payload }

def deliverLoop : Nat → Conn → Conn
  | 0, c => c
  | n + 1, c =>
    match c.cached c.recvNext with
    | none => c
    | some seg => deliverLoop n (c.deliverNext seg)

/-- Every round takes a segment from the cache, so its size bounds the rounds. -/
def deliver (c : Conn) : Conn := deliverLoop c.recvCache.length c

def processSendingNext (c : Conn) (next : UInt32) : Conn :=
  let acks := c.ackList.filter (next ≤ ·.number)
  { c with ackList := acks, ackDirty := c.ackDirty || acks.length ≠ c.ackList.length }

def processReceivingNext (c : Conn) (next : UInt32) : Conn :=
  { c with sendWindow := c.sendWindow.filter (next ≤ ·.number) }.findFirstUnacked

/-- `processAckLocked`, and whether it removed a segment. -/
def processAck (c : Conn) (number : UInt32) : Conn × Bool :=
  if 0x7fffffff < number - c.firstUnacked || number - c.sendNext < 0x7fffffff then (c, false)
  else if c.sendWindow.any (·.number = number) then
    ({ c with
       totalInFlightSize :=
         if 0 < c.totalInFlightSize then c.totalInFlightSize - 1 else c.totalInFlightSize
       sendWindow := c.sendWindow.eraseP (·.number = number) }.findFirstUnacked, true)
  else (c, false)

/-- The loop of `handleFastAckLocked`. -/
def fastAckLoop (number reduction : UInt32) : List DataSegment → List DataSegment
  | [] => []
  | seg :: rest =>
    if number = seg.number || 0x7fffffff < number - seg.number then seg :: rest
    else
      (if 0 < seg.transmit && reduction < seg.timeout then
        { seg with timeout := seg.timeout - reduction } else seg) :: fastAckLoop number reduction rest

def handleFastAck (c : Conn) (number : UInt32) : Conn :=
  if c.rto / 3 = 0 then c
  else { c with sendWindow := fastAckLoop number (c.rto / 3) c.sendWindow }

def updateRTT (c : Conn) (rtt current : UInt32) : Conn :=
  if 0x7fffffff < rtt then c
  else
    let delta := if rtt < c.srtt then c.srtt - rtt else rtt - c.srtt
    let rttVariation := if c.srtt = 0 then rtt / 2 else (3 * c.rttVariation + delta) / 4
    let srtt := if c.srtt = 0 then rtt else max ((7 * c.srtt + rtt) / 8) c.minRtt
    let rto := if c.minRtt < 4 * rttVariation then srtt + 4 * rttVariation else srtt + rttVariation
    { c with rttVariation, srtt, rto := min rto 10000 * 5 / 4, rtoUpdated := current }

def updatePeerRTO (c : Conn) (rto current : UInt32) : Conn :=
  if rto = 0 || current - c.rtoUpdated < 3000 then c
  else { c with rtoUpdated := current, rto }

/-- The receive window: a segment in it is cached and acknowledged, also when it is there
already. -/
def acceptData (c : Conn) (s : DataSegment) : Conn :=
  if s.number - c.recvNext < c.cfg.receivingInFlightSize then
    { c with
      ackList := c.ackList ++ [⟨s.number, s.timestamp, 0⟩]
      ackDirty := true
      recvCache := if (c.cached s.number).isSome then c.recvCache else c.recvCache ++ [s] }
  else c

def inputData (c : Conn) (elapsed : UInt32) (s : DataSegment) : Conn :=
  (((c.handleOption elapsed s.option).processSendingNext s.sendingNext).acceptData s).deliver

/-- The loop over the numbers of an acknowledgement: the greatest one, and whether it removed a
segment. -/
def processAcks : List UInt32 → UInt32 → Bool → Conn → Conn × UInt32 × Bool
  | [], maxack, removed, c => (c, maxack, removed)
  | number :: numbers, maxack, removed, c =>
    let (c, hit) := c.processAck number
    if maxack < number then processAcks numbers number hit c
    else processAcks numbers maxack removed c

def inputAck (c : Conn) (current elapsed : UInt32) (s : AckSegment) : Conn :=
  let c := c.handleOption elapsed s.option
  let c := { c with
    remoteRecvWin := if c.remoteRecvWin < s.receivingWindow then s.receivingWindow
      else c.remoteRecvWin }
  let c := c.processReceivingNext s.receivingNext
  let (c, maxack, removed) := processAcks s.numberList 0 false c
  if removed then
    let c := c.handleFastAck maxack
    if current - s.timestamp < 10000 then c.updateRTT (current - s.timestamp) current else c
  else c

/-- What the command `terminate` does to the state. -/
def handleTerminate (c : Conn) (elapsed : UInt32) : Conn :=
  match c.state with
  | .active | .peerClosed => c.setState elapsed .peerTerminating
  | .readyToClose => c.setState elapsed .terminating
  | .terminating => c.setState elapsed .terminated
  | .peerTerminating | .terminated => c

def inputCmdOnly (c : Conn) (current elapsed : UInt32) (s : CmdOnlySegment) : Conn :=
  let c := c.handleOption elapsed s.option
  let c := if s.cmd = commandTerminate then c.handleTerminate elapsed else c
  let c := c.processReceivingNext s.receivingNext
  let c := c.processSendingNext s.sendingNext
  c.updatePeerRTO s.peerRTO current

def inputSegment (c : Conn) (current elapsed : UInt32) : Segment → Conn
  | .data s => c.inputData elapsed s
  | .ack s => c.inputAck current elapsed s
  | .cmdOnly s => c.inputCmdOnly current elapsed s

/-- The loop of `Input`, up to the first segment of another conversation. -/
def inputLoop (current elapsed : UInt32) : List Segment → Conn → Conn
  | [], c => c
  | seg :: segments, c =>
    if seg.conversation = c.conv then
      inputLoop current elapsed segments (c.inputSegment current elapsed seg)
    else c

def input (c : Conn) (current elapsed : UInt32) (segments : List Segment) : Conn :=
  if segments = [] ∨ c.state = .terminated then c
  else inputLoop current elapsed segments { c with lastIncoming := current }

/-! ### Flush -/

def closeOption (c : Conn) : UInt8 := if c.state = .readyToClose then segmentOptionClose else 0

def newAckSegment (c : Conn) : AckSegment :=
  { conv := c.conv, option := c.closeOption, receivingNext := c.recvNext, timestamp := 0,
    receivingWindow := c.recvNext + c.cfg.receivingInFlightSize, numberList := [] }

def pingSegment (c : Conn) (cmd : UInt8) (current : UInt32) : Conn × Segment :=
  ({ c with lastPing := current },
    .cmdOnly { conv := c.conv, cmd, option := c.closeOption, receivingNext := c.recvNext,
               sendingNext := c.firstUnacked, peerRTO := c.rto })

/-- The variables of the loop of `flushAcksLocked`. -/
structure AckFlush where
  items : List AckItem
  segments : List AckSegment
  candidates : List UInt32
  ack : AckSegment
  dirty : Bool

def flushAck (c : Conn) (current : UInt32) (a : AckFlush) (item : AckItem) : AckFlush :=
  if current < item.nextFlush then
    { a with
      items := a.items ++ [item]
      candidates := if a.candidates.length < 128 then a.candidates ++ [item.number]
        else a.candidates }
  else
    let ack := { a.ack with
      numberList := a.ack.numberList ++ [item.number]
      timestamp := if item.timestamp - a.ack.timestamp < 0x7fffffff then item.timestamp
        else a.ack.timestamp }
    let items := a.items ++ [{ item with nextFlush := current + max (c.rto / 2) 20 }]
    if ack.numberList.length = 128 then
      { a with items, segments := a.segments ++ [ack], ack := c.newAckSegment, dirty := false }
    else { a with items, ack }

def flushAcks (c : Conn) (current : UInt32) : Conn × List AckSegment :=
  if c.ackList = [] then (c, [])
  else
    let a := c.ackList.foldl (c.flushAck current) ⟨[], [], [], c.newAckSegment, c.ackDirty⟩
    if a.dirty || a.ack.numberList ≠ [] then
      let numbers := a.candidates.take (128 - a.ack.numberList.length)
      ({ c with ackList := a.items, ackDirty := false },
        a.segments ++ [{ a.ack with numberList := a.ack.numberList ++ numbers }])
    else ({ c with ackList := a.items, ackDirty := a.dirty }, a.segments)

/-- The variables of the loop of `flushSendLocked`. -/
structure SendFlush where
  total : UInt32
  lost : UInt32
  inFlight : UInt32

/-- A segment is sent for the first time or again. -/
def SendFlush.count (v : SendFlush) (seg : DataSegment) : SendFlush :=
  if seg.transmit = 0 then ⟨v.total + 1, v.lost, v.inFlight + 1⟩
  else ⟨v.total, v.lost + 1, v.inFlight + 1⟩

/-- A segment as it is sent at `current`. -/
def stamp (c : Conn) (current : UInt32) (seg : DataSegment) : DataSegment :=
  { seg with
    conv := c.conv, timestamp := current, sendingNext := c.firstUnacked, option := c.closeOption
    transmit := seg.transmit + 1, timeout := current + max c.rto c.cfg.tti }

/-- The loop of `flushSendLocked`: the window, the segments to be sent, the counters. -/
def flushSendLoop (c : Conn) (current cwnd : UInt32) (v : SendFlush) :
    List DataSegment → List DataSegment × List DataSegment × SendFlush
  | [] => ([], [], v)
  | seg :: rest =>
    if 0x7fffffff ≤ current - seg.timeout then
      let (window, out, v) := flushSendLoop c current cwnd v rest
      (seg :: window, out, v)
    else
      let v := v.count seg
      let seg := c.stamp current seg
      if cwnd ≤ v.inFlight then (seg :: rest, [seg], v)
      else
        let (window, out, v) := flushSendLoop c current cwnd v rest
        (seg :: window, seg :: out, v)

def onPacketLoss (c : Conn) (lossRate : UInt32) : Conn :=
  if c.rto = 0 then c
  else
    let window :=
      if 15 ≤ lossRate then 3 * c.controlWindow / 4
      else if lossRate ≤ 5 then c.controlWindow + c.controlWindow / 4
      else c.controlWindow
    { c with controlWindow := min (max window 16) (2 * c.cfg.sendingInFlightSize) }

def flushWindow (c : Conn) : UInt32 :=
  let cwnd := min c.cfg.sendingInFlightSize (c.remoteRecvWin - c.firstUnacked)
  (if c.cfg.Congestion then min cwnd c.controlWindow else cwnd) * 20

def flushSend (c : Conn) (current : UInt32) : Conn × List Segment :=
  if c.sendWindow = [] then
    if c.firstUnackedWasUpdated then
      let (c, ping) := pingSegment { c with firstUnackedWasUpdated := false } commandPing current
      (c, [ping])
    else (c, [])
  else
    let (window, out, v) :=
      c.flushSendLoop current c.flushWindow ⟨c.totalInFlightSize, 0, 0⟩ c.sendWindow
    let c := { c with sendWindow := window, totalInFlightSize := v.total }
    let c := if c.cfg.Congestion && 0 < v.inFlight && v.total ≠ 0 then
        c.onPacketLoss (v.lost * 100 / v.total)
      else c
    ({ c with firstUnackedWasUpdated := false }, out.map .data)

/-- The part of `flush` for a connection that is not terminating. -/
def flushOpen (c : Conn) (current elapsed : UInt32) : Conn × List Segment :=
  let c := if c.state = .peerTerminating ∧ 4000 < current - c.stateBegin then
    c.setState elapsed .terminating else c
  let c := if c.state = .readyToClose ∧ 15000 < current - c.stateBegin then
    c.setState elapsed .terminating else c
  let (c, acks) := c.flushAcks current
  let (c, out) := c.flushSend current
  if 3000 ≤ current - c.lastPing then
    let (c, ping) := c.pingSegment commandPing current
    (c, acks.map .ack ++ out ++ [ping])
  else (c, acks.map .ack ++ out)

def flush (c : Conn) (current elapsed : UInt32) : Conn × List Segment :=
  if c.state = .terminated then (c, [])
  else
    let c := if c.state = .active ∧ 30000 ≤ current - c.lastIncoming then
      c.setState elapsed .readyToClose else c
    let c := if c.state = .readyToClose ∧ c.sendWindow = [] then
      c.setState elapsed .terminating else c
    if c.state = .terminating then
      let (c, ping) := c.pingSegment commandTerminate current
      (if 8000 < current - c.stateBegin then c.setState elapsed .terminated else c, [ping])
    else c.flushOpen current elapsed

/-! ### Delivery ends at a gap -/

theorem cached_eq_some {c : Conn} {number : UInt32} {seg : DataSegment}
    (h : c.cached number = some seg) : seg ∈ c.recvCache ∧ seg.number = number :=
  ⟨mem_of_find?_eq_some h, by simpa using find?_some h⟩

end Conn

/-! ### What reliability rests on -/

/-- A numbered payload. -/
def DataSegment.numbered (s : DataSegment) : UInt32 × GoString := (s.number, s.payload)

structure View where
  /-- The state is active or ready to close. -/
  alive : Bool
  window : List (UInt32 × GoString)
  sendNext : UInt32
  recvNext : UInt32
  cache : List (UInt32 × GoString)
  acks : List UInt32
  readBuf : GoString

/-- The view of a connection that has given up its window. -/
def View.closed (v : View) : View := { v with alive := false, window := [] }

/-- The view stays the same, or the window is given up. -/
def View.Fades (v v' : View) : Prop := v' = v ∨ v' = v.closed

theorem View.Fades.trans {u v w : View} (h : u.Fades v) (h' : v.Fades w) : u.Fades w := by
  rcases h with rfl | rfl
  · exact h'
  · rcases h' with rfl | rfl
    · exact .inr rfl
    · exact .inr rfl

/-- The segments that a connection with this view may send. -/
def View.Emits (v : View) : Segment → Prop
  | .data s => s.numbered ∈ v.window
  | .ack s => s.receivingNext = v.recvNext ∧ ∀ n ∈ s.numberList, n ∈ v.acks
  | .cmdOnly s => s.receivingNext = v.recvNext

namespace Conn

def view (c : Conn) : View where
  alive := c.state = .active ∨ c.state = .readyToClose
  window := c.sendWindow.map DataSegment.numbered
  sendNext := c.sendNext
  recvNext := c.recvNext
  cache := c.recvCache.map DataSegment.numbered
  acks := c.ackList.map AckItem.number
  readBuf := c.readBuf

/-- A state in which the window has been given up. -/
def Closing : ConnState → Prop
  | .active | .readyToClose => False
  | .peerClosed | .terminating | .peerTerminating | .terminated => True

instance : DecidablePred Closing
  | .active | .readyToClose => .isFalse id
  | .peerClosed | .terminating | .peerTerminating | .terminated => .isTrue trivial

variable {state : ConnState} (c : Conn) {items : List AckItem} {a : AckFlush}

variable (number current next elapsed : UInt32)

theorem fades_setState (h : Closing state) : c.view.Fades (c.setState elapsed state).view := by
  unfold setState
  split
  · exact .inl rfl
  · cases state with
    | active => exact h.elim
    | readyToClose => exact h.elim
    | peerClosed | terminating | peerTerminating | terminated => exact .inr rfl

theorem view_setState_readyToClose {c : Conn} (h : c.state = .active) :
    (c.setState elapsed .readyToClose).view = c.view := by
  simp [setState, view, h]

/-- The connection goes on as it is, or is ended. -/
inductive Ends (elapsed : UInt32) (c : Conn) : Conn → Prop
  | refl : Ends elapsed c c
  | setState {c' : Conn} {state : ConnState} :
      Ends elapsed c c' → Closing state → Ends elapsed c (c'.setState elapsed state)

namespace Ends

variable {c c' : Conn} {elapsed : UInt32}

theorem fades (h : Ends elapsed c c') : c.view.Fades c'.view := by
  induction h with
  | refl => exact .inl rfl
  | @setState c' state _ hstate ih => exact ih.trans (c'.fades_setState elapsed hstate)

/-- A timeout that may end the connection. -/
theorem timeout (h : Ends elapsed c c') {p : Prop} [Decidable p] (state : ConnState)
    (hstate : Closing state) : Ends elapsed c (if p then c'.setState elapsed state else c') :=
  iteInduction (fun _ => h.setState hstate) fun _ => h

theorem handleOption (elapsed : UInt32) (opt : UInt8) :
    Ends elapsed c (c.handleOption elapsed opt) := by
  unfold Conn.handleOption
  split
  · split
    · exact .setState .refl trivial
    · exact .setState .refl trivial
    · exact .refl
  · exact .refl

theorem handleTerminate (h : Ends elapsed c c') : Ends elapsed c (c'.handleTerminate elapsed) := by
  unfold Conn.handleTerminate
  split
  · exact h.setState trivial
  · exact h.setState trivial
  · exact h.setState trivial
  · exact h.setState trivial
  · exact h
  · exact h

end Ends

/-- Only timeouts are changed. -/
theorem map_fastAckLoop {β : Type*} {f : DataSegment → β}
    (hf : ∀ seg timeout, f { seg with timeout := timeout } = f seg) (number reduction : UInt32)
    (window : List DataSegment) :
    (fastAckLoop number reduction window).map f = window.map f := by
  induction window with
  | nil => rfl
  | cons seg rest ih =>
    unfold fastAckLoop
    split
    · rfl
    · rw [map_cons, map_cons, ih]
      congr 1
      split
      · exact hf ..
      · rfl

@[simp]
theorem view_handleFastAck : (c.handleFastAck number).view = c.view := by
  unfold handleFastAck
  split
  · rfl
  · simp only [view, map_fastAckLoop (f := DataSegment.numbered) fun _ _ => rfl]

@[simp]
theorem view_updateRTT (rtt current : UInt32) : (c.updateRTT rtt current).view = c.view := by
  unfold updateRTT
  split <;> rfl

@[simp]
theorem view_updatePeerRTO (rto current : UInt32) :
    (c.updatePeerRTO rto current).view = c.view := by
  unfold updatePeerRTO
  split <;> rfl

@[simp]
theorem view_processSendingNext :
    (c.processSendingNext next).view = { c.view with acks := c.view.acks.filter (next ≤ ·) } := by
  simp only [processSendingNext, view, filter_map]
  rfl

@[simp]
theorem view_processReceivingNext :
    (c.processReceivingNext next).view =
      { c.view with window := c.view.window.filter (next ≤ ·.1) } := by
  simp only [processReceivingNext, findFirstUnacked, view, filter_map]
  rfl

theorem view_processAck :
    (c.processAck number).1.view = c.view ∨ (c.processAck number).1.view =
        { c.view with window := c.view.window.eraseP (·.1 = number) } := by
  unfold processAck
  split
  · exact .inl rfl
  · split
    · refine .inr ?_
      simp only [findFirstUnacked, view, eraseP_map]
      rfl
    · exact .inl rfl

theorem view_acceptData (s : DataSegment) :
    (c.acceptData s).view = c.view ∨ (c.acceptData s).view = { c.view with
        acks := c.view.acks ++ [s.number]
        cache := if (c.cached s.number).isSome then c.view.cache
          else c.view.cache ++ [(s.number, s.payload)] } := by
  unfold acceptData
  split
  · refine .inr ?_
    by_cases h : (c.cached s.number).isSome <;> simp [view, h, DataSegment.numbered]
  · exact .inl rfl

@[simp]
theorem view_deliverNext (seg : DataSegment) :
    (c.deliverNext seg).view = { c.view with
        cache := c.view.cache.filter (·.1 ≠ c.view.recvNext)
        recvNext := c.view.recvNext + 1
        readBuf := c.view.readBuf ++ seg.payload } := by
  simp only [deliverNext, view, filter_map]
  rfl

/-! ### What a flush sends -/

/-- The variables of the loop over the acknowledgements after the items `items`. -/
structure AckFlush.Covers (c : Conn) (items : List AckItem) (a : AckFlush) : Prop where
  items_eq : a.items.map AckItem.number = items.map AckItem.number
  ack_next : a.ack.receivingNext = c.recvNext
  ack_mem : ∀ n ∈ a.ack.numberList, n ∈ items.map AckItem.number
  candidates_mem : ∀ n ∈ a.candidates, n ∈ items.map AckItem.number
  segments : ∀ s ∈ a.segments,
    s.receivingNext = c.recvNext ∧ ∀ n ∈ s.numberList, n ∈ items.map AckItem.number

theorem AckFlush.Covers.flushAck {c : Conn} (h : a.Covers c items) (current : UInt32)
    (item : AckItem) :
    (c.flushAck current a item).Covers c (items ++ [item]) := by
  have hmap : (items ++ [item]).map AckItem.number = items.map AckItem.number ++ [item.number] :=
    map_append
  have hold : ∀ {n}, n ∈ items.map AckItem.number → n ∈ (items ++ [item]).map AckItem.number :=
    fun hn => hmap ▸ mem_append_left _ hn
  have hnew : ∀ {l : List UInt32}, (∀ n ∈ l, n ∈ items.map AckItem.number) →
      ∀ n ∈ l ++ [item.number], n ∈ (items ++ [item]).map AckItem.number :=
    fun hl => forall_mem_append.mpr
      ⟨fun n hn => hold (hl n hn), fun n hn => hmap ▸ mem_append_right _ hn⟩
  have hsegments : ∀ s ∈ a.segments, s.receivingNext = c.recvNext ∧
      ∀ n ∈ s.numberList, n ∈ (items ++ [item]).map AckItem.number :=
    fun s hs => ⟨(h.segments s hs).1, fun n hn => hold ((h.segments s hs).2 n hn)⟩
  unfold Conn.flushAck
  split
  · -- the item was sent lately
    refine ⟨by simp [h.items_eq], h.ack_next, fun n hn => hold (h.ack_mem n hn), ?_, hsegments⟩
    split
    · exact hnew h.candidates_mem
    · exact fun n hn => hold (h.candidates_mem n hn)
  · dsimp only
    split
    · -- the segment is full
      refine ⟨by simp [h.items_eq], rfl, by simp [newAckSegment],
        fun n hn => hold (h.candidates_mem n hn), ?_⟩
      exact forall_mem_append.mpr ⟨hsegments, forall_mem_singleton.mpr ⟨h.ack_next, hnew h.ack_mem⟩⟩
    · exact ⟨by simp [h.items_eq], h.ack_next, hnew h.ack_mem,
        fun n hn => hold (h.candidates_mem n hn), hsegments⟩

theorem AckFlush.Covers.foldl {c : Conn} (h : a.Covers c items) (current : UInt32)
    (rest : List AckItem) :
    (rest.foldl (c.flushAck current) a).Covers c (items ++ rest) := by
  induction rest generalizing items a with
  | nil => simpa using h
  | cons item rest ih =>
    have := ih (h.flushAck current item)
    rwa [append_assoc] at this

theorem flushAcks_spec :
    (c.flushAcks current).1.view = c.view ∧
      ∀ s ∈ (c.flushAcks current).2, c.view.Emits (.ack s) := by
  have hinit : AckFlush.Covers c [] ⟨[], [], [], c.newAckSegment, c.ackDirty⟩ :=
    ⟨rfl, rfl, by simp [newAckSegment], by simp, by simp⟩
  have h : (c.ackList.foldl (c.flushAck current) ⟨[], [], [], c.newAckSegment, c.ackDirty⟩).Covers
      c c.ackList := by simpa using hinit.foldl current c.ackList
  unfold flushAcks
  split
  · exact ⟨rfl, by simp⟩
  · dsimp only
    split
    · refine ⟨by simp only [view, h.items_eq],
        forall_mem_append.mpr ⟨h.segments, forall_mem_singleton.mpr ⟨h.ack_next, ?_⟩⟩⟩
      exact forall_mem_append.mpr ⟨h.ack_mem, fun n hn => h.candidates_mem n (mem_of_mem_take hn)⟩
    · exact ⟨by simp only [view, h.items_eq], h.segments⟩

theorem flushSendLoop_spec (current cwnd : UInt32) (v : SendFlush) (window : List DataSegment) :
    (c.flushSendLoop current cwnd v window).1.map DataSegment.numbered =
        window.map DataSegment.numbered ∧ ∀ s ∈ (c.flushSendLoop current cwnd v window).2.1,
        s.numbered ∈ window.map DataSegment.numbered := by
  induction window generalizing v with
  | nil => exact ⟨rfl, by simp [flushSendLoop]⟩
  | cons seg rest ih =>
    unfold flushSendLoop
    split
    · obtain ⟨hmap, hout⟩ := ih v
      exact ⟨by simp [hmap], fun s hs => mem_cons_of_mem _ (hout s hs)⟩
    · dsimp only
      split
      · exact ⟨rfl, forall_mem_singleton.mpr mem_cons_self⟩
      · obtain ⟨hmap, hout⟩ := ih (v.count seg)
        refine ⟨by rw [map_cons, hmap]; rfl, forall_mem_cons.mpr ⟨mem_cons_self, ?_⟩⟩
        exact fun s hs => mem_cons_of_mem _ (hout s hs)

@[simp]
theorem view_onPacketLoss (lossRate : UInt32) : (c.onPacketLoss lossRate).view = c.view := by
  unfold onPacketLoss
  split <;> rfl

theorem flushSend_spec :
    (c.flushSend current).1.view = c.view ∧ ∀ s ∈ (c.flushSend current).2, c.view.Emits s := by
  unfold flushSend
  split
  · split
    · exact ⟨rfl, forall_mem_singleton.mpr rfl⟩
    · exact ⟨rfl, by simp⟩
  · obtain ⟨hmap, hout⟩ := c.flushSendLoop_spec current c.flushWindow ⟨c.totalInFlightSize, 0, 0⟩
      c.sendWindow
    constructor
    · change Conn.view (if _ then _ else _) = _
      split
      · rw [view_onPacketLoss]
        simp only [view, hmap]
      · simp only [view, hmap]
    · intro s hs
      obtain ⟨seg, hseg, rfl⟩ := mem_map.mp hs
      exact hout seg hseg

/-- The connection may end at a timeout, and then the segments are sent. -/
theorem flushOpen_eq : ∃ c₂, Ends elapsed c c₂ ∧ c.flushOpen current elapsed =
    let (c, acks) := c₂.flushAcks current
    let (c, out) := c.flushSend current
    if 3000 ≤ current - c.lastPing then
      let (c, ping) := c.pingSegment commandPing current
      (c, acks.map .ack ++ out ++ [ping])
    else (c, acks.map .ack ++ out) := by
  refine ⟨_, ?_, rfl⟩
  exact (Ends.refl.timeout .terminating trivial).timeout .terminating trivial

theorem flushOpen_spec :
    ∃ v, c.view.Fades v ∧ (c.flushOpen current elapsed).1.view = v ∧
      ∀ s ∈ (c.flushOpen current elapsed).2, v.Emits s := by
  obtain ⟨c₂, hends, heq⟩ := c.flushOpen_eq current elapsed
  rw [heq]
  dsimp only
  obtain ⟨hview₃, hacks⟩ := c₂.flushAcks_spec current
  generalize c₂.flushAcks current = r₃ at *
  obtain ⟨c₃, acks⟩ := r₃
  obtain ⟨hview₄, hout⟩ := c₃.flushSend_spec current
  generalize c₃.flushSend current = r₄ at *
  obtain ⟨c₄, out⟩ := r₄
  rw [hview₃] at hview₄ hout
  have hsegs : ∀ s ∈ acks.map Segment.ack ++ out, c₂.view.Emits s := by
    exact forall_mem_append.mpr ⟨forall_mem_map.mpr hacks, hout⟩
  refine ⟨c₂.view, hends.fades, ?_⟩
  split
  · exact ⟨hview₄, forall_mem_append.mpr
      ⟨hsegs, forall_mem_singleton.mpr (congrArg View.recvNext hview₄)⟩⟩
  · exact ⟨hview₄, hsegs⟩

theorem flush_spec :
    ∃ v, c.view.Fades v ∧ (∀ s ∈ (c.flush current elapsed).2, v.Emits s) ∧
      v.Fades (c.flush current elapsed).1.view := by
  unfold flush
  split
  · exact ⟨c.view, .inl rfl, by simp, .inl rfl⟩
  dsimp only
  generalize hc₁ : (if c.state = .active ∧ 30000 ≤ current - c.lastIncoming then
    c.setState elapsed .readyToClose else c) = c₁
  generalize hc₂ : (if c₁.state = .readyToClose ∧ c₁.sendWindow = [] then
    c₁.setState elapsed .terminating else c₁) = c₂
  have hview₁ : c₁.view = c.view := by
    rw [← hc₁]
    split
    · rename_i h
      exact view_setState_readyToClose elapsed h.1
    · rfl
  have hfades : c.view.Fades c₂.view := by
    rw [← hview₁, ← hc₂]
    exact (Ends.refl.timeout .terminating trivial).fades
  split
  · refine ⟨c₂.view, hfades, fun s hs => ?_, ?_⟩
    · obtain rfl := mem_singleton.mp hs
      rfl
    · exact (Ends.refl.timeout .terminated trivial).fades
  · obtain ⟨v, hv, hview, hsegs⟩ := c₂.flushOpen_spec current elapsed
    exact ⟨v, hfades.trans hv, hsegs, .inl hview⟩

end Conn

end Hako.Mkcp
