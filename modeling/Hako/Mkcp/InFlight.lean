import Hako.Mkcp.Conn

/-!
# Segments in flight

`totalInFlightSize` is raised when a segment is sent for the first time and lowered when a segment
is acknowledged by its number. A segment also leaves the window when the peer acknowledges it
cumulatively and when the connection ends, which the counter does not see. So it is the number of
segments in the window that have been sent as long as nothing but an acknowledgement by number
takes such a segment away.
-/

namespace Hako.Mkcp

open GoLib List Conn

/-- The calls that change the window. -/
inductive Call where
  /-- A round of `Write` with the bytes still to be written. -/
  | write (b : GoString)
  | flush (current elapsed : UInt32)
  | input (current elapsed : UInt32) (segments : List Segment)

namespace Conn

/-- The segments of the window that have been sent. -/
def transmitted (c : Conn) : Nat := c.sendWindow.countP (0 < ·.transmit)

/-- A call; a round of `Write` that has to wait changes nothing. -/
def exec (c : Conn) : Call → Conn
  | .write b => ((c.write b).map Prod.fst).getD c
  | .flush current elapsed => (c.flush current elapsed).1
  | .input current elapsed segments => c.input current elapsed segments

def run (c : Conn) (calls : List Call) : Conn := calls.foldl exec c

/-! ### Calls that the counter keeps up with -/

/-- A cumulative number acknowledges nothing that has been sent. -/
def Spares (c : Conn) (next : UInt32) : Prop :=
  ∀ seg ∈ c.sendWindow, 0 < seg.transmit → next ≤ seg.number

/-- What is acknowledged by its number has been sent. -/
def Sent (c : Conn) (numbers : List UInt32) : Prop :=
  ∀ seg ∈ c.sendWindow, seg.number ∈ numbers → 0 < seg.transmit

/-- An incoming segment does not end the connection, and takes nothing away that has been sent,
unless by its number. -/
def FairSegment (c : Conn) (current elapsed : UInt32) (seg : Segment) : Prop :=
  ¬ Closing (c.inputSegment current elapsed seg).state ∧
    match seg with
    | .data _ => True
    | .ack s => c.Spares s.receivingNext ∧ c.Sent s.numberList
    | .cmdOnly s => c.Spares s.receivingNext

/-- The segments of an `Input`, each for the connection as it finds it. -/
def FairInput (current elapsed : UInt32) : List Segment → Conn → Prop
  | [], _ => True
  | seg :: segments, c => seg.conversation = c.conv →
      c.FairSegment current elapsed seg ∧
        FairInput current elapsed segments (c.inputSegment current elapsed seg)

/-- No counter of a flush wraps around. -/
def NoWrap (c : Conn) : Prop :=
  c.sendWindow.length < 2 ^ 32 ∧ ∀ seg ∈ c.sendWindow, seg.transmit ≠ 0xffffffff

/-- A call that does not end the connection, and takes nothing away that has been sent, unless by
its number. -/
def Fair (c : Conn) : Call → Prop
  | .write _ => True
  | .flush current elapsed => ¬ Closing (c.flush current elapsed).1.state ∧ c.NoWrap
  | .input current elapsed segments =>
    FairInput current elapsed segments { c with lastIncoming := current }

/-- Fair calls one after the other. -/
def FairRun (c : Conn) : List Call → Prop
  | [] => True
  | call :: calls => c.Fair call ∧ (c.exec call).FairRun calls

/-! ### The account -/

/-- The counter is right. -/
def Balanced (c : Conn) : Prop := c.totalInFlightSize.toNat = c.transmitted

/-- What the account depends on, and the state. -/
def flight (c : Conn) : ConnState × List DataSegment × UInt32 :=
  (c.state, c.sendWindow, c.totalInFlightSize)

variable {c c' : Conn} {state : ConnState} {number next : UInt32} {numbers : List UInt32}

theorem flight_eq_iff : c'.flight = c.flight ↔ c'.state = c.state ∧
    c'.sendWindow = c.sendWindow ∧ c'.totalInFlightSize = c.totalInFlightSize := by
  simp only [flight, Prod.mk.injEq]

theorem Balanced.congr (h : c.Balanced) (hflight : c'.flight = c.flight) : c'.Balanced := by
  obtain ⟨-, hwindow, hsize⟩ := flight_eq_iff.mp hflight
  rw [Balanced, hsize, h, transmitted, transmitted, hwindow]

theorem state_setState (elapsed : UInt32) : (c.setState elapsed state).state = state := by
  unfold setState
  split
  · assumption
  · cases state <;> rfl

theorem Ends.eq_of_open {elapsed : UInt32} (h : Ends elapsed c c') (hopen : ¬ Closing c'.state) :
    c' = c := by
  cases h with
  | refl => rfl
  | setState _ hstate => exact absurd (state_setState elapsed ▸ hstate) hopen

/-! ### The parts of `Input` -/

theorem Balanced.processReceivingNext (h : c.Balanced) (hspares : c.Spares next) :
    (c.processReceivingNext next).Balanced := by
  change c.totalInFlightSize.toNat = (c.sendWindow.filter _).countP _
  rw [h, transmitted, countP_filter]
  refine countP_congr fun seg hseg => ?_
  simpa using hspares seg hseg

theorem Balanced.processAck (h : c.Balanced) (hsent : c.Sent [number]) :
    (c.processAck number).1.Balanced := by
  unfold Conn.processAck
  split
  · exact h
  · split
    · next hany =>
      obtain ⟨seg, hmem, hnumber⟩ := any_eq_true.mp hany
      obtain ⟨a, l₁, l₂, -, ha, hwindow, herase⟩ :=
        exists_of_eraseP (p := (·.number = number)) hmem hnumber
      have hpos : 0 < a.transmit :=
        hsent a (hwindow ▸ by simp) (mem_singleton.mpr (by simpa using ha))
      have hsize : c.totalInFlightSize.toNat = (l₁ ++ l₂).countP (0 < ·.transmit) + 1 := by
        rw [h, transmitted, hwindow, countP_append, countP_append, countP_cons_of_pos (by simpa)]
        rfl
      have hzero : 0 < c.totalInFlightSize := by
        rw [UInt32.lt_iff_toNat_lt, hsize]
        exact Nat.succ_pos _
      have hone : 1 ≤ c.totalInFlightSize := by
        rw [UInt32.le_iff_toNat_le, hsize]
        exact Nat.le_add_left ..
      change (if 0 < c.totalInFlightSize then c.totalInFlightSize - 1
        else c.totalInFlightSize).toNat = (c.sendWindow.eraseP _).countP _
      rw [if_pos hzero, UInt32.toNat_sub_of_le _ _ hone, hsize, herase]
      rfl
    · exact h

theorem processAck_keeps (c : Conn) (number : UInt32) :
    (c.processAck number).1.state = c.state ∧
      (c.processAck number).1.sendWindow ⊆ c.sendWindow := by
  unfold processAck
  split
  · exact ⟨rfl, Subset.refl _⟩
  · split
    · exact ⟨rfl, eraseP_subset⟩
    · exact ⟨rfl, Subset.refl _⟩

theorem state_processAcks (numbers : List UInt32) (maxack : UInt32) (removed : Bool) (c : Conn) :
    (processAcks numbers maxack removed c).1.state = c.state := by
  induction numbers generalizing c maxack removed with
  | nil => rfl
  | cons number numbers ih =>
    rw [← (processAck_keeps c number).1]
    unfold processAcks
    dsimp only
    split
    · exact ih ..
    · exact ih ..

theorem Balanced.processAcks {maxack : UInt32} {removed : Bool} (h : c.Balanced)
    (hsent : c.Sent numbers) : (processAcks numbers maxack removed c).1.Balanced := by
  induction numbers generalizing c maxack removed with
  | nil => exact h
  | cons number numbers ih =>
    have hfirst : c.Sent [number] := fun seg hseg hnumber =>
      hsent seg hseg (mem_cons.mpr (.inl (mem_singleton.mp hnumber)))
    have hrest : (c.processAck number).1.Sent numbers := fun seg hseg hnumber =>
      hsent seg ((processAck_keeps c number).2 hseg) (mem_cons_of_mem _ hnumber)
    unfold processAcks
    dsimp only
    split
    · exact ih (h.processAck hfirst) hrest
    · exact ih (h.processAck hfirst) hrest

theorem Balanced.handleFastAck (h : c.Balanced) : (c.handleFastAck number).Balanced := by
  unfold Conn.handleFastAck
  split
  · exact h
  · have hmap (window : List DataSegment) : window.countP (0 < ·.transmit) =
        (window.map (·.transmit)).countP (0 < ·) := by
      rw [countP_map]
      rfl
    change c.totalInFlightSize.toNat = (fastAckLoop ..).countP _
    rw [hmap, map_fastAckLoop (f := (·.transmit)) fun _ _ => rfl, ← hmap]
    exact h

@[simp]
theorem flight_updateRTT (rtt current : UInt32) : (c.updateRTT rtt current).flight = c.flight := by
  unfold updateRTT
  split <;> rfl

@[simp]
theorem flight_updatePeerRTO (rto current : UInt32) :
    (c.updatePeerRTO rto current).flight = c.flight := by
  unfold updatePeerRTO
  split <;> rfl

@[simp]
theorem flight_acceptData (s : DataSegment) : (c.acceptData s).flight = c.flight := by
  unfold acceptData
  split <;> rfl

theorem flight_deliverLoop (n : Nat) : (deliverLoop n c).flight = c.flight := by
  induction n generalizing c with
  | zero => rfl
  | succ n ih =>
    unfold deliverLoop
    split
    · rfl
    · exact ih

theorem state_handleFastAck : (c.handleFastAck number).state = c.state := by
  unfold handleFastAck
  split <;> rfl

/-- What an acknowledgement does to the account. -/
theorem flight_inputAck (c : Conn) (current elapsed : UInt32) (s : AckSegment) :
    ∃ win, ∃ c' : Conn, c' = (processAcks s.numberList 0 false (processReceivingNext
        { c.handleOption elapsed s.option with remoteRecvWin := win } s.receivingNext)).1 ∧
      ((c.inputAck current elapsed s).flight = c'.flight ∨
        ∃ maxack, (c.inputAck current elapsed s).flight = (c'.handleFastAck maxack).flight) := by
  refine ⟨if (c.handleOption elapsed s.option).remoteRecvWin < s.receivingWindow
    then s.receivingWindow else (c.handleOption elapsed s.option).remoteRecvWin, _, rfl, ?_⟩
  unfold inputAck
  dsimp only
  generalize processAcks s.numberList 0 false _ = acked
  split
  · refine .inr ⟨acked.2.1, ?_⟩
    split
    · exact flight_updateRTT ..
    · rfl
  · exact .inl rfl

section Input

variable {current elapsed : UInt32} (h : c.Balanced)
include h

theorem Balanced.inputData {s : DataSegment} (hopen : ¬ Closing (c.inputData elapsed s).state) :
    (c.inputData elapsed s).Balanced := by
  have hflight : (c.inputData elapsed s).flight = (c.handleOption elapsed s.option).flight :=
    (flight_deliverLoop _).trans (flight_acceptData s)
  rw [(flight_eq_iff.mp hflight).1] at hopen
  rw [(Ends.handleOption elapsed s.option).eq_of_open hopen] at hflight
  exact h.congr hflight

theorem Balanced.inputAck {s : AckSegment}
    (hopen : ¬ Closing (c.inputAck current elapsed s).state)
    (hspares : c.Spares s.receivingNext) (hsent : c.Sent s.numberList) :
    (c.inputAck current elapsed s).Balanced := by
  obtain ⟨win, c₁, hc₁, hflight⟩ := flight_inputAck c current elapsed s
  have hstate : (c.inputAck current elapsed s).state = (c.handleOption elapsed s.option).state := by
    have hacked : c₁.state = (c.handleOption elapsed s.option).state := by
      rw [hc₁, state_processAcks]
      rfl
    obtain hflight | ⟨maxack, hflight⟩ := hflight
    · rw [(flight_eq_iff.mp hflight).1, hacked]
    · rw [(flight_eq_iff.mp hflight).1, state_handleFastAck, hacked]
  rw [(Ends.handleOption elapsed s.option).eq_of_open (hstate ▸ hopen)] at hc₁
  have hnext := (@congr _ { c with remoteRecvWin := win } h rfl).processReceivingNext hspares
  have hacks : c₁.Balanced := hc₁ ▸ hnext.processAcks fun seg hseg =>
    hsent seg (mem_of_mem_filter hseg)
  obtain hflight | ⟨maxack, hflight⟩ := hflight
  · exact hacks.congr hflight
  · exact hacks.handleFastAck.congr hflight

theorem Balanced.inputCmdOnly {s : CmdOnlySegment}
    (hopen : ¬ Closing (c.inputCmdOnly current elapsed s).state)
    (hspares : c.Spares s.receivingNext) : (c.inputCmdOnly current elapsed s).Balanced := by
  have hends : Ends elapsed c (if s.cmd = commandTerminate then
      (c.handleOption elapsed s.option).handleTerminate elapsed
      else c.handleOption elapsed s.option) :=
    iteInduction (fun _ => (Ends.handleOption elapsed s.option).handleTerminate)
      fun _ => Ends.handleOption elapsed s.option
  unfold Conn.inputCmdOnly at hopen ⊢
  dsimp only at hopen ⊢
  rw [(flight_eq_iff.mp (flight_updatePeerRTO ..)).1] at hopen
  rw [hends.eq_of_open hopen]
  have hnext := h.processReceivingNext hspares
  exact (hnext.congr rfl).congr (flight_updatePeerRTO ..)

theorem Balanced.inputSegment {seg : Segment} (hfair : c.FairSegment current elapsed seg) :
    (c.inputSegment current elapsed seg).Balanced := by
  obtain ⟨hopen, hseg⟩ := hfair
  cases seg with
  | data s => exact h.inputData hopen
  | ack s => exact h.inputAck hopen hseg.1 hseg.2
  | cmdOnly s => exact h.inputCmdOnly hopen hseg

theorem Balanced.inputLoop {segments : List Segment}
    (hfair : FairInput current elapsed segments c) :
    (inputLoop current elapsed segments c).Balanced := by
  induction segments generalizing c with
  | nil => exact h
  | cons seg segments ih =>
    unfold inputLoop
    split
    · next hconv => exact ih (h.inputSegment (hfair hconv).1) (hfair hconv).2
    · exact h

theorem Balanced.input {segments : List Segment}
    (hfair : FairInput current elapsed segments { c with lastIncoming := current }) :
    (c.input current elapsed segments).Balanced := by
  unfold Conn.input
  split
  · exact h
  · exact Balanced.inputLoop (c := { c with lastIncoming := current }) (h.congr rfl) hfair

end Input

/-! ### The parts of `flush` -/

theorem transmit_stamp {current : UInt32} {seg : DataSegment} (h : seg.transmit ≠ 0xffffffff) :
    0 < (c.stamp current seg).transmit := by
  have hlt := seg.transmit.toNat_lt
  have hne : seg.transmit.toNat ≠ 0xffffffff := fun heq => h (UInt32.toNat_inj.mp heq)
  change 0 < seg.transmit + 1
  rw [UInt32.lt_iff_toNat_lt, UInt32.toNat_add]
  change 0 < (seg.transmit.toNat + 1) % 2 ^ 32
  omega

/-- A segment is counted when it is sent for the first time. -/
theorem total_count {v : SendFlush} {seg : DataSegment}
    (h : ¬ 0 < seg.transmit → v.total.toNat + 1 < 2 ^ 32) :
    (v.count seg).total.toNat + (if 0 < seg.transmit then 1 else 0) = v.total.toNat + 1 := by
  by_cases hzero : seg.transmit = 0
  · have hadd : (v.total + 1).toNat = v.total.toNat + 1 := by
      rw [UInt32.toNat_add]
      exact Nat.mod_eq_of_lt (h (by simp [hzero]))
    simp [SendFlush.count, hzero, hadd]
  · have hpos : 0 < seg.transmit := UInt32.pos_iff_ne_zero.mpr hzero
    simp [SendFlush.count, hzero, hpos]

theorem countP_transmit_cons (seg : DataSegment) (rest : List DataSegment) :
    (seg :: rest).countP (0 < ·.transmit) =
      rest.countP (0 < ·.transmit) + if 0 < seg.transmit then 1 else 0 := by
  simp only [countP_cons, decide_eq_true_eq]

/-- The loop counts the segments that it sends for the first time. -/
theorem total_flushSendLoop (c : Conn) (current cwnd : UInt32) {v : SendFlush}
    {window : List DataSegment} (hwrap : ∀ seg ∈ window, seg.transmit ≠ 0xffffffff)
    (hbound : v.total.toNat + window.length < 2 ^ 32 + window.countP (0 < ·.transmit)) :
    (c.flushSendLoop current cwnd v window).2.2.total.toNat + window.countP (0 < ·.transmit) =
      v.total.toNat + (c.flushSendLoop current cwnd v window).1.countP (0 < ·.transmit) := by
  induction window generalizing v with
  | nil => rfl
  | cons seg rest ih =>
    obtain ⟨hseg, hrest⟩ := forall_mem_cons.mp hwrap
    have hle : rest.countP (0 < ·.transmit) ≤ rest.length := countP_le_length
    rw [countP_transmit_cons, length_cons] at hbound
    rw [countP_transmit_cons]
    unfold flushSendLoop
    split
    · have hstep := ih (v := v) hrest (by split at hbound <;> omega)
      change (c.flushSendLoop current cwnd v rest).2.2.total.toNat + _ = _ + (seg :: _).countP _
      rw [countP_transmit_cons]
      omega
    · have hcount : (v.count seg).total.toNat + (if 0 < seg.transmit then 1 else 0) =
          v.total.toNat + 1 := total_count fun hzero => by
        rw [if_neg hzero] at hbound
        omega
      have hstamped : 0 < (c.stamp current seg).transmit := transmit_stamp hseg
      dsimp only
      split
      · rw [countP_transmit_cons, if_pos hstamped]
        dsimp only
        omega
      · have hstep := ih (v := v.count seg) hrest (by omega)
        change (c.flushSendLoop current cwnd (v.count seg) rest).2.2.total.toNat + _ =
          _ + (c.stamp current seg :: _).countP _
        rw [countP_transmit_cons, if_pos hstamped]
        omega

@[simp]
theorem flight_onPacketLoss (lossRate : UInt32) : (c.onPacketLoss lossRate).flight = c.flight := by
  unfold onPacketLoss
  split <;> rfl

theorem flight_flushAcks (current : UInt32) : (c.flushAcks current).1.flight = c.flight := by
  unfold flushAcks
  split
  · rfl
  · dsimp only
    split <;> rfl

/-- What the loop leaves is what the account depends on. -/
theorem flight_flushSend (current : UInt32) (h : c.sendWindow ≠ []) :
    (c.flushSend current).1.flight = (c.state,
      (c.flushSendLoop current c.flushWindow ⟨c.totalInFlightSize, 0, 0⟩ c.sendWindow).1,
      (c.flushSendLoop current c.flushWindow ⟨c.totalInFlightSize, 0, 0⟩ c.sendWindow).2.2.total) := by
  rw [flushSend, if_neg h]
  dsimp only
  split
  · exact flight_onPacketLoss ..
  · rfl

theorem state_flushSend (current : UInt32) : (c.flushSend current).1.state = c.state := by
  by_cases hwindow : c.sendWindow = []
  · rw [flushSend, if_pos hwindow]
    split <;> rfl
  · exact congrArg Prod.fst (flight_flushSend current hwindow)

theorem Balanced.flushSend (h : c.Balanced) (hwrap : c.NoWrap) (current : UInt32) :
    (c.flushSend current).1.Balanced := by
  by_cases hwindow : c.sendWindow = []
  · rw [Conn.flushSend, if_pos hwindow]
    split
    · exact h.congr rfl
    · exact h
  · have hflight := flight_flushSend current hwindow
    simp only [flight, Prod.mk.injEq] at hflight
    obtain ⟨-, hsent, hsize⟩ := hflight
    have hsum : c.totalInFlightSize.toNat = c.sendWindow.countP (0 < ·.transmit) := h
    have htotal := c.total_flushSendLoop current c.flushWindow
      (v := ⟨c.totalInFlightSize, 0, 0⟩) hwrap.2 (by
        have hlength := hwrap.1
        dsimp only
        omega)
    dsimp only at htotal
    rw [Balanced, hsize, transmitted, hsent]
    omega

theorem Balanced.flushOpen {current elapsed : UInt32} (h : c.Balanced)
    (hopen : ¬ Closing (c.flushOpen current elapsed).1.state) (hwrap : c.NoWrap) :
    (c.flushOpen current elapsed).1.Balanced := by
  obtain ⟨c₂, hends, heq⟩ := c.flushOpen_eq current elapsed
  rw [heq] at hopen ⊢
  have hflight := flight_flushAcks (c := c₂) current
  generalize c₂.flushAcks current = acks at *
  obtain ⟨hstate, hwindow, -⟩ := flight_eq_iff.mp hflight
  have hsend := (state_flushSend (c := acks.1) current).trans hstate
  dsimp only at hopen ⊢
  obtain rfl : c₂ = c := hends.eq_of_open (by split at hopen <;> exact hsend ▸ hopen)
  have hb := (h.congr hflight).flushSend (by rwa [NoWrap, hwindow]) current
  split
  · exact hb.congr rfl
  · exact hb

theorem Balanced.flush {current elapsed : UInt32} (h : c.Balanced)
    (hopen : ¬ Closing (c.flush current elapsed).1.state) (hwrap : c.NoWrap) :
    (c.flush current elapsed).1.Balanced := by
  have hterminated : c.state ≠ .terminated := by
    intro hterminated
    rw [Conn.flush, if_pos hterminated, hterminated] at hopen
    exact hopen trivial
  rw [Conn.flush, if_neg hterminated] at hopen ⊢
  -- becoming ready to close leaves the account as it is
  have hready : ∃ c₁, (if c.state = .active ∧ 30000 ≤ current - c.lastIncoming then
      c.setState elapsed .readyToClose else c) = c₁ ∧ c₁.Balanced ∧ c₁.NoWrap := by
    refine ⟨_, rfl, ?_⟩
    split
    · next hactive =>
      rw [setState, if_neg (by rw [hactive.1]; decide)]
      exact ⟨h, hwrap⟩
    · exact ⟨h, hwrap⟩
  obtain ⟨c₁, hc₁, hb, hwrap⟩ := hready
  rw [hc₁] at hopen ⊢
  dsimp only at hopen ⊢
  generalize hc₂ : (if c₁.state = .readyToClose ∧ c₁.sendWindow = [] then
    c₁.setState elapsed .terminating else c₁) = c₂ at *
  have hend : c₂.state ≠ .terminating := by
    intro hend
    rw [if_pos hend] at hopen
    split at hopen
    · exact hopen (state_setState elapsed ▸ trivial)
    · exact hopen (hend ▸ trivial)
  rw [if_neg hend] at hopen ⊢
  obtain rfl : c₂ = c₁ := by
    rw [← hc₂] at hend ⊢
    split at hend
    · exact absurd (state_setState elapsed) hend
    · next hidle => exact if_neg hidle
  exact hb.flushOpen hopen hwrap

/-! ### Runs -/

theorem Balanced.write {b payload : GoString} (h : c.Balanced)
    (hwrite : c.write b = some (c', payload)) : c'.Balanced := by
  unfold Conn.write at hwrite
  split at hwrite
  · cases hwrite
    change c.totalInFlightSize.toNat = (c.sendWindow ++ [_]).countP _
    rw [h, countP_append]
    rfl
  · cases hwrite

theorem Balanced.exec {call : Call} (h : c.Balanced) (hfair : c.Fair call) :
    (c.exec call).Balanced := by
  cases call with
  | write b =>
    change ((c.write b).map Prod.fst |>.getD c).Balanced
    cases hwrite : c.write b with
    | none => exact h
    | some written => exact h.write hwrite
  | flush current elapsed => exact h.flush hfair.1 hfair.2
  | input current elapsed segments => exact h.input hfair

theorem Balanced.run {calls : List Call} (h : c.Balanced) (hfair : c.FairRun calls) :
    (c.run calls).Balanced := by
  induction calls generalizing c with
  | nil => exact h
  | cons call calls ih => exact ih (h.exec hfair.1) hfair.2

theorem balanced_newConn {cfg : Config} {conv : UInt16} {overhead : Nat}
    (h : newConn cfg conv overhead = some c) : c.Balanced := by
  unfold newConn at h
  split at h
  · cases h
  · cases h
    rfl

end Conn

/-- As long as the connection has not ended, nothing but an acknowledgement by number takes away a
segment that has been sent, and only what has been sent is acknowledged by number,
`totalInFlightSize` is the number of segments in the window that have been sent. -/
theorem inFlight_exact {cfg : Config} {conv : UInt16} {overhead : Nat} {c : Conn}
    (hnew : newConn cfg conv overhead = some c) {calls : List Call} (hfair : c.FairRun calls) :
    (c.run calls).totalInFlightSize.toNat = (c.run calls).transmitted :=
  (balanced_newConn hnew).run hfair

/-- Two segments are sent, and the second one is acknowledged while the first one is missing. -/
def overtaken : List Call :=
  [.write [1], .write [2], .flush 0 0, .input 10 10 [.ack ⟨7, 0, 777, 0, 0, [1]⟩]]

theorem inFlight_overtaken : (exampleConn.run overtaken).transmitted = 1 ∧
    (exampleConn.run overtaken).totalInFlightSize.toNat = (exampleConn.run overtaken).transmitted :=
  ⟨by decide, @inFlight_exact exampleConn.cfg 7 0 exampleConn rfl overtaken
    ⟨trivial, trivial, ⟨by decide, by unfold NoWrap; decide⟩,
      fun _ => ⟨⟨by decide, by unfold Spares; decide, by unfold Sent; decide⟩, trivial⟩, trivial⟩⟩

/-- A segment is sent and acknowledged cumulatively: it is gone, and still counted. -/
theorem inFlight_one_of_none : newConn exampleConn.cfg 7 0 = some exampleConn ∧
    ∃ c, c = exampleConn.run
        [.write [0], .flush 0 0, .input 0 0 [.cmdOnly ⟨7, commandPing, 0, 0, 1, 0⟩]] ∧
      c.totalInFlightSize = 1 ∧ c.transmitted = 0 :=
  ⟨rfl, _, rfl, by decide, by decide⟩

end Hako.Mkcp
