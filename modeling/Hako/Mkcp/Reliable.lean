import Hako.Lib.Link
import Hako.Mkcp.Conn

/-!
# The byte stream of mKCP

Two mKCP connections of one conversation, over a network that may lose, duplicate, delay and
reorder datagrams. The mutex sections are the steps. `flush` is called by one goroutine, which
writes its segments before it flushes again, so what it sends is what the segments are when it
holds the mutex. A datagram carries one segment; it stays on the wire once sent and can be
received any number of times. A datagram above 64 KiB never arrives: readers have buffers of
that size, and the authenticator refuses a datagram that has been cut off.

Each direction refines a reliable link.
-/

namespace Hako.Mkcp

open GoLib Lib List Option Function Conn

/-- A connection, the bytes that `Read` has returned, the payloads that `Write` has accepted,
and the segments sent. -/
structure Endpoint where
  conn : Conn
  consumed : GoString
  sent : List GoString
  wire : List Segment

/-- The mutex sections. -/
inductive Act where
  /-- A round of `Write` with `b` the bytes still to be written. -/
  | write (b : GoString)
  | read (n : Nat)
  | close (elapsed : UInt32)
  | flush (current elapsed : UInt32)
  | input (seg : Segment) (current elapsed : UInt32)

/-- The readers' buffers. -/
def datagramSize : Nat := 64 * 1024

namespace Endpoint

def start (conn : Conn) : Endpoint := { conn, consumed := [], sent := [], wire := [] }

/-- One section. `peer` is what the other endpoint has sent. -/
def step (e : Endpoint) (peer : List Segment) : Act → Option Endpoint
  | .write b =>
    (e.conn.write b).map fun (conn, payload) => { e with conn, sent := e.sent ++ [payload] }
  | .read n =>
    let (conn, bytes) := e.conn.read n
    some { e with conn, consumed := e.consumed ++ bytes }
  | .close elapsed => (e.conn.close elapsed).map fun conn => { e with conn }
  | .flush current elapsed =>
    let (conn, segments) := e.conn.flush current elapsed
    let arriving := segments.filter (·.byteSize ≤ datagramSize)
    some { e with conn, wire := e.wire ++ arriving.map Segment.onWire }
  | .input seg current elapsed =>
    if seg ∈ peer then some { e with conn := e.conn.input current elapsed [seg] } else none

end Endpoint

/-- The two endpoints. -/
abbrev System := Bool → Endpoint

namespace System

/-- One section of one endpoint. -/
abbrev Step : System → System → Prop := Duplex.Step Endpoint.step Endpoint.wire

/-- Both endpoints are new connections of one conversation. -/
def Starts (conv : UInt16) (s : System) : Prop :=
  ∀ side, ∃ cfg overhead conn, newConn cfg conv overhead = some conn ∧ s side = .start conn

/-- A run given by the sides and sections of its steps. -/
abbrev run : System → List (Bool × Act) → Option System := Duplex.run Endpoint.step Endpoint.wire

end System

/-! ### The link of one direction -/

/-- An endpoint without what reliability does not rest on. -/
structure Side where
  view : View
  consumed : GoString
  sent : List GoString
  wire : List Segment

def Endpoint.side (e : Endpoint) : Side := ⟨e.conn.view, e.consumed, e.sent, e.wire⟩

/-- The payloads from `S` to `R`. -/
def link (S R : Side) : Link GoString where
  sent := S.sent
  delivered := S.sent.take R.view.recvNext.toNat
  held := {i | i < 2 ^ 31 ∧ ∃ w ∈ R.view.cache, w.1 = UInt32.ofNat i}

/-- A cumulative acknowledgement of payloads that have been delivered. -/
def Cumulative (L : Link GoString) (next : UInt32) : Prop :=
  ∃ n, next = UInt32.ofNat n ∧ n ≤ L.delivered.length

/-- A segment carries what was written and acknowledges what has arrived. `L` is the link of
its direction, `M` that of the other. -/
def Sound (L M : Link GoString) : Segment → Prop
  | .data s => L.Numbered s.number s.payload
  | .ack s => Cumulative M s.receivingNext ∧ ∀ n ∈ s.numberList, M.Acked n
  | .cmdOnly s => Cumulative M s.receivingNext

/-- What holds for the payloads from `S` to `R`, where `L` is their link and `M` the link of the
other direction. -/
structure Flow (L M : Link GoString) (S R : Side) : Prop where
  safe : L.Safe
  bound : L.sent.length < 2 ^ 31
  sendNext : S.view.sendNext = UInt32.ofNat S.sent.length
  recvNext_le : R.view.recvNext.toNat ≤ S.sent.length
  stream : R.consumed ++ R.view.readBuf = (S.sent.take R.view.recvNext.toNat).flatten
  window : ∀ w ∈ S.view.window, L.Numbered w.1 w.2
  /-- While the connection is open, a payload stays in the window until it has arrived. -/
  kept : S.view.alive → ∀ i < S.sent.length,
    (∃ w ∈ S.view.window, w.1 = UInt32.ofNat i) ∨ L.Accepted i
  flight : ∀ s ∈ S.wire, Sound L M s
  cache : ∀ w ∈ R.view.cache, L.Numbered w.1 w.2
  acks : ∀ a ∈ R.view.acks, L.Acked a

section

variable {L L' M M' : Link GoString} {S R : Side}

theorem Cumulative.mono {next : UInt32} (h : Cumulative L next) (hL : L.Extends L') :
    Cumulative L' next :=
  h.imp fun _ hn => ⟨hn.1, le_trans hn.2 hL.delivered_length_le⟩

theorem Sound.mono {s : Segment} (h : Sound L M s) (hL : L.Extends L') (hM : M.Extends M') :
    Sound L' M' s := by
  cases s with
  | data s => exact Link.Numbered.mono h hL
  | ack s => exact ⟨h.1.mono hM, fun n hn => (h.2 n hn).mono hM⟩
  | cmdOnly s => exact Cumulative.mono h hM

theorem Sound.onWire {s : Segment} (h : Sound L M s) : Sound L M s.onWire := by
  cases s <;> exact h

theorem Flow.mono (h : Flow L M S R) (hL : L.Extends L') (hM : M.Extends M')
    (hbound : L'.sent.length < 2 ^ 31) : Flow L' M' S R :=
  { h with
    safe := hL.safe h.safe
    bound := hbound
    window := fun w hw => (h.window w hw).mono hL
    kept := fun ha i hi => (h.kept ha i hi).imp_right hL.accepted
    flight := fun s hs => (h.flight s hs).mono hL hM
    cache := fun w hw => (h.cache w hw).mono hL
    acks := fun a ha => (h.acks a ha).mono hL }

end

/-- Both directions between `e` and `f`, which have come from the links `L` and `M`. -/
structure Pair (L M : Link GoString) (e f : Side) : Prop where
  out : Flow (link e f) (link f e) e f
  back : Flow (link f e) (link e f) f e
  out_extends : L.Extends (link e f)
  back_extends : M.Extends (link f e)

namespace Pair

variable {L M : Link GoString} {e f : Side} {v : View}

theorem symm (h : Pair L M e f) : Pair M L f e := ⟨h.back, h.out, h.back_extends, h.out_extends⟩

/-! ### Changes of the view -/

theorem fades (h : Pair L M e f) (hv : e.view.Fades v) : Pair L M { e with view := v } f := by
  rcases hv with rfl | rfl
  · exact h
  · refine ⟨?_, ?_, h.out_extends, h.back_extends⟩
    · exact { h.out with
        window := fun w hw => absurd hw (not_mem_nil)
        kept := fun ha => absurd ha Bool.false_ne_true }
    · exact { h.back with }

section

variable (h : Pair L M { e with view := v } f)
include h

theorem filterAcks (p : UInt32 → Bool) :
    Pair L M { e with view := { v with acks := v.acks.filter p } } f := by
  refine ⟨{ h.out with }, ?_, h.out_extends, h.back_extends⟩
  exact { h.back with acks := fun a ha => h.back.acks a (mem_of_mem_filter ha) }

/-- Segments leave the window, if their payloads have arrived. -/
theorem shrinkWindow {window : List (UInt32 × GoString)} (hsub : window ⊆ v.window)
    (harrived : ∀ w ∈ v.window, w ∈ window ∨ (link { e with view := v } f).Acked w.1) :
    Pair L M { e with view := { v with window } } f := by
  refine ⟨?_, { h.back with }, h.out_extends, h.back_extends⟩
  refine { h.out with
    window := fun w hw => h.out.window w (hsub hw), kept := fun ha i hi => ?_ }
  rcases h.out.kept ha i hi with ⟨w, hw, hwi⟩ | hacc
  · rcases harrived w hw with hin | hacked
    · exact .inl ⟨w, hin, hwi⟩
    · exact .inr ((hwi ▸ hacked).accepted h.out.safe h.out.bound (lt_trans hi h.out.bound))
  · exact .inr hacc

/-- A cumulative acknowledgement. -/
theorem receivingNext {next : UInt32} (hnext : Cumulative L next) :
    Pair L M { e with view := { v with window := v.window.filter (next ≤ ·.1) } } f := by
  refine h.shrinkWindow filter_sublist.subset fun w hw => ?_
  by_cases hle : next ≤ w.1
  · exact .inl (mem_filter.mpr ⟨hw, by simpa using hle⟩)
  · obtain ⟨n, rfl, hn⟩ := hnext.mono h.out_extends
    obtain ⟨i, hi, hc⟩ := h.out.window w hw
    -- both numbers are below `2 ^ 31`, so they compare as words do
    have hin : i < n := by
      have hnb : n < 2 ^ 31 := lt_of_le_of_lt
        (le_trans hn h.out.safe.delivered_prefix.length_le) h.out.bound
      rw [← ofNat_lt_ofNat_iff (lt_trans hc.lt h.out.bound) hnb, ← hi]
      simpa using hle
    exact .inr ⟨i, hi, .inl (lt_of_lt_of_le hin hn)⟩

variable {number : UInt32} {payload : GoString}

/-- An acknowledgement of one segment. -/
theorem ackOne (ha : L.Acked number) :
    Pair L M { e with view := { v with window := v.window.eraseP (·.1 = number) } } f := by
  refine h.shrinkWindow eraseP_subset fun w hw => ?_
  by_cases hnum : w.1 = number
  · exact .inr (hnum ▸ ha.mono h.out_extends)
  · exact .inl ((mem_eraseP_of_neg (by simpa using hnum)).mpr hw)

/-- A segment is put into the cache. -/
theorem hold (hn : M.Numbered number payload) :
    Pair L M { e with view := { v with cache := v.cache ++ [(number, payload)] } } f := by
  obtain ⟨i, rfl, hc⟩ := hn.mono h.back_extends
  have hlt : i < 2 ^ 31 := lt_trans hc.lt h.back.bound
  have hlink : link f { e with view := { v with cache := v.cache ++ [(UInt32.ofNat i, payload)] } } =
      { link f { e with view := v } with
        held := insert i (link f { e with view := v }).held } := by
    simp only [link, Link.mk.injEq, true_and]
    ext j
    simp only [Set.mem_ofPred_eq, Set.mem_insert_iff, mem_append, mem_singleton]
    constructor
    · rintro ⟨hj, w, hw | rfl, hwj⟩
      · exact .inr ⟨hj, w, hw, hwj⟩
      · exact .inl (ofNat_inj_of_lt hj hlt hwj.symm)
    · rintro (rfl | ⟨hj, w, hw, hwj⟩)
      · exact ⟨hlt, _, .inr rfl, rfl⟩
      · exact ⟨hj, w, .inl hw, hwj⟩
  have hext : (link f { e with view := v }).Extends
      (link f { e with view := { v with cache := v.cache ++ [(UInt32.ofNat i, payload)] } }) := by
    rw [hlink]
    exact .single (.hold _ i hc.lt)
  refine ⟨{ h.out.mono .refl hext h.out.bound with }, ?_, h.out_extends, h.back_extends.trans hext⟩
  exact { h.back.mono hext .refl h.back.bound with
    cache := forall_mem_append.mpr ⟨fun w hw => (h.back.cache w hw).mono hext,
      forall_mem_singleton.mpr ⟨i, rfl, hext.carries hc⟩⟩ }

theorem pushAck (ha : (link f { e with view := v }).Acked number) :
    Pair L M { e with view := { v with acks := v.acks ++ [number] } } f := by
  refine ⟨{ h.out with }, ?_, h.out_extends, h.back_extends⟩
  exact { h.back with
    acks := forall_mem_append.mpr ⟨h.back.acks, forall_mem_singleton.mpr ha⟩ }

/-- The next payload is taken from the cache. -/
theorem deliverNext (hin : (v.recvNext, payload) ∈ v.cache) :
    Pair L M { e with
        view := { v with
          cache := v.cache.filter (·.1 ≠ v.recvNext)
          recvNext := v.recvNext + 1
          readBuf := v.readBuf ++ payload } } f := by
  have hn : v.recvNext = UInt32.ofNat v.recvNext.toNat := UInt32.ofNat_toNat.symm
  have hlt : v.recvNext.toNat < 2 ^ 31 := lt_of_le_of_lt h.back.recvNext_le h.back.bound
  have hcarries : f.sent[v.recvNext.toNat]? = some payload :=
    (hn ▸ h.back.cache _ hin).carries h.back.bound hlt
  have hsucc : (v.recvNext + 1).toNat = v.recvNext.toNat + 1 := by
    rw [UInt32.toNat_add]
    exact Nat.mod_eq_of_lt (by change _ + 1 < _; omega)
  have htake : f.sent.take (v.recvNext + 1).toNat = f.sent.take v.recvNext.toNat ++ [payload] := by
    rw [hsucc, take_add_one, hcarries]
    rfl
  have hlen : (f.sent.take v.recvNext.toNat).length = v.recvNext.toNat :=
    length_take_of_le h.back.recvNext_le
  have hext : (link f { e with view := v }).Extends
      (link f { e with view := { v with
        cache := v.cache.filter (·.1 ≠ v.recvNext), recvNext := v.recvNext + 1,
        readBuf := v.readBuf ++ payload } }) := by
    have hstep := Link.Step.deliver (link f { e with view := v }) payload
      {i | i < 2 ^ 31 ∧ ∃ w ∈ v.cache.filter (·.1 ≠ v.recvNext), w.1 = UInt32.ofNat i}
      (by rw [Link.Carries, ← hcarries]; exact congrArg (f.sent[·]?) hlen)
      (by
        rintro i ⟨hi, w, hw, hwi⟩
        exact ⟨hi, w, mem_of_mem_filter hw, hwi⟩)
      (by
        rintro i ⟨hi, w, hw, hwi⟩
        by_cases hnext : w.1 = v.recvNext
        · refine .inr (ofNat_inj_of_lt hi (hlen ▸ hlt) ?_)
          rw [← hwi, hnext]
          exact hn.trans (congrArg UInt32.ofNat hlen.symm)
        · exact .inl ⟨hi, w, mem_filter.mpr ⟨hw, by simpa using hnext⟩, hwi⟩)
    refine .single ?_
    simp only [link, htake] at hstep ⊢
    exact hstep
  refine ⟨{ h.out.mono .refl hext h.out.bound with }, ?_, h.out_extends, h.back_extends.trans hext⟩
  refine { h.back.mono hext .refl h.back.bound with
    recvNext_le := ?_, stream := ?_
    cache := fun w hw => (h.back.cache w (mem_of_mem_filter hw)).mono hext }
  · change (v.recvNext + 1).toNat ≤ f.sent.length
    rw [hsucc]
    exact (List.getElem?_eq_some_iff.mp hcarries).1
  · change e.consumed ++ (v.readBuf ++ payload) = (f.sent.take (v.recvNext + 1).toNat).flatten
    rw [htake, ← append_assoc, flatten_append, ← h.back.stream]
    simp

end

/-! ### Input -/

variable {c : Conn}

theorem deliverLoop (n : Nat) (h : Pair L M { e with view := c.view } f) :
    Pair L M { e with view := (deliverLoop n c).view } f := by
  induction n generalizing c with
  | zero => exact h
  | succ n ih =>
    unfold deliverLoop
    split
    · exact h
    · rename_i seg hseg
      obtain ⟨hmem, hnum⟩ := cached_eq_some hseg
      apply ih
      rw [view_deliverNext]
      refine h.deliverNext (mem_map.mpr ⟨seg, hmem, ?_⟩)
      exact Prod.ext hnum rfl

section

variable (h : Pair L M { e with view := c.view } f)
include h

theorem acceptData {s : DataSegment} (hs : M.Numbered s.number s.payload) :
    Pair L M { e with view := (c.acceptData s).view } f := by
  rcases c.view_acceptData s with hview | hview
  · rwa [hview]
  rw [hview]
  -- the number is acknowledged because it is in the cache, already or from now on
  split
  · rename_i hcached
    obtain ⟨seg, hseg⟩ := isSome_iff_exists.mp hcached
    obtain ⟨hmem, hnum⟩ := cached_eq_some hseg
    obtain ⟨i, hi, hc⟩ := hs.mono h.back_extends
    refine h.pushAck ⟨i, hi, .inr ⟨lt_trans hc.lt h.back.bound, seg.numbered, ?_, ?_⟩⟩
    · exact mem_map_of_mem hmem
    · exact hnum.trans hi
  · have hheld := h.hold hs
    obtain ⟨i, hi, hc⟩ := hs.mono h.back_extends
    refine hheld.pushAck ⟨i, hi, .inr ⟨lt_trans hc.lt h.back.bound, (s.number, s.payload), ?_, hi⟩⟩
    exact mem_append_right _ (mem_singleton_self _)

theorem inputData (elapsed : UInt32) {s : DataSegment} (hs : M.Numbered s.number s.payload) :
    Pair L M { e with view := (c.inputData elapsed s).view } f := by
  refine deliverLoop _ (acceptData ?_ hs)
  rw [view_processSendingNext]
  exact (h.fades (Ends.handleOption elapsed s.option).fades).filterAcks (s.sendingNext ≤ ·)

theorem processAcks {numbers : List UInt32}
    (hn : ∀ n ∈ numbers, L.Acked n) (maxack : UInt32) (removed : Bool) :
    Pair L M { e with view := (processAcks numbers maxack removed c).1.view } f := by
  induction numbers generalizing c maxack removed with
  | nil => exact h
  | cons number numbers ih =>
    have hone : Pair L M { e with view := (c.processAck number).1.view } f := by
      rcases c.view_processAck number with hview | hview
      · rwa [hview]
      · rw [hview]
        exact h.ackOne (hn number (mem_cons_self ..))
    have hrest : ∀ n ∈ numbers, L.Acked n := fun n hin => hn n (mem_cons_of_mem _ hin)
    unfold processAcks
    dsimp only
    split
    · exact ih hone hrest _ _
    · exact ih hone hrest _ _

section

variable (current elapsed : UInt32)
include current

theorem inputAck
    {s : AckSegment} (hnext : Cumulative L s.receivingNext) (hn : ∀ n ∈ s.numberList, L.Acked n) :
    Pair L M { e with view := (c.inputAck current elapsed s).view } f := by
  have h₁ := (h.fades (Ends.handleOption elapsed s.option).fades).receivingNext hnext
  unfold Conn.inputAck
  dsimp only
  generalize hc : processReceivingNext _ s.receivingNext = c₁
  have h₂ : Pair L M { e with view := c₁.view } f := by
    rw [← hc, view_processReceivingNext]
    exact h₁
  have h₃ := h₂.processAcks hn 0 false
  split
  · split
    · rwa [view_updateRTT, view_handleFastAck]
    · rwa [view_handleFastAck]
  · exact h₃

theorem inputCmdOnly {s : CmdOnlySegment} (hnext : Cumulative L s.receivingNext) :
    Pair L M { e with view := (c.inputCmdOnly current elapsed s).view } f := by
  have h₁ := h.fades (Ends.handleOption elapsed s.option).fades
  unfold Conn.inputCmdOnly
  rw [view_updatePeerRTO, view_processSendingNext, view_processReceivingNext]
  refine Pair.filterAcks ?_ _
  refine Pair.receivingNext ?_ hnext
  split
  · exact h₁.fades Ends.refl.handleTerminate.fades
  · exact h₁

theorem inputSegment {seg : Segment} (hseg : Sound M L seg) :
    Pair L M { e with view := (c.inputSegment current elapsed seg).view } f := by
  cases seg with
  | data s => exact h.inputData elapsed hseg
  | ack s => exact h.inputAck current elapsed hseg.1 hseg.2
  | cmdOnly s => exact h.inputCmdOnly current elapsed hseg

variable {segments : List Segment}

variable (hs : ∀ s ∈ segments, Sound M L s)
include hs

theorem inputLoop :
    Pair L M { e with view := (inputLoop current elapsed segments c).view } f := by
  induction segments generalizing c with
  | nil => exact h
  | cons seg segments ih =>
    unfold inputLoop
    split
    · refine ih (h.inputSegment current elapsed (hs seg (mem_cons_self ..))) fun s hin => ?_
      exact hs s (mem_cons_of_mem _ hin)
    · exact h

theorem input : Pair L M { e with view := (c.input current elapsed segments).view } f := by
  have hstamped : Pair L M { e with view := view { c with lastIncoming := current } } f := h
  unfold Conn.input
  split
  · exact h
  · exact hstamped.inputLoop current elapsed hs

end

end

/-! ### Write, read and flush -/

/-- A payload is accepted. -/
theorem accept (h : Pair L M { e with view := v } f) (payload : GoString)
    (hb : e.sent.length + 1 < 2 ^ 31) :
    Pair L M
      { e with
        view := { v with
          sendNext := v.sendNext + 1, window := v.window ++ [(v.sendNext, payload)] }
        sent := e.sent ++ [payload] } f := by
  have hnext : v.sendNext = UInt32.ofNat e.sent.length := h.out.sendNext
  have htake : (e.sent ++ [payload]).take f.view.recvNext.toNat =
      e.sent.take f.view.recvNext.toNat := take_append_of_le_length h.out.recvNext_le
  have hlink : link { e with
        view := { v with
          sendNext := v.sendNext + 1, window := v.window ++ [(v.sendNext, payload)] }
        sent := e.sent ++ [payload] } f =
      { link { e with view := v } f with sent := e.sent ++ [payload] } := by
    simp only [link, htake]
  have hext : (link { e with view := v } f).Extends
      { link { e with view := v } f with sent := e.sent ++ [payload] } := .single (.send _ payload)
  have hout := h.out.mono hext .refl (by simpa using hb)
  have hback := h.back.mono .refl hext h.back.bound
  refine ⟨?_, ?_, ?_, h.back_extends⟩ <;> rw [hlink]
  · refine { hout with
      sendNext := ?_, recvNext_le := ?_, stream := ?_
      window := forall_mem_append.mpr ⟨hout.window, forall_mem_singleton.mpr
        ⟨e.sent.length, hnext, by simp [Link.Carries]⟩⟩
      kept := fun ha i hi => ?_ }
    · change v.sendNext + 1 = UInt32.ofNat (e.sent ++ [payload]).length
      rw [length_append, length_singleton, ofNat_succ, hnext]
    · exact le_trans h.out.recvNext_le (by simp)
    · exact h.out.stream.trans (congrArg flatten htake.symm)
    · rcases Nat.lt_or_ge i e.sent.length with hlt | hge
      · refine (hout.kept ha i hlt).imp_left ?_
        rintro ⟨w, hw, hwi⟩
        exact ⟨w, mem_append_left _ hw, hwi⟩
      · -- the new payload is the last one
        have hi : i = e.sent.length := by simp at hi; omega
        refine .inl ⟨(v.sendNext, payload), ?_, hi ▸ hnext⟩
        exact mem_append_right _ (mem_singleton_self _)
  · exact { hback with }
  · exact h.out_extends.trans hext

section

variable (h : Pair L M { e with view := c.view } f)
include h

variable {c' : Conn}

theorem write {b payload : GoString}
    (hw : c.write b = some (c', payload)) (hb : e.sent.length + 1 < 2 ^ 31) :
    Pair L M { e with view := c'.view, sent := e.sent ++ [payload] } f := by
  simp only [Conn.write, ite_none_right_eq_some, some.injEq, Prod.mk.injEq] at hw
  obtain ⟨-, rfl, rfl⟩ := hw
  have haccept := h.accept (b.take c.mss) hb
  simpa [view, DataSegment.numbered] using haccept

theorem read (n : Nat) :
    Pair L M { e with view := (c.read n).1.view, consumed := e.consumed ++ (c.read n).2 } f := by
  refine ⟨{ h.out with }, ?_, h.out_extends, h.back_extends⟩
  refine { h.back with stream := ?_ }
  have hstream : e.consumed ++ c.readBuf = (f.sent.take c.recvNext.toNat).flatten := h.back.stream
  change (e.consumed ++ c.readBuf.take n) ++ c.readBuf.drop n = _
  rw [append_assoc, take_append_drop]
  exact hstream

omit h in
theorem emit (h : Pair L M { e with view := v } f) (segments : List Segment)
    (hs : ∀ s ∈ segments, v.Emits s) :
    Pair L M { e with view := v, wire := e.wire ++ segments.map Segment.onWire } f := by
  refine ⟨?_, { h.back with }, h.out_extends, h.back_extends⟩
  refine { h.out with flight := fun s hin => ?_ }
  rcases mem_append.mp hin with hin | hin
  · exact h.out.flight s hin
  obtain ⟨q, hq, rfl⟩ := mem_map.mp hin
  have hemits := hs q hq
  refine Sound.onWire ?_
  have hcum : Cumulative (link f { e with view := v }) v.recvNext := by
    refine ⟨v.recvNext.toNat, UInt32.ofNat_toNat.symm, ?_⟩
    exact le_of_eq (length_take_of_le h.back.recvNext_le).symm
  cases q with
  | data s => exact h.out.window s.numbered hemits
  | ack s => exact ⟨hemits.1 ▸ hcum, fun n hn => h.back.acks n (hemits.2 n hn)⟩
  | cmdOnly s =>
    have hnext : s.receivingNext = v.recvNext := hemits
    exact (show Cumulative _ s.receivingNext from hnext ▸ hcum)

/-! ### Steps and runs -/

theorem close {elapsed : UInt32}
    (hc : c.close elapsed = some c') : Pair L M { e with view := c'.view } f := by
  unfold Conn.close at hc
  split at hc
  · cases hc
  · cases hc
  · cases hc
  · rename_i hstate
    obtain rfl := some.inj hc
    rwa [view_setState_readyToClose elapsed hstate]
  · obtain rfl := some.inj hc
    exact h.fades (c.fades_setState elapsed trivial)
  · obtain rfl := some.inj hc
    exact h.fades (c.fades_setState elapsed trivial)

end

theorem step {e e' f : Endpoint} (h : Pair L M e.side f.side)
    (hwire : ∀ s ∈ f.wire, Sound M L s) {act : Act} (hs : e.step f.wire act = some e')
    (hb : e'.sent.length < 2 ^ 31) : Pair L M e'.side f.side := by
  have hside : Pair L M { e.side with view := e.conn.view } f.side := h
  cases act with
  | write b =>
    obtain ⟨⟨conn, payload⟩, hw, rfl⟩ := map_eq_some_iff.mp hs
    exact hside.write hw (by simpa [Endpoint.side] using hb)
  | read n =>
    obtain rfl := some.inj hs
    exact hside.read n
  | close elapsed =>
    obtain ⟨conn, hc, rfl⟩ := map_eq_some_iff.mp hs
    exact hside.close hc
  | flush current elapsed =>
    simp only [Endpoint.step, some.injEq] at hs
    obtain ⟨v, hv, hsegs, hv'⟩ := e.conn.flush_spec current elapsed
    have hemit := (hside.fades hv).emit ((e.conn.flush current elapsed).2.filter
      (·.byteSize ≤ datagramSize)) fun s hin => hsegs s (mem_of_mem_filter hin)
    rw [← hs]
    exact hemit.fades hv'
  | input seg current elapsed =>
    simp only [Endpoint.step, ite_none_right_eq_some] at hs
    obtain ⟨hin, hs⟩ := hs
    obtain rfl := some.inj hs
    refine hside.input current elapsed fun s hs => ?_
    exact hwire s (mem_singleton.mp hs ▸ hin)

end Pair

/-- No section takes back a payload. -/
theorem Endpoint.sent_prefix_of_step {e e' : Endpoint} {peer : List Segment} {act : Act}
    (hs : e.step peer act = some e') : e.sent <+: e'.sent := by
  cases act with
  | write b =>
    obtain ⟨_, -, rfl⟩ := map_eq_some_iff.mp hs
    exact prefix_append ..
  | read n | flush current elapsed =>
    obtain rfl := some.inj hs
    exact prefix_rfl
  | close elapsed =>
    obtain ⟨_, -, rfl⟩ := map_eq_some_iff.mp hs
    exact prefix_rfl
  | input seg current elapsed =>
    simp only [step, ite_none_right_eq_some] at hs
    obtain rfl := some.inj hs.2
    exact prefix_rfl

namespace System

variable {conv : UInt16} {s t : System}

/-- The invariant of the system. -/
def Inv (s : System) : Prop :=
  ∀ side, Pair (link (s side).side (s !side).side) (link (s !side).side (s side).side)
    (s side).side (s !side).side

theorem inv_of_starts (h : Starts conv s) : Inv s := by
  have hflow : ∀ {e f : Endpoint},
      (∃ cfg overhead conn, newConn cfg conv overhead = some conn ∧ e = .start conn) →
      (∃ cfg overhead conn, newConn cfg conv overhead = some conn ∧ f = .start conn) →
      Flow (link e.side f.side) (link f.side e.side) e.side f.side := by
    rintro _ _ ⟨cfg, overhead, c, hc, rfl⟩ ⟨cfg', overhead', d, hd, rfl⟩
    simp only [newConn, ite_none_left_eq_some, some.injEq] at hc hd
    obtain ⟨-, rfl⟩ := hc
    obtain ⟨-, rfl⟩ := hd
    refine { safe := ⟨List.nil_prefix, ?_⟩, bound := Nat.two_pow_pos 31, sendNext := rfl,
             recvNext_le := le_refl 0, stream := rfl, window := ?_, kept := ?_, flight := ?_,
             cache := ?_, acks := ?_ } <;>
      simp [link, Endpoint.side, Endpoint.start, view]
  intro side
  exact ⟨hflow (h side) (h !side), hflow (h !side) (h side), .refl, .refl⟩

/-- One section keeps the invariant and moves both links on. -/
theorem Inv.step (h : Inv s) (hs : Step s t) (hb : ∀ side, (t side).sent.length < 2 ^ 31)
    (side : Bool) :
    Pair (link (s side).side (s !side).side) (link (s !side).side (s side).side)
      (t side).side (t !side).side := by
  refine hs.pair (P := fun side e f => Pair (link (s side).side (s !side).side)
    (link (s !side).side (s side).side) e.side f.side) (fun {side e f} hpair => ?_)
    (fun side act he => (h side).step (h side).back.flight he (hb side)) side
  rw [Bool.not_not]
  exact hpair.symm

variable (hstart : Starts conv s) (hrun : Relation.ReflTransGen Step s t)
  (hb : ∀ side, (t side).sent.length < 2 ^ 31)
include hstart hrun hb

/-- Each direction refines a reliable link: a run of the system is a run of the link. -/
theorem inv_of_run : Inv t ∧ ∀ side, (link (s side).side (s !side).side).Extends
      (link (t side).side (t !side).side) := by
  induction hrun with
  | refl => exact ⟨inv_of_starts hstart, fun _ => .refl⟩
  | tail _ hstep ih =>
    obtain ⟨hinv, hext⟩ := ih fun side =>
      lt_of_le_of_lt (hstep.kept (R := fun e e' => e.sent <+: e'.sent) (fun _ => prefix_rfl)
        Endpoint.sent_prefix_of_step side).length_le (hb side)
    have hpair := hinv.step hstep hb
    exact ⟨fun side => ⟨(hpair side).out, (hpair side).back, .refl, .refl⟩,
      fun side => (hext side).trans (hpair side).out_extends⟩

/-- Over any run each direction moves as a reliable link does. A data segment on the wire carries
the payload of its number, and an acknowledgement names payloads that have arrived. -/
theorem mkcp_refines_link (side : Bool) :
    let L := link (t side).side (t !side).side
    (link (s side).side (s !side).side).Extends L ∧
      ∀ seg ∈ (t side).wire, Sound L (link (t !side).side (t side).side) seg := by
  obtain ⟨hinv, hext⟩ := inv_of_run hstart hrun hb
  exact ⟨hext side, (hinv side).out.flight⟩

end System

/-- In every state of every run, the bytes that one endpoint has read or can read are those of
the first `recvNext` payloads accepted at the other, so a prefix of what was written. While the
sender is active or ready to close, a payload that has left the window has been delivered or is
in the peer's cache. -/
theorem mkcp_reliable {conv : UInt16} {s t : System} (hstart : System.Starts conv s)
    (hrun : Relation.ReflTransGen System.Step s t)
    (hb : ∀ side, (t side).sent.length < 2 ^ 31) (side : Bool) :
    (t !side).consumed ++ (t !side).conn.readBuf =
        ((t side).sent.take (t !side).conn.recvNext.toNat).flatten ∧
      (t !side).consumed ++ (t !side).conn.readBuf <+: (t side).sent.flatten ∧
      ((t side).conn.state = .active ∨ (t side).conn.state = .readyToClose →
        ∀ i payload, (t side).sent[i]? = some payload →
          (∃ seg ∈ (t side).conn.sendWindow, seg.number = UInt32.ofNat i) ∨
          i < (t !side).conn.recvNext.toNat ∨ ∃ seg ∈ (t !side).conn.recvCache,
            seg.number = UInt32.ofNat i ∧ seg.payload = payload) := by
  have h := ((System.inv_of_run hstart hrun hb).1 side).out
  have hstream : (t !side).consumed ++ (t !side).conn.readBuf =
      ((t side).sent.take (t !side).conn.recvNext.toNat).flatten := h.stream
  refine ⟨hstream, ?_, fun hstate i payload hi => ?_⟩
  · rw [hstream]
    refine ⟨((t side).sent.drop (t !side).conn.recvNext.toNat).flatten, ?_⟩
    rw [← flatten_append, take_append_drop]
  · have hlt : i < (t side).sent.length := (List.getElem?_eq_some_iff.mp hi).1
    have halive : (t side).side.view.alive := decide_eq_true hstate
    rcases h.kept halive i hlt with ⟨w, hw, hwi⟩ | hdel | ⟨hi31, w, hw, hwi⟩
    · obtain ⟨seg, hseg, rfl⟩ := mem_map.mp hw
      exact .inl ⟨seg, hseg, hwi⟩
    · exact .inr (.inl (lt_of_lt_of_le hdel (length_take_le ..)))
    · -- a cached segment carries the payload of its number
      obtain ⟨seg, hseg, rfl⟩ := mem_map.mp hw
      have hc := (hwi ▸ h.cache _ hw).carries h.bound hi31
      exact .inr (.inr ⟨seg, hseg, hwi, some.inj (hc.symm.trans hi)⟩)

/-! ### A short exchange

Two bytes are written, received twice, and acknowledged. -/

def exchangeStart : System := fun _ => .start exampleConn

def exchange : List (Bool × Act) :=
  let data : Segment := .data ⟨7, 0, 10, 0, 0, [104, 105], 0, 0⟩
  let ack : Segment := .ack ⟨7, 0, 777, 1, 10, [0]⟩
  [(false, .write [104, 105]), (false, .flush 10 10), (true, .input data 20 20),
    (true, .input data 21 21), (true, .flush 30 30), (false, .input ack 40 40)]

theorem mkcp_reliable_exchange :
    System.Starts 7 exchangeStart ∧
    ∃ t, exchangeStart.run exchange = some t ∧ (t true).conn.readBuf = [104, 105] ∧
      (t false).conn.sendWindow = [] ∧
      (t true).consumed ++ (t true).conn.readBuf <+: (t false).sent.flatten := by
  have hstart : System.Starts 7 exchangeStart := fun _ =>
    ⟨exampleConn.cfg, 0, exampleConn, rfl, rfl⟩
  obtain ⟨t, ht⟩ := isSome_iff_exists.mp (by decide +kernel : (exchangeStart.run exchange).isSome)
  have hfacts : (exchangeStart.run exchange).map (fun t => ((t true).conn.readBuf,
      (t false).conn.sendWindow, (t false).sent.length, (t true).sent.length)) =
      some ([104, 105], [], 1, 0) := by decide +kernel
  simp only [ht, map_some, some.injEq, Prod.mk.injEq] at hfacts
  refine ⟨hstart, t, ht, hfacts.1, hfacts.2.1, ?_⟩
  refine (mkcp_reliable hstart (Duplex.reflTransGen_of_run ht) ?_ false).2.1
  rintro (_ | _)
  · rw [hfacts.2.2.1]; decide
  · rw [hfacts.2.2.2]; decide

/-- The first two sections: the bytes are written and sent. -/
theorem mkcp_refines_link_exchange :
    ∃ t, exchangeStart.run (exchange.take 2) = some t ∧ (t false).wire ≠ [] ∧
      (link (exchangeStart false).side (exchangeStart true).side).Extends
        (link (t false).side (t true).side) :=
  ⟨_, rfl, by decide +kernel, (@System.mkcp_refines_link 7 _ _
    (fun _ => ⟨exampleConn.cfg, 0, exampleConn, rfl, rfl⟩)
    (@Duplex.reflTransGen_of_run _ _ _ _ _ _ _ (exchange.take 2) rfl) (by decide +kernel) false).1⟩

/-! ### Cumulative numbers

Runs with fewer than `2 ^ 31` segments do not reach the wrap of the numbers. -/

/-- `x` comes before `y` in a window that begins at `base`. -/
def Before (base x y : UInt32) : Prop := x - base < y - base

/-- To compare numbers directly is right exactly if both have wrapped around or none has. -/
theorem lt_iff_before_iff (base x y : UInt32) :
    (x < y ↔ Before base x y) ↔ (x < base ↔ y < base) := by
  have hx := x.toNat_lt
  have hy := y.toNat_lt
  have hbase := base.toNat_lt
  simp only [Before, UInt32.lt_iff_toNat_lt, UInt32.toNat_sub]
  omega

/-- A cumulative number removes the segments before it, and only those, if and only if no segment
is on the other side of the wrap; so do acknowledgements in a window that begins at `base`. -/
theorem cumulative_exact_iff (c : Conn) (receivingNext sendingNext base : UInt32) :
    ((∀ seg ∈ c.sendWindow, seg ∉ (c.processReceivingNext receivingNext).sendWindow ↔
        Before c.firstUnacked seg.number receivingNext) ∧
      ∀ ack ∈ c.ackList, ack ∉ (c.processSendingNext sendingNext).ackList ↔
        Before base ack.number sendingNext) ↔
    (∀ seg ∈ c.sendWindow, seg.number < c.firstUnacked ↔ receivingNext < c.firstUnacked) ∧
      ∀ ack ∈ c.ackList, ack.number < base ↔ sendingNext < base := by
  refine and_congr (forall₂_congr fun seg hseg => ?_) (forall₂_congr fun ack hack => ?_)
  · rw [← lt_iff_before_iff]
    simp [processReceivingNext, findFirstUnacked, hseg]
  · rw [← lt_iff_before_iff]
    simp [processSendingNext, hack]

/-- The last number before the wrap is not removed by the first one after it. -/
theorem cumulative_zero_removes_nothing :
    let seg (number : UInt32) : DataSegment := ⟨7, 0, 0, number, 0, [], 0, 1⟩
    let c : Conn :=
      { exampleConn with
        sendWindow := [seg 0xFFFFFFFF, seg 0], firstUnacked := 0xFFFFFFFF, sendNext := 1
        ackList := [⟨0xFFFFFFFF, 0, 0⟩, ⟨0, 0, 0⟩] }
    Before c.firstUnacked 0xFFFFFFFF 0 ∧
      (c.processReceivingNext 0).sendWindow = [seg 0xFFFFFFFF, seg 0] ∧
      (c.processSendingNext 0).ackList = [⟨0xFFFFFFFF, 0, 0⟩, ⟨0, 0, 0⟩] := by
  refine ⟨?_, by decide, by decide⟩
  unfold Before
  decide

end Hako.Mkcp
