import Hako.GoLib.Binary
import Hako.GoLib.Strings

/-!
# The writing side of a Vision connection

While the first packets of a connection are filtered, each buffer is written as a frame with a
command, its length, and padding of a random length. The filter looks for TLS handshakes in both
directions. It decides when padding ends, which may be in the middle of a call: what follows is
written as it is.
-/

namespace Hako.Vision

open GoLib GoLib.Binary List

/-! ### The filter -/

def tls13SupportedVersions : GoString := [0x00, 0x2b, 0x00, 0x02, 0x03, 0x04]
def tlsClientHandshakeStart : GoString := [0x16, 0x03]
def tlsServerHandshakeStart : GoString := [0x16, 0x03, 0x03]
def tlsApplicationDataStart : GoString := [0x17, 0x03, 0x03]

def tlsHandshakeTypeClientHello : UInt8 := 0x01
def tlsHandshakeTypeServerHello : UInt8 := 0x02

/-- The keys of `tls13CipherSuiteMap` but for the one whose name is ruled out. -/
def xtlsCiphers : List Nat := [0x1301, 0x1302, 0x1303, 0x1304]

/-- `bytes.Index` -/
def index (s sub : GoString) : Option Nat := (cut sub s).map fun parts => parts.1.length

/-- `bytes.LastIndex` of something that is not empty. -/
def lastIndex (sub : GoString) : GoString → Option Nat
  | [] => none
  | b :: s =>
    match lastIndex sub s with
    | some i => some (i + 1)
    | none => if sub.isPrefixOf (b :: s) then some 0 else none

structure Filter where
  packetsToFilter : Nat
  isTLS : Bool
  isTLS12orAbove : Bool
  enableXTLS : Bool
  cipher : Nat
  remainingServerHello : UInt16

def newFilter : Filter := ⟨8, false, false, false, 0, 0⟩

/-- `binary.BigEndian.Uint16(buffer[i:])` -/
def uint16At (buffer : GoString) (i : Nat) : Nat := uint16 [buffer.getD i 0, buffer.getD (i + 1) 0]

/-- What the filter makes of a server handshake at an index. -/
def Filter.serverHandshake (f : Filter) (buffer : GoString) (i : Nat) : Filter :=
  if i + 5 < buffer.length ∧ buffer.getD 0 0 = 22 ∧ buffer.getD 1 0 = 3 ∧ buffer.getD 2 0 = 3 then
    let f := { f with isTLS := true }
    if buffer.getD 5 0 = tlsHandshakeTypeServerHello then
      let f := { f with
        remainingServerHello := UInt16.ofNat (uint16At buffer (i + 3)) + 5
        isTLS12orAbove := true }
      let cipherOffset := i + 43 + (buffer.getD (i + 43) 0).toNat + 1
      if 79 ≤ buffer.length - i ∧ 79 ≤ f.remainingServerHello ∧ cipherOffset + 2 ≤ buffer.length then
        { f with cipher := uint16At buffer cipherOffset }
      else f
    else f
  else f

/-- What the filter makes of a client handshake at an index. -/
def Filter.clientHandshake (f : Filter) (buffer : GoString) (i : Nat) : Filter :=
  if i + 5 < buffer.length ∧ buffer.getD (i + 5) 0 = tlsHandshakeTypeClientHello then
    { f with isTLS := true }
  else f

/-- What the filter makes of a part of a server hello from an index on. -/
def Filter.serverHello (f : Filter) (buffer : GoString) (i : Nat) : Filter :=
  if f.remainingServerHello = 0 then f
  else
    let length := min f.remainingServerHello.toNat (buffer.length - i)
    let f := { f with
      remainingServerHello := f.remainingServerHello - UInt16.ofNat length }
    if (index ((buffer.drop i).take length) tls13SupportedVersions).isSome then
      { f with
        enableXTLS := f.enableXTLS || xtlsCiphers.contains f.cipher
        packetsToFilter := 0 }
    else if f.remainingServerHello = 0 then { f with packetsToFilter := 0 }
    else f

/-- `FilterTLS` -/
def filterTLS (f : Filter) (buffer : GoString) : Filter :=
  if f.packetsToFilter = 0 then f
  else
    let f := { f with packetsToFilter := f.packetsToFilter - 1 }
    match index buffer tlsServerHandshakeStart with
    | some i => (f.serverHandshake buffer i).serverHello buffer i
    | none =>
      match index buffer tlsClientHandshakeStart with
      | some i => (f.clientHandshake buffer i).serverHello buffer i
      | none => f.serverHello buffer 0

/-! ### Padding -/

def uuidSize : Nat := 16

def paddingHeaderLen : Nat := uuidSize + 1 + 2 + 2

def commandPaddingContinue : UInt8 := 0x00
def commandPaddingEnd : UInt8 := 0x01
def commandPaddingDirect : UInt8 := 0x02

def xrayBufSize : Nat := 8192

/-- What is left to chance when a buffer is padded: the two random numbers, and what is in the
memory behind the buffer. -/
structure Chance where
  long : Fin 500
  short : Fin 256
  memory : Nat → UInt8

/-- The fields of a connection that its writing side uses. -/
structure Writer where
  filter : Filter
  filterApplicationData : Bool
  direct : Bool
  onceUserUUID : Option GoString
  /-- How often a buffer was padded. -/
  padded : Nat

def newWriter (userUUID : GoString) : Writer := ⟨newFilter, true, false, some userUUID, 0⟩

/-- The header of a frame. -/
def header (userUUID : Option GoString) (command : UInt8) (contentLen paddingLen : Nat) : GoString :=
  userUUID.getD [] ++ (command :: (putUint16 contentLen ++ putUint16 paddingLen))

/-- The length of the padding of `ApplyPadding`. -/
def Chance.paddingLen (c : Chance) (contentLen : Nat) (paddingTLS : Bool) : Nat :=
  if contentLen < 900 then if paddingTLS then c.long + 900 - contentLen else c.short else 0

/-- A large buffer is cut where the last TLS record begins, or else in the middle. -/
def cutAt (buffer : GoString) : Nat :=
  match lastIndex tlsApplicationDataStart buffer with
  | some i => if i < 21 ∨ xrayBufSize - paddingHeaderLen < i then xrayBufSize / 2 else i
  | none => xrayBufSize / 2

variable {w : Writer}

theorem cutAt_bounds (buffer : GoString) :
    0 < cutAt buffer ∧ cutAt buffer ≤ xrayBufSize - paddingHeaderLen := by
  unfold cutAt
  split
  · split
    · decide
    · omega
  · decide

/-- `ReshapeBuffer` -/
def reshapeBuffer (buffer : GoString) : List GoString :=
  if buffer.length < xrayBufSize - paddingHeaderLen then [buffer]
  else buffer.take (cutAt buffer) :: reshapeBuffer (buffer.drop (cutAt buffer))
termination_by buffer.length
decreasing_by
  have := cutAt_bounds buffer
  rw [length_drop]
  omega

section Write

variable (chance : Nat → Chance)

/-- `ApplyPadding` on a buffer, which is then written. -/
def applyPadding (w : Writer) (content : GoString) (command : UInt8) (paddingTLS : Bool) :
    Writer × GoString :=
  let c := chance w.padded
  let paddingLen := c.paddingLen content.length paddingTLS
  ({ w with onceUserUUID := none, padded := w.padded + 1 },
    header w.onceUserUUID command content.length paddingLen ++
      (content ++ (List.range paddingLen).map c.memory))

def Writer.finishFiltering (w : Writer) (direct : Bool) : Writer :=
  { w with direct := direct, filterApplicationData := false }

/-- A piece that is padded, and whether the next one is. -/
def padPiece (f : Filter) (w : Writer) (buffer : GoString) : (Writer × GoString) × Bool :=
  if f.isTLS ∧ 6 < buffer.length ∧ tlsApplicationDataStart.isPrefixOf buffer then
    if f.enableXTLS then
      (applyPadding chance (w.finishFiltering true) buffer commandPaddingDirect f.isTLS, false)
    else (applyPadding chance (w.finishFiltering false) buffer commandPaddingEnd f.isTLS, false)
  else if ¬ f.isTLS12orAbove ∧ f.packetsToFilter ≤ 1 then
    (applyPadding chance (w.finishFiltering false) buffer commandPaddingEnd f.isTLS, false)
  else (applyPadding chance w buffer commandPaddingContinue f.isTLS, true)

/-- The loop of `writeBuffer` over the pieces. -/
def piecesLoop (f : Filter) : Writer → Bool → List GoString → Writer × GoString
  | w, _, [] => (w, [])
  | w, false, buffer :: buffers =>
    let (w, wire) := piecesLoop f w false buffers
    (w, buffer ++ wire)
  | w, true, buffer :: buffers =>
    let ((w, bytes), apply) := padPiece chance f w buffer
    let (w, wire) := piecesLoop f w apply buffers
    (w, bytes ++ wire)

def writeBuffer (w : Writer) (buffer : GoString) : Writer × GoString :=
  if w.filterApplicationData then
    if buffer = [] then applyPadding chance w [] commandPaddingContinue true
    else
      let w := { w with filter := filterTLS w.filter buffer }
      piecesLoop chance w.filter w true (reshapeBuffer buffer)
  else (w, buffer)

/-- Calls on the connection. `N.WriteBuffer` hands the bytes of a `Write` on in some buffers. -/
inductive Call where
  | write (buffers : List GoString)
  | writeBuffer (buffer : GoString)
  /-- A call of `Read` lets the filter see what it has read. -/
  | filter (content : GoString)

/-- The bytes that a call is to write. -/
def Call.payload : Call → GoString
  | .write buffers => buffers.flatten
  | .writeBuffer buffer => buffer
  | .filter _ => []

def writeBuffers : Writer → List GoString → Writer × GoString
  | w, [] => (w, [])
  | w, buffer :: buffers =>
    let (w, bytes) := writeBuffer chance w buffer
    let (w, wire) := writeBuffers w buffers
    (w, bytes ++ wire)

def Call.exec (w : Writer) : Call → Writer × GoString
  | .write buffers =>
    if w.filterApplicationData then writeBuffers chance w buffers else (w, buffers.flatten)
  | .writeBuffer buffer => Vision.writeBuffer chance w buffer
  | .filter content => ({ w with filter := filterTLS w.filter content }, [])

/-- What a sequence of calls leaves of the connection, and what it writes. -/
def writeAll : Writer → List Call → Writer × GoString
  | w, [] => (w, [])
  | w, call :: calls =>
    let (w, bytes) := call.exec chance w
    let (w, wire) := writeAll w calls
    (w, bytes ++ wire)

end Write

/-! ### What is written -/

/-- The streams that a reader understands which still expects the user id, or does not: frames
that go on, and behind the one that ends padding, raw bytes. -/
inductive Encoded : Option GoString → GoString → GoString → Prop
  | nil {userUUID : Option GoString} : Encoded userUUID [] []
  | next {userUUID : Option GoString} {content padding wire payload : GoString} :
      content.length < 2 ^ 16 → padding.length < 2 ^ 16 → Encoded none wire payload →
      Encoded userUUID
        (header userUUID commandPaddingContinue content.length padding.length ++
          (content ++ padding) ++ wire) (content ++ payload)
  | last {userUUID : Option GoString} {content padding raw : GoString} :
      content.length < 2 ^ 16 → padding.length < 2 ^ 16 →
      Encoded userUUID
        (header userUUID commandPaddingEnd content.length padding.length ++
          (content ++ padding) ++ raw) (content ++ raw)

/-- What is written from here on carries these bytes. -/
def Carries (w : Writer) (wire payload : GoString) : Prop :=
  if w.filterApplicationData then Encoded w.onceUserUUID wire payload else wire = payload

/-- A step that writes `bytes` for `content`, unless it has switched to direct writing. -/
def Steps (w w' : Writer) (bytes content : GoString) : Prop :=
  (w.filterApplicationData = false → w'.filterApplicationData = false ∧ w'.direct = w.direct) ∧
    (w'.direct = false → ∀ wire payload, Carries w' wire payload →
      Carries w (bytes ++ wire) (content ++ payload))

theorem Steps.refl (w : Writer) : Steps w w [] [] := ⟨fun h => ⟨h, rfl⟩, fun _ _ _ h => h⟩

variable {wire payload : GoString}

theorem carries_of_raw (h : w.filterApplicationData = false) :
    Carries w wire payload ↔ wire = payload := by
  simp [Carries, h]

theorem carries_of_filtering (h : w.filterApplicationData = true) :
    Carries w wire payload ↔ Encoded w.onceUserUUID wire payload := by
  simp [Carries, h]

theorem Steps.raw (h : w.filterApplicationData = false) (content : GoString) :
    Steps w w content content := by
  refine ⟨fun h => ⟨h, rfl⟩, fun _ wire payload hw => ?_⟩
  rw [carries_of_raw h] at hw ⊢
  rw [hw]

/-- A connection that has switched to direct writing stays so. -/
theorem Steps.trans {w₁ w₂ w₃ : Writer} {bytes bytes' content content' : GoString}
    (h : Steps w₁ w₂ bytes content) (h' : Steps w₂ w₃ bytes' content')
    (hdirect : w₂.direct = true → w₂.filterApplicationData = false) :
    Steps w₁ w₃ (bytes ++ bytes') (content ++ content') := by
  refine ⟨fun hraw => ?_, fun hw wire payload hcarries => ?_⟩
  · obtain ⟨hraw', heq⟩ := h.1 hraw
    obtain ⟨hraw'', heq'⟩ := h'.1 hraw'
    exact ⟨hraw'', heq'.trans heq⟩
  · have hw₂ : w₂.direct = false := by
      cases hd : w₂.direct with
      | false => rfl
      | true => rw [(h'.1 (hdirect hd)).2, hd] at hw; cases hw
    rw [append_assoc, append_assoc]
    exact h.2 hw₂ _ _ (h'.2 hw wire payload hcarries)

/-- Direct writing comes with the end of filtering. -/
def Writer.Proper (w : Writer) : Prop := w.direct = true → w.filterApplicationData = false

theorem paddingLen_lt (c : Chance) (contentLen : Nat) (paddingTLS : Bool) :
    c.paddingLen contentLen paddingTLS < 2 ^ 16 := by
  have hlong := c.long.isLt
  have hshort := c.short.isLt
  unfold Chance.paddingLen
  split
  · split <;> omega
  · decide

theorem applyPadding_bytes (chance : Nat → Chance) (w : Writer) (content : GoString)
    (command : UInt8) (paddingTLS : Bool) : ∃ padding : GoString, padding.length < 2 ^ 16 ∧
      (applyPadding chance w content command paddingTLS).2 =
        header w.onceUserUUID command content.length padding.length ++ (content ++ padding) := by
  refine ⟨_, ?_, by rw [applyPadding, length_map, length_range]⟩
  simpa using paddingLen_lt (chance w.padded) content.length paddingTLS

section Pieces

variable (chance : Nat → Chance) {w : Writer}

variable {content piece : GoString}

theorem steps_continue (hw : w.filterApplicationData = true)
    (hlen : content.length < 2 ^ 16) (paddingTLS : Bool) :
    Steps w (applyPadding chance w content commandPaddingContinue paddingTLS).1
      (applyPadding chance w content commandPaddingContinue paddingTLS).2 content := by
  refine ⟨fun hraw => absurd (hw.symm.trans hraw) nofun, fun _ wire payload hcarries => ?_⟩
  have henc : Encoded none wire payload := by simpa [Carries, applyPadding, hw] using hcarries
  obtain ⟨padding, hpadding, hbytes⟩ :=
    applyPadding_bytes chance w content commandPaddingContinue paddingTLS
  rw [carries_of_filtering hw, hbytes]
  exact .next hlen hpadding henc

theorem steps_end (hw : w.filterApplicationData = true)
    (hlen : content.length < 2 ^ 16) (paddingTLS : Bool) :
    Steps w (applyPadding chance (w.finishFiltering false) content commandPaddingEnd paddingTLS).1
      (applyPadding chance (w.finishFiltering false) content commandPaddingEnd paddingTLS).2
      content := by
  refine ⟨fun hraw => absurd (hw.symm.trans hraw) nofun, fun _ wire payload hcarries => ?_⟩
  obtain rfl : wire = payload := (carries_of_raw rfl).mp hcarries
  obtain ⟨padding, hpadding, hbytes⟩ :=
    applyPadding_bytes chance (w.finishFiltering false) content commandPaddingEnd paddingTLS
  rw [carries_of_filtering hw, hbytes]
  exact .last hlen hpadding

/-- A padded piece carries its bytes, and the next one is padded if the connection still filters. -/
theorem steps_padPiece (f : Filter) (hw : w.filterApplicationData = true) (hp : w.Proper)
    (hlen : piece.length < 2 ^ 16) :
    Steps w (padPiece chance f w piece).1.1 (padPiece chance f w piece).1.2 piece ∧
      (padPiece chance f w piece).1.1.Proper ∧
      (padPiece chance f w piece).1.1.filterApplicationData = (padPiece chance f w piece).2 := by
  unfold padPiece
  split
  · split
    · -- with the direct command nothing is claimed
      exact ⟨⟨fun hraw => absurd (hw.symm.trans hraw) nofun, nofun⟩, fun _ => rfl, rfl⟩
    · exact ⟨steps_end chance hw hlen f.isTLS, nofun, rfl⟩
  · split
    · exact ⟨steps_end chance hw hlen f.isTLS, nofun, rfl⟩
    · exact ⟨steps_continue chance hw hlen f.isTLS, hp, hw⟩

/-- The loop pads as long as the connection filters. -/
theorem steps_piecesLoop (f : Filter) {pieces : List GoString}
    (hlen : ∀ piece ∈ pieces, piece.length < 2 ^ 16) {w : Writer} {apply : Bool}
    (happly : w.filterApplicationData = apply) (hp : w.Proper) :
    Steps w (piecesLoop chance f w apply pieces).1 (piecesLoop chance f w apply pieces).2
        pieces.flatten ∧ (piecesLoop chance f w apply pieces).1.Proper := by
  induction pieces generalizing w apply with
  | nil =>
    cases apply <;> exact ⟨.refl w, hp⟩
  | cons piece pieces ih =>
    obtain ⟨hpiece, hpieces⟩ := forall_mem_cons.mp hlen
    cases apply with
    | false =>
      obtain ⟨hrest, hproper⟩ := ih hpieces happly hp
      exact ⟨(Steps.raw happly piece).trans hrest hp, hproper⟩
    | true =>
      obtain ⟨hfirst, hproper, hnext⟩ := steps_padPiece chance f happly hp hpiece
      obtain ⟨hrest, hproper'⟩ := ih hpieces hnext hproper
      exact ⟨hfirst.trans hrest hproper, hproper'⟩

theorem reshapeBuffer_flatten (buffer : GoString) : (reshapeBuffer buffer).flatten = buffer := by
  fun_induction reshapeBuffer buffer with
  | case1 => simp
  | case2 buffer _ ih => rw [flatten_cons, ih, take_append_drop]

theorem length_lt_of_mem_reshapeBuffer {buffer : GoString}
    (h : piece ∈ reshapeBuffer buffer) : piece.length < 2 ^ 16 := by
  have hlimit : xrayBufSize - paddingHeaderLen < 2 ^ 16 := by decide
  fun_induction reshapeBuffer buffer with
  | case1 buffer hlt =>
    rw [mem_singleton.mp h]
    omega
  | case2 buffer _ ih =>
    obtain rfl | hmem := mem_cons.mp h
    · have := cutAt_bounds buffer
      rw [length_take]
      omega
    · exact ih hmem

section

variable (hp : w.Proper)
include hp

theorem steps_writeBuffer (buffer : GoString) :
    Steps w (writeBuffer chance w buffer).1 (writeBuffer chance w buffer).2 buffer ∧
      (writeBuffer chance w buffer).1.Proper := by
  unfold writeBuffer
  split
  · next hw =>
    split
    · next hnil =>
      subst hnil
      exact ⟨steps_continue chance hw (by decide) true, hp⟩
    · have h := @steps_piecesLoop chance (filterTLS w.filter buffer) (reshapeBuffer buffer)
        (fun _ => length_lt_of_mem_reshapeBuffer)
        { w with filter := filterTLS w.filter buffer } true hw hp
      rwa [reshapeBuffer_flatten] at h
  · next hw => exact ⟨.raw (by simpa using hw) buffer, hp⟩

theorem steps_writeBuffers (buffers : List GoString) :
    Steps w (writeBuffers chance w buffers).1 (writeBuffers chance w buffers).2 buffers.flatten ∧
      (writeBuffers chance w buffers).1.Proper := by
  induction buffers generalizing w with
  | nil => exact ⟨.refl w, hp⟩
  | cons buffer buffers ih =>
    obtain ⟨hfirst, hproper⟩ := steps_writeBuffer chance hp buffer
    obtain ⟨hrest, hproper'⟩ := ih hproper
    exact ⟨hfirst.trans hrest hproper, hproper'⟩

theorem steps_exec (call : Call) :
    Steps w (call.exec chance w).1 (call.exec chance w).2 call.payload ∧
      (call.exec chance w).1.Proper := by
  cases call with
  | write buffers =>
    simp only [Call.exec]
    split
    · exact steps_writeBuffers chance hp buffers
    · next hw => exact ⟨.raw (by simpa using hw) _, hp⟩
  | writeBuffer buffer => exact steps_writeBuffer chance hp buffer
  | filter content => exact ⟨.refl w, hp⟩

theorem steps_writeAll (calls : List Call) :
    Steps w (writeAll chance w calls).1 (writeAll chance w calls).2
      (calls.flatMap Call.payload) := by
  induction calls generalizing w with
  | nil => exact .refl w
  | cons call calls ih =>
    obtain ⟨hfirst, hproper⟩ := steps_exec chance hp call
    exact hfirst.trans (ih hproper) hproper

end

/-- What calls on a new connection write is a stream with the bytes of the calls, as long as none
of them switches to direct writing. -/
theorem writeAll_encoded (userUUID : GoString) (calls : List Call)
    (hdirect : (writeAll chance (newWriter userUUID) calls).1.direct = false) :
    Encoded (some userUUID) (writeAll chance (newWriter userUUID) calls).2
      (calls.flatMap Call.payload) := by
  have hsteps := steps_writeAll chance (w := newWriter userUUID) nofun calls
  have hnil : ∀ w : Writer, Carries w [] [] := by
    intro w
    unfold Carries
    split
    · exact .nil
    · rfl
  have h := hsteps.2 hdirect [] [] (hnil _)
  rw [append_nil, append_nil] at h
  exact h

end Pieces

end Hako.Vision
