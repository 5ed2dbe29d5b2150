import Hako.GoLib.Binary

/-!
# Frames and how they are cut from a stream

A frame is a command, a stream id and data with a length of 16 bits. `recvLoop` reads a header
of seven bytes and then the data, for the commands that have any: behind other commands it
expects the next header, whatever length was announced.
-/

namespace Hako.AnyTLS

open GoLib GoLib.Binary List

def cmdWaste : UInt8 := 0
def cmdPSH : UInt8 := 2
def cmdFIN : UInt8 := 3
def cmdSettings : UInt8 := 4
def cmdAlert : UInt8 := 5
def cmdUpdatePaddingScheme : UInt8 := 6
def cmdSYNACK : UInt8 := 7
def cmdServerSettings : UInt8 := 10

def headerOverHeadSize : Nat := 1 + 4 + 2

structure Frame where
  cmd : UInt8
  sid : UInt32
  data : GoString
deriving DecidableEq, Repr

/-- A frame as it is written. -/
def Frame.bytes (f : Frame) : GoString :=
  f.cmd :: (putUint32 f.sid ++ putUint16 f.data.length ++ f.data)

/-- The commands behind whose header `recvLoop` reads data. -/
def readsData (cmd : UInt8) : Bool :=
  [cmdPSH, cmdSYNACK, cmdWaste, cmdSettings, cmdAlert, cmdUpdatePaddingScheme,
    cmdServerSettings].contains cmd

/-- One round of `recvLoop`: a frame and the bytes behind it, none if there are too few. -/
def recvFrame : GoString → Option (Frame × GoString)
  | cmd :: s₀ :: s₁ :: s₂ :: s₃ :: l₀ :: l₁ :: rest =>
    if readsData cmd then
      if rest.length < uint16 [l₀, l₁] then none
      else some (⟨cmd, uint32 [s₀, s₁, s₂, s₃], rest.take (uint16 [l₀, l₁])⟩, rest.drop (uint16 [l₀, l₁]))
    else some (⟨cmd, uint32 [s₀, s₁, s₂, s₃], []⟩, rest)
  | _ => none

variable {b rest : GoString} {f : Frame}

theorem recvFrame_length (h : recvFrame b = some (f, rest)) : rest.length < b.length := by
  unfold recvFrame at h
  split at h
  · split at h
    · split at h
      · cases h
      · cases h
        simp only [length_drop, length_cons]
        omega
    · cases h
      simp only [length_cons]
      omega
  · cases h

/-- The frames that `recvLoop` cuts from a stream, and the bytes left. -/
def recvFrames (b : GoString) : List Frame × GoString :=
  match _h : recvFrame b with
  | none => ([], b)
  | some (f, rest) =>
    let (fs, left) := recvFrames rest
    (f :: fs, left)
termination_by b.length
decreasing_by exact recvFrame_length (by assumption)

theorem recvFrames_of_none (h : recvFrame b = none) : recvFrames b = ([], b) := by
  rw [recvFrames]
  split
  · rfl
  · rename_i h'
    rw [h] at h'
    cases h'

theorem recvFrames_of_some (h : recvFrame b = some (f, rest)) :
    recvFrames b = (f :: (recvFrames rest).1, (recvFrames rest).2) := by
  rw [recvFrames]
  split
  · rename_i h'
    rw [h] at h'
    cases h'
  · rename_i h'
    rw [h] at h'
    cases h'
    rfl

/-! ### Frames that fit the format -/

/-- The length of the data fits its field, and there is data only where it is read. -/
structure Frame.Fits (f : Frame) : Prop where
  length : f.data.length < 2 ^ 16
  readable : readsData f.cmd = true ∨ f.data = []

/-- A frame that fits the format is cut from the stream as it was. -/
theorem recvFrame_bytes (h : f.Fits) (rest : GoString) :
    recvFrame (f.bytes ++ rest) = some (f, rest) := by
  have hsid := uint32_putUint32 f.sid []
  have hlen := uint16_pair h.length
  simp only [putUint32, Addr.bytesOf, cons_append, nil_append] at hsid
  simp only [Frame.bytes, putUint32, Addr.bytesOf, putUint16_eq, cons_append, nil_append, recvFrame,
    hsid, hlen]
  cases hread : readsData f.cmd with
  | true => simp
  | false =>
    have hdata : f.data = [] := by simpa [hread] using h.readable
    rw [hdata, nil_append, if_neg (by simp), ← hdata]

theorem recvFrames_bytes {fs : List Frame} (h : ∀ f ∈ fs, f.Fits) (rest : GoString) :
    recvFrames (fs.flatMap Frame.bytes ++ rest) =
      (fs ++ (recvFrames rest).1, (recvFrames rest).2) := by
  induction fs with
  | nil => rfl
  | cons f fs ih =>
    obtain ⟨hf, hfs⟩ := forall_mem_cons.mp h
    rw [flatMap_cons, append_assoc, recvFrames_of_some (recvFrame_bytes hf _), ih hfs]
    rfl

theorem recvFrame_append (h : recvFrame b = some (f, rest)) (b' : GoString) :
    recvFrame (b ++ b') = some (f, rest ++ b') := by
  unfold recvFrame at h
  split at h
  · rename_i cmd s₀ s₁ s₂ s₃ l₀ l₁ tail
    simp only [cons_append, recvFrame]
    split at h
    · rename_i hread
      split at h
      · cases h
      · rename_i hlen
        cases h
        have hle : uint16 [l₀, l₁] ≤ tail.length := Nat.le_of_not_lt hlen
        rw [if_pos hread, if_neg, take_append_of_le_length hle, drop_append_of_le_length hle]
        rw [length_append]
        omega
    · rename_i hread
      cases h
      rw [if_neg hread]
  · cases h

/-- Frames that come out of a stream without a rest come out of every longer stream. -/
theorem recvFrames_append (h : (recvFrames b).2 = []) (b' : GoString) :
    recvFrames (b ++ b') = ((recvFrames b).1 ++ (recvFrames b').1, (recvFrames b').2) := by
  induction hn : b.length using Nat.strongRecOn generalizing b with
  | ind n ih =>
    cases hb : recvFrame b with
    | none =>
      rw [recvFrames_of_none hb] at h ⊢
      rw [show b = [] from h]
      rfl
    | some fr =>
      obtain ⟨f, rest⟩ := fr
      have hlt := recvFrame_length hb
      rw [recvFrames_of_some hb] at h ⊢
      rw [recvFrames_of_some (recvFrame_append hb b'), ih rest.length (hn ▸ hlt) h rfl]
      rfl

/-! ### Zero bytes -/

/-- Zero bytes are read as padding frames without data. -/
theorem recvFrames_zeros (k : Nat) (rest : GoString) :
    recvFrames (List.replicate (7 * k) 0 ++ rest) =
      (List.replicate k ⟨cmdWaste, 0, []⟩ ++ (recvFrames rest).1, (recvFrames rest).2) := by
  induction k with
  | zero => rfl
  | succ k ih =>
    have hzeros : List.replicate (7 * (k + 1)) (0 : UInt8) ++ rest =
        Frame.bytes ⟨cmdWaste, 0, []⟩ ++ (List.replicate (7 * k) 0 ++ rest) := by
      rw [Nat.mul_add, add_comm, replicate_add, append_assoc]
      rfl
    have hfits : Frame.Fits ⟨cmdWaste, 0, []⟩ := ⟨by decide, .inr rfl⟩
    rw [hzeros, recvFrames_of_some (recvFrame_bytes hfits _), ih]
    rfl

/-- Fewer than seven bytes are no frame. -/
theorem recvFrames_short (h : b.length < headerOverHeadSize) : recvFrames b = ([], b) := by
  apply recvFrames_of_none
  unfold recvFrame
  split
  · simp only [length_cons, headerOverHeadSize] at h
    omega
  · rfl

end Hako.AnyTLS
