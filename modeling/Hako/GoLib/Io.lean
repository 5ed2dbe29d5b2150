import Mathlib

/-!
# Reading from a byte channel

The bytes of a reliable channel come in pieces: an underlying read gets a piece, or as much of it
as its buffer takes. `io.ReadFull` reads until its buffer is full, so what it gets does not depend
on the pieces.
-/

namespace Hako.GoLib

open List

/-- What is on its way, cut into what the underlying reads get. -/
abbrev Wire := List (List UInt8)

namespace Wire

/-- `io.ReadFull` for a buffer of some length; none while it waits for more bytes. -/
def readFull : Nat → Wire → Option (List UInt8 × Wire)
  | 0, wire => some ([], wire)
  | _ + 1, [] => none
  | n + 1, piece :: wire =>
    if n + 1 < piece.length then some (piece.take (n + 1), piece.drop (n + 1) :: wire)
    else (readFull (n + 1 - piece.length) wire).map fun (bytes, wire) => (piece ++ bytes, wire)

variable {n : Nat} {wire : Wire}

theorem readFull_of_flatten {bytes rest : List UInt8}
    (h : wire.flatten = bytes ++ rest) (hlength : bytes.length = n) :
    ∃ wire', readFull n wire = some (bytes, wire') ∧ wire'.flatten = rest := by
  induction wire generalizing n bytes with
  | nil =>
    obtain ⟨rfl, rfl⟩ := append_eq_nil_iff.mp h.symm
    subst hlength
    exact ⟨[], rfl, rfl⟩
  | cons piece wire ih =>
    cases n with
    | zero =>
      obtain rfl := length_eq_zero_iff.mp hlength
      exact ⟨piece :: wire, rfl, h⟩
    | succ n =>
      rw [flatten_cons] at h
      rw [readFull]
      by_cases hlong : n + 1 < piece.length
      · -- the piece holds more than is asked for
        rw [if_pos hlong]
        have hpiece : piece = bytes ++ piece.drop (n + 1) := by
          have htake := congrArg (List.take (n + 1)) h
          rw [take_append_of_le_length (le_of_lt hlong), ← hlength, take_left] at htake
          exact (take_append_drop (n + 1) piece).symm.trans (by rw [← hlength, htake])
        refine ⟨piece.drop (n + 1) :: wire, ?_, ?_⟩
        · rw [hpiece, take_left' hlength, drop_left' hlength]
        · rw [hpiece, append_assoc] at h
          exact append_cancel_left h
      · rw [if_neg hlong]
        have hbytes : bytes = piece ++ bytes.drop piece.length := by
          have htake := congrArg (List.take piece.length) h
          rw [take_left, take_append_of_le_length (by omega)] at htake
          exact (take_append_drop piece.length bytes).symm.trans (by rw [← htake])
        have hrest : wire.flatten = bytes.drop piece.length ++ rest := by
          rw [hbytes, append_assoc] at h
          exact append_cancel_left h
        obtain ⟨wire', hread, hflatten⟩ := ih hrest (by rw [length_drop, hlength])
        refine ⟨wire', ?_, hflatten⟩
        rw [hread, Option.map_some]
        exact congrArg (fun b => some (b, wire')) hbytes.symm

theorem readFull_eq_none (h : wire.flatten.length < n) :
    readFull n wire = none := by
  induction wire generalizing n with
  | nil =>
    cases n with
    | zero => exact absurd h (Nat.not_lt_zero _)
    | succ n => rfl
  | cons piece wire ih =>
    cases n with
    | zero => exact absurd h (Nat.not_lt_zero _)
    | succ n =>
      rw [flatten_cons, length_append] at h
      rw [readFull, if_neg (by omega), ih (by omega), Option.map_none]

/-- One underlying read for a buffer of `n` bytes, which gets a byte at least. -/
def read (n : Nat) : Wire → Option (List UInt8 × Wire)
  | [] => none
  | piece :: wire =>
    if piece = [] then read n wire
    else some (piece.take n, if piece.length ≤ n then wire else piece.drop n :: wire)

theorem read_of_flatten (hn : 0 < n) (h : wire.flatten ≠ []) :
    ∃ bytes wire', read n wire = some (bytes, wire') ∧ bytes ≠ [] ∧ bytes.length ≤ n ∧
      wire.flatten = bytes ++ wire'.flatten := by
  induction wire with
  | nil => exact absurd rfl h
  | cons piece wire ih =>
    rw [read]
    by_cases hpiece : piece = []
    · rw [if_pos hpiece]
      rw [flatten_cons, hpiece, nil_append] at h ⊢
      exact ih h
    · rw [if_neg hpiece]
      refine ⟨_, _, rfl, ?_, length_take_le _ _, ?_⟩
      · rw [ne_eq, take_eq_nil_iff, not_or]
        exact ⟨Nat.pos_iff_ne_zero.mp hn, hpiece⟩
      · rw [flatten_cons]
        split
        · rename_i hle
          rw [take_of_length_le hle]
        · rw [flatten_cons, ← append_assoc, take_append_drop]

end Wire

/-! ### Connections that end -/

/-- The other end of the connection: what is left of the wire, how many bytes the next reads give,
and whether the end is told together with the last bytes. -/
structure Net where
  wire : List UInt8
  sizes : List Nat
  lastEOF : Bool

/-- A read into a slice of length `limit`: the bytes, and whether the end was told. -/
def Net.read (net : Net) (limit : Nat) : List UInt8 × Bool × Net :=
  if net.wire = [] then ([], true, net)
  else
    let n := match net.sizes with
      | [] => limit
      | k :: _ => min k limit
    (net.wire.take n, decide (net.wire.drop n = []) && net.lastEOF,
      ⟨net.wire.drop n, net.sizes.tail, net.lastEOF⟩)

/-- A read takes bytes from the front of the wire, the end is told when nothing is left, and
otherwise the next read is one step closer to the end. -/
theorem Net.read_spec {net net' : Net} {limit : Nat} {chunk : List UInt8} {eof : Bool}
    (hlimit : 0 < limit) (h : net.read limit = (chunk, eof, net')) :
    net.wire = chunk ++ net'.wire ∧ (eof = true → net'.wire = []) ∧
      (eof = false → net'.wire.length + net'.sizes.length < net.wire.length + net.sizes.length) := by
  obtain ⟨wire, sizes, lastEOF⟩ := net
  unfold Net.read at h
  by_cases hw : wire = []
  · rw [if_pos hw] at h
    cases h
    exact ⟨rfl, fun _ => hw, nofun⟩
  · rw [if_neg hw] at h
    cases h
    refine ⟨(take_append_drop ..).symm, fun he => ?_, fun _ => ?_⟩
    · exact of_decide_eq_true (Bool.and_eq_true_iff.mp he).1
    · have hpos := length_pos_iff.mpr hw
      cases sizes with
      | nil => simp only [length_drop, tail_nil]; omega
      | cons k ks => simp only [length_drop, tail_cons, length_cons]; omega

end Hako.GoLib
