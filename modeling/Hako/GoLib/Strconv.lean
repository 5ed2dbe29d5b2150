import Hako.GoLib.Strings

/-!
# Numbers in texts

`strconv.ParseInt` with base 10 and 64 bits, which is also `strconv.Atoi` on 64-bit platforms, or
with 32 bits, `strconv.Itoa` for numbers that are not negative, and the format of integers.
-/

namespace Hako.GoLib

/-- The value of a decimal digit. -/
def digitVal (b : UInt8) : Option Nat :=
  if 0x30 ≤ b.toNat ∧ b.toNat ≤ 0x39 then some (b.toNat - 0x30) else none

/-- The value of a text of decimal digits, continuing `n`. -/
def digitsVal : Nat → GoString → Option Nat
  | n, [] => some n
  | n, b :: s => (digitVal b).bind fun d => digitsVal (10 * n + d) s

/-- `strconv.ParseUint(s, 10, …)` before its range check. -/
def parseDigits (s : GoString) : Option Nat := if s = [] then none else digitsVal 0 s

/-- `strconv.ParseInt(s, 10, 64)`, none if it fails. -/
def parseInt (s : GoString) : Option Int :=
  match s with
  | 0x2D :: s => (parseDigits s).bind fun n => if n ≤ 2 ^ 63 then some (-(n : Int)) else none
  | 0x2B :: s => (parseDigits s).bind fun n => if n < 2 ^ 63 then some (n : Int) else none
  | s => (parseDigits s).bind fun n => if n < 2 ^ 63 then some (n : Int) else none

/-- `strconv.ParseInt(s, 10, 32)`, none if it fails. -/
def parseInt32 (s : GoString) : Option Int :=
  (parseInt s).bind fun n => if -2 ^ 31 ≤ n ∧ n < 2 ^ 31 then some n else none

/-- `strconv.Itoa` for a number that is not negative. -/
def itoa (n : Nat) : GoString := (Nat.toDigits 10 n).map fun c => c.toNat.toUInt8

/-- The format `%d`. -/
def formatInt (n : Int) : GoString := if n < 0 then 0x2D :: itoa n.natAbs else itoa n.toNat

end Hako.GoLib
