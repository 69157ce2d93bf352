import TwoPass.Text.Basic

/-!
Decimal numerals: how numbers are printed and read back, and how a signed 16-bit numeral is read.
-/
namespace TwoPass

namespace Text

def ofNat (n : Nat) : Text :=
  (Nat.toDigits 10 n).map Char.toUInt8

def ofInt : Int → Text
  | .ofNat n => ofNat n
  | .negSucc n => '-'.toUInt8 :: ofNat (n + 1)

/-- Reads digits, of which there has to be one. -/
def toNat? (t : Text) : Option Nat :=
  if !t.isEmpty && t.all isDigit then some (t.foldl (fun n b => 10 * n + (b.toNat - 48)) 0) else none

/-- Reads digits, behind a minus if there is one. -/
def toInt? : Text → Option Int
  | [] => none
  | b :: t =>
    if b = '-'.toUInt8 then (toNat? t).map fun n => -(n : Int)
    else (toNat? (b :: t)).map fun n => (n : Int)

/-- At least two columns, filled with a leading zero. -/
def ofInt2 (n : Int) : Text :=
  let t := ofInt n
  if t.length < 2 then '0'.toUInt8 :: t else t

end Text

namespace Numeral

inductive Fault where
  | malformed
  | outOfRange
  deriving DecidableEq, Repr

/-- Reads digits onto the magnitude `n`. A magnitude above 65535 is out of range at once, whatever
follows it. -/
def magnitude (n : Nat) : Text → Except Fault Nat
  | [] => .ok n
  | b :: t =>
    if Text.isDigit b then
      let n := 10 * n + (b.toNat - 48)
      if n ≤ 65535 then magnitude n t else .error .outOfRange
    else .error .malformed

def unsigned? : Text → Except Fault Nat
  | [] => .error .malformed
  | t => magnitude 0 t

/-- Reads an optional sign and decimal digits as a number from -32768 to 32767. -/
def read16 (t : Text) : Except Fault Int :=
  match t with
  | [] => .error .malformed
  | b :: rest =>
    if b = '-'.toUInt8 then do
      let n ← unsigned? rest
      if n ≤ 32768 then .ok (-(n : Int)) else .error .outOfRange
    else do
      let n ← unsigned? (if b = '+'.toUInt8 then rest else t)
      if n ≤ 32767 then .ok n else .error .outOfRange

end Numeral

end TwoPass
