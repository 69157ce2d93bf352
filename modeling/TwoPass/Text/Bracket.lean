import TwoPass.Text.Basic

/-!
Texts in square brackets, which do not nest.
-/
namespace TwoPass.Text

def isBracket (b : UInt8) : Bool :=
  b = '['.toUInt8 || b = ']'.toUInt8

/-- What stands in the brackets at the front, and what follows them. -/
def bracketed? : Text → Option (Text × Text)
  | [] => none
  | b :: t =>
    if b = '['.toUInt8 then
      match t.dropWhile (!isBracket ·) with
      | [] => none
      | c :: rest =>
        if c = ']'.toUInt8 then some (t.takeWhile (!isBracket ·), rest) else none
    else none

end TwoPass.Text
