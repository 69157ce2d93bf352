import TwoPass.Source.Line
import TwoPass.Text.Space

/-!
Tokens are trimmed pieces of a line that know where they stand in it.
-/
namespace TwoPass

structure Token where
  position : Span
  value : Text
  deriving DecidableEq, Repr

namespace Token

/-- A whole line, not trimmed. -/
def ofLine (line : Line) : Token :=
  { position := { line := line.number, column := 1, size := line.text.length }
    value := line.text }

/-- A piece of the token that starts `start` bytes into it, trimmed. -/
def piece (t : Token) (start : Nat) (s : Text) : Token :=
  let left := s.trimLeft
  let value := left.trimRight
  { position :=
      { line := t.position.line
        column := t.position.column + start + (s.length - left.length)
        size := value.length }
    value }

/-- The piece from `start` up to `stop`, trimmed. -/
def slice (t : Token) (start stop : Nat) : Token :=
  t.piece start ((t.value.drop start).take (stop - start))

/-- The piece from `start` on, trimmed. -/
def sliceFrom (t : Token) (start : Nat) : Token :=
  t.piece start (t.value.drop start)

/-- The first word of the token and the rest. Without white space the rest is empty and stands at
the end of the token. -/
def headRest (t : Token) : Token × Token :=
  match t.value.spaceIndex? with
  | some i => (t.slice 0 i, t.sliceFrom i)
  | none => (t, t.sliceFrom t.value.length)

/-- The pieces between the separators, empty ones included. -/
def split (t : Token) (sep : UInt8) : List Token :=
  let place := fun (start, tokens) (s : Text) =>
    (start + s.length + 1, Array.push tokens (t.piece start s))
  ((t.value.splitOn sep).foldl place (0, #[])).2.toList

end Token

end TwoPass
