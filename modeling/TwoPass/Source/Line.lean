import TwoPass.Text.Decimal

/-!
Places in a source file, and the lines of one.
-/
namespace TwoPass

/-- A span of a line. Lines and columns count from one, and sizes and columns count bytes. -/
structure Span where
  line : Int
  column : Int
  size : Int
  deriving DecidableEq, Repr, Inhabited

/-- Line and column with two digits each, as they stand in front of a message. -/
def Span.place (s : Span) : Text :=
  Text.ofInt2 s.line ++ Text.of ":" ++ Text.ofInt2 s.column

/-- A line and the number it was read under. Lines that a macro call produced carry the number of
the call. -/
structure Line where
  number : Int
  text : Text
  deriving DecidableEq, Repr, Inhabited

namespace Line

/-- A line holds fewer bytes than this, line feed excluded. -/
def sizeLimit : Nat := 65536

/-- One carriage return at the end of a line belongs to the line break. -/
def dropReturn (t : Text) : Text :=
  if t.getLast? = some '\r'.toUInt8 then t.dropLast else t

/-- The lines of a text as they stand between line feeds. What follows the last line feed is a line
unless it is empty. -/
def chunks (t : Text) : List Text :=
  let pieces := t.splitOn '\n'.toUInt8
  if pieces.getLast? = some [] then pieces.dropLast else pieces

/-- The numbered lines of a source text, or `none` if one of them is too long. -/
def ofText? (t : Text) : Option (List Line) :=
  let pieces := chunks t
  if pieces.all (·.length < sizeLimit) then
    some (pieces.mapIdx fun i piece => ⟨i + 1, dropReturn piece⟩)
  else none

end Line

end TwoPass
