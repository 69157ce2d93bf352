import TwoPass.Assembly.Program

/-!
The text streams of a program. A stream is a list of lines, line feeds included, and each line is
written whole. Addresses and words are written in base four.
-/
namespace TwoPass

abbrev Stream := List Text

namespace Stream

def text (s : Stream) : Text :=
  s.flatten

/-- Two fields on a line. -/
def row (a b : Text) : Text :=
  a ++ ' '.toUInt8 :: b ++ ['\n'.toUInt8]

/-- The sizes of both segments, then each word of the image with its address. -/
def object (p : Program) : Stream :=
  row (Text.ofNat p.instructions.length) (Text.ofNat p.data.length) ::
    p.image.mapIdx fun i w => row (Base4.encode (.ofNat (Memory.base + i))) (Base4.encode w)

/-- The exported symbols with their addresses. -/
def entries (p : Program) : Stream :=
  p.symbols.entries.map fun s => row s.name (Base4.encode s.address)

/-- The external names with the addresses of the words that refer to them. -/
def externals (p : Program) : Stream :=
  p.externals.map fun u => row u.name (Base4.encode u.address)

/-- The source after macro expansion. -/
def expanded (lines : List Line) : Stream :=
  lines.map fun l => l.text ++ ['\n'.toUInt8]

/-- Writes the lines of a stream one by one. The first write that is refused ends it. -/
@[specialize] def writeTo {m : Type → Type} [Monad m] {ε : Type} (put : Text → m (Except ε Unit)) :
    Stream → m (Except ε Unit)
  | [] => return .ok ()
  | line :: lines => do
    match ← put line with
    | .error e => return .error e
    | .ok () => writeTo put lines

end Stream

/-- A sink with room for some bytes. It takes a write whole or refuses it. -/
structure Sink where
  room : Int
  written : Array Text := #[]

namespace Sink

/-- Why a write is refused. -/
inductive Refusal where
  | full
  deriving DecidableEq, Repr

def put (t : Text) : StateM Sink (Except Refusal Unit) := do
  let s ← get
  if t.length ≤ s.room then
    set { s with room := s.room - t.length, written := s.written.push t }
    return .ok ()
  else return .error .full

def text (s : Sink) : Text :=
  s.written.toList.flatten

end Sink

end TwoPass
