import TwoPass.Disk.Basic
import TwoPass.Output.Stream
import TwoPass.Settings.Basic

/-!
Writing the output of one source file to disk.
-/
namespace TwoPass.Output

open Disk

variable {m : Type → Type} [Monad m] [Disk m]

/-- Writes a file, unless its path is empty. -/
def save (path content : Text) : m (Except Fault Unit) :=
  if path.isEmpty then pure (.ok ()) else Disk.write path content

/-- Writes a stream that has lines, and removes what an earlier run left in the place of one that
has none. -/
def saveOrDiscard (path : Text) (s : Stream) : m (Except Fault Unit) :=
  if path.isEmpty then pure (.ok ())
  else if s.isEmpty then Disk.discard path
  else Disk.write path s.text

/-- Writes the object file and then the files of entries and of externals. The first failure ends
it. -/
def saveProgram (paths : OutputPaths) (p : Program) : m (Except Fault Unit) := do
  match ← save paths.object (Stream.object p).text with
  | .error f => return .error f
  | .ok () =>
    match ← saveOrDiscard paths.entries (Stream.entries p) with
    | .error f => return .error f
    | .ok () => saveOrDiscard paths.externals (Stream.externals p)

def saveExpanded (path : Text) (lines : List Line) : m (Except Fault Unit) :=
  save path (Stream.expanded lines).text

/-- Writes a debug table in a given form. -/
def saveDebug (form : DebugTable → Text) (path : Text) (d : DebugTable) : m (Except Fault Unit) :=
  save path (form d)

end TwoPass.Output
