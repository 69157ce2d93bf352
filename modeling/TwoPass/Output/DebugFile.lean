import TwoPass.Assembly.Program

/-!
A file form of debug tables: a heading, the size of the source path, the path, and then one row for
each line number and each label.
-/
namespace TwoPass.DebugTable

def heading : Text :=
  Text.of "debug table" ++ [0, 10]

def lineRow (entry : Word × Int) : Text :=
  Text.of "line " ++ Text.ofNat entry.1.toNat ++ Text.of " " ++ Text.ofInt entry.2 ++ Text.of "\n"

def labelRow (entry : Word × Text) : Text :=
  Text.of "label " ++ Text.ofNat entry.1.toNat ++ Text.of " " ++ entry.2 ++ Text.of "\n"

def toFile (d : DebugTable) : Text :=
  heading ++ Text.ofNat d.source.length ++ Text.of "\n" ++ d.source ++ Text.of "\n" ++
    d.lines.flatMap lineRow ++ d.labels.flatMap labelRow

/-- Adds a row to the table. Rows come in reverse, so each goes to the front. -/
def addRow (d : DebugTable) (row : Text) : Option DebugTable := do
  let (tag, rest) ← row.cut? ' '.toUInt8
  let (address, value) ← rest.cut? ' '.toUInt8
  let address := UInt16.ofNat (← address.toNat?)
  if tag = Text.of "line" then
    return { d with lines := (address, ← value.toInt?) :: d.lines }
  else if tag = Text.of "label" then
    return { d with labels := (address, value) :: d.labels }
  else none

/-- Reads a debug table back, or `none` if the file holds something else. -/
def ofFile? (file : Text) : Option DebugTable := do
  if heading.isPrefixOf file then
    let (size, rest) ← Text.cut? '\n'.toUInt8 (file.drop heading.length)
    let size ← size.toNat?
    let rows := Text.splitOn '\n'.toUInt8 (rest.drop (size + 1))
    rows.dropLast.reverse.foldlM addRow { source := rest.take size }
  else none

end TwoPass.DebugTable
