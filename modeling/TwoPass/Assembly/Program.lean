import TwoPass.Assembly.Emission
import TwoPass.Macro.Library

/-!
Assembling: from lines, or from a whole source text, to a program.
-/
namespace TwoPass

/-- An assembled program. Its image starts at the load address with the instructions and goes on
with the data. -/
structure Program where
  instructions : List Word := []
  data : List Word := []
  symbols : SymbolTable := {}
  externals : List ExternalUse := []
  warnings : List Diagnostic := []
  deriving DecidableEq, Repr

namespace Program

def image (p : Program) : List Word :=
  p.instructions ++ p.data

def size (p : Program) : Nat :=
  p.instructions.length + p.data.length

/-- The first address behind the image. -/
def endAddress (p : Program) : Nat :=
  Memory.base + p.size

end Program

/-- Source lines by instruction address, and labels by address. -/
structure DebugTable where
  source : Text := []
  lines : List (Word × Int) := []
  labels : List (Word × Text) := []
  deriving DecidableEq, Repr

/-- The labels of a table by address. Of several labels at one address the first defined counts. -/
def SymbolTable.labels (table : SymbolTable) : List (Word × Text) :=
  let defined := table.symbols.filter (·.kind ≠ .external)
  let pairs := (defined.map fun s => (s.address, s.name)).mergeSort fun a b => a.1 ≤ b.1
  pairs.eraseRepsBy fun a b => a.1 == b.1

/-- What assembling gives. The program is usable if there are no errors. -/
structure Assembly where
  program : Program := {}
  errors : List Diagnostic := []
  debug : DebugTable := {}
  deriving DecidableEq, Repr

namespace Assembly

/-- Joins both passes. A pass that ends early leaves the segments of the program empty. -/
def ofLines (lines : List Line) : Assembly :=
  let layout := Layout.ofLines lines
  let warnings := layout.warnings.toList
  match layout.finalSymbols with
  | .error d =>
    { program := { symbols := layout.symbols, warnings }
      errors := (layout.errors.push d).toList }
  | .ok symbols =>
    match Emission.ofStatements symbols layout.statements.toList with
    | .error e =>
      { program := { symbols := e.symbols, warnings }
        errors := (layout.errors ++ e.errors).toList
        debug := { lines := e.lines.toList } }
    | .ok e =>
      { program :=
          { instructions := e.instructions.toList
            data := layout.data.toList
            symbols := e.symbols
            externals := e.externals.toList
            warnings }
        errors := (layout.errors ++ e.errors).toList
        debug := { lines := e.lines.toList, labels := e.symbols.labels } }

/-- The lines of a source text with its macros expanded. -/
def expandText (text : Text) (limit : Int) : Except Diagnostic (List Line) :=
  match Line.ofText? text with
  | none => .error .lineTooLong
  | some lines => Macro.expandAll lines limit

/-- Assembles a source text. Without a fault in reading or macro expansion, the expanded lines come
with the assembly. -/
def ofText (text : Text) (limit : Int) : Except Diagnostic (List Line × Assembly) :=
  match expandText text limit with
  | .error d => .error d
  | .ok lines => .ok (lines, ofLines lines)

end Assembly

end TwoPass
