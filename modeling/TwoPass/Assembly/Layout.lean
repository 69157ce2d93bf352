import TwoPass.Data
import TwoPass.Instruction

/-!
The first pass reads every line once. It collects the statements, the labels and the data words, and
adds up the sizes of the instructions.
-/
namespace TwoPass

structure Layout where
  statements : Array Statement := #[]
  symbols : SymbolTable := {}
  data : Array Word := #[]
  codeSize : Nat := 0
  errors : Array Diagnostic := #[]
  warnings : Array Diagnostic := #[]

namespace Layout

def fail (l : Layout) (d : Diagnostic) : Layout :=
  { l with errors := l.errors.push d }

/-- Takes over the table that a change left, and tells why it was refused. -/
def update (l : Layout) : SymbolTable × Option Diagnostic → Layout
  | (symbols, none) => { l with symbols }
  | (symbols, some d) => { l with symbols }.fail d

/-- Gives the label of a statement the place where the statement starts in its segment. -/
def addLabel (l : Layout) (s : Statement) : Layout :=
  match s.label with
  | none => l
  | some label =>
    let (kind, offset) : Symbol.Kind × Nat :=
      match s.action with
      | .directive d => if d.isData then (.data, l.data.size) else (.code, l.codeSize)
      | .instruction _ => (.code, l.codeSize)
    l.update (l.symbols.add
      { name := label.value, address := .ofNat offset, kind, position := label.position })

/-- Declares the name that an external directive gives. -/
def addExternal (l : Layout) (name : Token) : Layout :=
  if name.value.isEmpty then l.fail (.missingOperand name.position)
  else match Statement.checkLabel name with
    | .error d => l.fail d
    | .ok () => l.update (l.symbols.addExternal name.value name.position)

/-- Makes room for a statement. -/
def place (l : Layout) (s : Statement) : Layout :=
  match s.action with
  | .instruction op => { l with codeSize := l.codeSize + Instruction.size op s.args }
  | .directive .external => l.addExternal s.args
  | .directive d =>
    let contents := Data.contents d s.args
    { l with data := l.data ++ contents.words, errors := l.errors ++ contents.faults }

def addStatement (l : Layout) (s : Statement) : Layout :=
  ({ l with statements := l.statements.push s }.addLabel s).place s

def addLine (l : Layout) (line : Line) : Layout :=
  match line.parse with
  | .error d => l.fail d
  | .ok .blank | .ok .comment => l
  | .ok (.labelOnly label) =>
    { l with warnings := l.warnings.push (.ignoredLabel label.position label.value) }
  | .ok (.statement s) => l.addStatement s

def ofLines (lines : List Line) : Layout :=
  lines.foldl addLine {}

/-- The number of words in the image. -/
def size (l : Layout) : Nat :=
  l.codeSize + l.data.size

/-- The symbols at their final addresses: code from the load address on, data behind it. -/
def finalSymbols (l : Layout) : Except Diagnostic SymbolTable :=
  if l.size ≤ Memory.room then do
    let moved ← SymbolTable.checked (l.symbols.moveData (.ofNat l.codeSize))
    SymbolTable.checked (moved.moveAll (.ofNat Memory.base))
  else .error (.oversizedImage Memory.room l.size)

end Layout

end TwoPass
