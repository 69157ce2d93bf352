import TwoPass.Assembly.Layout

/-!
The second pass encodes the instructions against the final symbols and marks the exported ones.
-/
namespace TwoPass

structure Emission where
  symbols : SymbolTable
  /-- The address of the next instruction. -/
  pc : Word := .ofNat Memory.base
  instructions : Array Word := #[]
  externals : Array ExternalUse := #[]
  /-- The address and the source line of each instruction that takes words. -/
  lines : Array (Word × Int) := #[]
  errors : Array Diagnostic := #[]

namespace Emission

def fail (e : Emission) (d : Diagnostic) : Emission :=
  { e with errors := e.errors.push d }

/-- Exports the name that an entry directive gives. -/
def addEntry (e : Emission) (name : Token) : Emission :=
  if name.value.isEmpty then e.fail (.missingOperand name.position)
  else match e.symbols.markExported name.value name.position with
    | (symbols, none) => { e with symbols }
    | (symbols, some d) => { e with symbols }.fail d

/-- Appends the words of one instruction, of the size laid out for it. -/
def append (e : Emission) (line : Int) (size : Nat) (words : List Word)
    (uses : List ExternalUse) : Emission :=
  { e with
    pc := e.pc + .ofNat size
    instructions := e.instructions ++ words
    externals := e.externals ++ uses
    lines := if 0 < size then e.lines.push (e.pc, line) else e.lines }

/-- Emits one instruction. One at fault leaves zeros in its place, and one whose words do not fill
its place ends the pass. -/
def addInstruction (e : Emission) (s : Statement) (op : Option Opcode) :
    Except Emission Emission :=
  let size := Instruction.size op s.args
  match Instruction.encode e.symbols e.pc op s.keyword s.args with
  | .error ds =>
    .ok ({ e with errors := e.errors ++ ds }.append s.line size (List.replicate size 0) [])
  | .ok (words, uses) =>
    if words.length = size then .ok (e.append s.line size words uses)
    else .error (e.fail (.wordCountMismatch s.keyword.position size words.length))

def addStatement (e : Emission) (s : Statement) : Except Emission Emission :=
  match s.action with
  | .instruction op => e.addInstruction s op
  | .directive .entry => .ok (e.addEntry s.args)
  | .directive _ => .ok e

/-- Emits all statements. The pass that was ended early is returned as an error. -/
def ofStatements (symbols : SymbolTable) (statements : List Statement) :
    Except Emission Emission :=
  statements.foldlM addStatement { symbols }

end Emission

end TwoPass
