import TwoPass.Operand.Shape
import TwoPass.Statement.Literal
import TwoPass.Symbol.Table

/-!
Operands with their names looked up, and the bits and words they become.
-/
namespace TwoPass

/-- Where a label leads: its address, and its name if it is defined elsewhere. -/
structure Target where
  address : Word
  external : Option Text
  deriving DecidableEq, Repr

inductive Operand where
  | immediate (value : Word)
  | direct (target : Target)
  | register (r : Register)
  | matrix (target : Target) (row column : Register)
  deriving DecidableEq, Repr

namespace Operand

def mode : Operand → AddressMode
  | .immediate _ => .immediate
  | .direct _ => .direct
  | .register _ => .register
  | .matrix .. => .matrix

/-- The six bits of a main word that tell mode and register. -/
def field (op : Operand) : Nat :=
  op.mode.code * 8 +
    match op with
    | .register r => r.val
    | _ => 0

/-- The words after the main word. -/
def words : Operand → List Word
  | .immediate value => [value]
  | .direct target => [target.address]
  | .register _ => []
  | .matrix target row column => [target.address, .ofNat (row.val * 8 + column.val)]

/-- The external name that the first of the words refers to. -/
def external? : Operand → Option Text
  | .direct target | .matrix target .. => target.external
  | .immediate _ | .register _ => none

def target (table : SymbolTable) (label : Token) : Except Diagnostic Target :=
  match table.find? label.value with
  | none => .error (.unknownLabel label.position label.value)
  | some s => .ok ⟨s.address, if s.kind = .external then some s.name else none⟩

def readRegister (t : Token) : Except Diagnostic Register :=
  match Register.parse? t.value with
  | some r => .ok r
  | none => .error (.invalidRegister t.position)

def ofShape (table : SymbolTable) : Shape → Except Diagnostic Operand
  | .immediate literal => return .immediate (← literal.literal)
  | .register r => return .register r
  | .matrix label row column => do
    let row ← readRegister row
    let column ← readRegister column
    return .matrix (← target table label) row column
  | .direct label => return .direct (← target table label)

/-- Looks an operand up in the symbol table. Only its first fault is told. -/
def ofToken (table : SymbolTable) (t : Token) : Except Diagnostic Operand :=
  if t.value.isEmpty then .error (.missingOperand t.position)
  else ofShape table (Shape.ofToken t)

end Operand

end TwoPass
