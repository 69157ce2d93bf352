import TwoPass.Machine.Register
import TwoPass.Operand.Mode
import TwoPass.Statement.Token
import TwoPass.Text.Bracket

/-!
The address mode of an operand shows in its shape alone, before any name is looked up. This fixes
the size of an instruction in the first pass.
-/
namespace TwoPass

/-- An operand cut into its parts: `#literal`, a register, `label[row][column]` or a label. -/
inductive Shape where
  | immediate (literal : Token)
  | register (r : Register)
  | matrix (label row column : Token)
  | direct (label : Token)
  deriving DecidableEq, Repr

namespace Shape

/-- The parts of `label[row][column]`. -/
def matrix? (t : Token) : Option Shape :=
  let label := t.value.takeWhile (!Text.isBracket ·)
  if label.isEmpty then none
  else match Text.bracketed? (t.value.drop label.length) with
    | none => none
    | some (row, rest) =>
      match Text.bracketed? rest with
      | some (column, []) =>
        some (.matrix (t.piece 0 label) (t.piece (label.length + 1) row)
          (t.piece (label.length + row.length + 3) column))
      | _ => none

def ofToken (t : Token) : Shape :=
  if t.value.head? = some ('#').toUInt8 then .immediate (t.sliceFrom 1)
  else match Register.parse? t.value with
    | some r => .register r
    | none => (matrix? t).getD (.direct t)

def mode : Shape → AddressMode
  | .immediate _ => .immediate
  | .register _ => .register
  | .matrix .. => .matrix
  | .direct _ => .direct

end Shape

end TwoPass
