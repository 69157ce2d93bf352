import TwoPass.Diagnostic
import TwoPass.Statement.Token
import TwoPass.Text.Base4

/-!
Signed decimal literals, stored in two's complement.
-/
namespace TwoPass.Token

def literal (t : Token) : Except Diagnostic Word :=
  if t.value.isEmpty then .error (.missingOperand t.position)
  else match Numeral.read16 t.value with
    | .ok n => .ok (.ofInt n)
    | .error .outOfRange =>
      .error (.oversizedLiteral t.position (Text.of "[-32768, 32767]") t.value)
    | .error .malformed => .error (.invalidLiteral t.position)

end TwoPass.Token
