import TwoPass.Diagnostic
import TwoPass.Machine.Name
import TwoPass.Statement.Token

/-!
What a source line says: nothing, a label alone, a directive or an instruction.
-/
namespace TwoPass

/-- What a statement asks for. A mnemonic that names no operation is kept as `none`. -/
inductive Action where
  | directive (d : Directive)
  | instruction (op : Option Opcode)
  deriving DecidableEq, Repr

/-- A directive or an instruction. The keyword is the mnemonic or the name after the dot, and the
arguments are what follows it. -/
structure Statement where
  line : Int
  label : Option Token
  action : Action
  keyword : Token
  args : Token
  deriving DecidableEq, Repr

inductive ParsedLine where
  | blank
  | comment
  | labelOnly (label : Token)
  | statement (s : Statement)
  deriving DecidableEq, Repr

namespace Statement

/-- The offset of the first semicolon outside of quotes, or else of the end, counted on from `i`. -/
def codeEnd (i : Nat) (quoted : Bool) : Text → Nat
  | [] => i
  | b :: t =>
    if b = '"'.toUInt8 then codeEnd (i + 1) (!quoted) t
    else if b = ';'.toUInt8 && !quoted then i
    else codeEnd (i + 1) quoted t

/-- The length of a label in front of a colon. What stands before the first colon is a label unless
it is empty or holds a blank or a quote. -/
def labelSize? (t : Text) : Option Nat :=
  let head := t.takeWhile (· != ':'.toUInt8)
  if head.length < t.length && !head.isEmpty &&
      head.all (fun b => !Text.isBlank b && b != '"'.toUInt8) then
    some head.length
  else none

/-- A label has to be a name and must not be a reserved word. -/
def checkLabel (label : Token) : Except Diagnostic Unit :=
  if !Name.isValid label.value then .error (.invalidLabel label.position label.value)
  else if Name.isReserved label.value then .error (.reservedLabel label.position label.value)
  else .ok ()

/-- Splits the label off the code of a line. -/
def splitLabel (code : Token) : Except Diagnostic (Option Token × Token) :=
  match labelSize? code.value with
  | none => .ok (none, code)
  | some n => do
    let label := code.slice 0 n
    checkLabel label
    return (some label, code.sliceFrom (n + 1))

/-- Reads the code that follows the dot of a directive. -/
def readDirective (line : Int) (label : Option Token) (code : Token) :
    Except Diagnostic Statement :=
  let (keyword, args) := (code.sliceFrom 1).headRest
  if keyword.value.isEmpty then .error (.missingDirective code.position)
  else match Directive.parse? keyword.value with
    | none => .error (.unknownDirective keyword.position keyword.value)
    | some d => .ok { line, label, action := .directive d, keyword, args }

def readInstruction (line : Int) (label : Option Token) (code : Token) : Statement :=
  let (keyword, args) := code.headRest
  { line, label, action := .instruction (Opcode.parse? keyword.value), keyword, args }

/-- Reads the code of a line that is neither blank nor a comment. -/
def readCode (line : Int) (code : Token) : Except Diagnostic ParsedLine := do
  let (label, code) ← splitLabel code
  match label, code.value with
  | some label, [] => return .labelOnly label
  | label, b :: _ =>
    if b = '.'.toUInt8 then return .statement (← readDirective line label code)
    else return .statement (readInstruction line label code)
  | none, [] => return .blank

end Statement

/-- Reads one line. A line at fault has no further effect. -/
def Line.parse (line : Line) : Except Diagnostic ParsedLine :=
  let whole := Token.ofLine line
  match (whole.sliceFrom 0).value with
  | [] => .ok .blank
  | b :: _ =>
    if b = ';'.toUInt8 then .ok .comment
    else Statement.readCode line.number (whole.slice 0 (Statement.codeEnd 0 false line.text))

end TwoPass
