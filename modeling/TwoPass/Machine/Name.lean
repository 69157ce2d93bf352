import TwoPass.Machine.Opcode
import TwoPass.Machine.Register
import TwoPass.Machine.Directive

/-!
Names that a program may give to labels and macros.
-/
namespace TwoPass.Name

def sizeLimit : Nat := 31

def isNameByte (b : UInt8) : Bool :=
  Text.isLetter b || Text.isDigit b || b = '_'.toUInt8

/-- A name is a letter followed by up to 30 letters, digits or underscores. -/
def isValid : Text → Bool
  | [] => false
  | b :: t => t.length < sizeLimit && Text.isLetter b && t.all isNameByte

def blockOpening : Text := Text.of "MACRO"

def blockClosing : Text := Text.of "ENDM"

/-- Reserved words name an operation, a register or a directive, or delimit a macro block. -/
def isReserved (t : Text) : Bool :=
  (Opcode.parse? t).isSome || (Register.parse? t).isSome || (Directive.parse? t).isSome ||
    t.foldsTo blockOpening || t.foldsTo blockClosing

end TwoPass.Name
