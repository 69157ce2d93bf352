import TwoPass.Text.Basic

/-!
The four ways in which an operand gives its value.
-/
namespace TwoPass

inductive AddressMode where
  | immediate | direct | register | matrix
  deriving DecidableEq, Repr

namespace AddressMode

/-- The number in a mode field of a main word. -/
def code : AddressMode → Nat
  | .immediate => 0
  | .direct => 1
  | .register => 2
  | .matrix => 3

def ofCode? : Nat → Option AddressMode
  | 0 => some .immediate
  | 1 => some .direct
  | 2 => some .register
  | 3 => some .matrix
  | _ => none

/-- How many words an operand adds after the main word. -/
def extraWords : AddressMode → Nat
  | .immediate | .direct => 1
  | .register => 0
  | .matrix => 2

def name : AddressMode → Text
  | .immediate => Text.of "immediate"
  | .direct => Text.of "direct"
  | .register => Text.of "register"
  | .matrix => Text.of "matrix"

end AddressMode

end TwoPass
