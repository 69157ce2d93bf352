import TwoPass.Text.Letters

/-!
The sixteen operations of the machine.
-/
namespace TwoPass

/-- An operation stands in the top four bits of a main word, numbered in this order. -/
inductive Opcode where
  | mov | cmp | add | sub | lea
  | clr | not | inc | dec | jmp | bne | jsr | red | prn
  | rts | stop
  deriving DecidableEq, Repr

namespace Opcode

def all : List Opcode :=
  [.mov, .cmp, .add, .sub, .lea, .clr, .not, .inc, .dec, .jmp, .bne, .jsr, .red, .prn, .rts, .stop]

def code : Opcode → Nat
  | .mov => 0 | .cmp => 1 | .add => 2 | .sub => 3 | .lea => 4
  | .clr => 5 | .not => 6 | .inc => 7 | .dec => 8 | .jmp => 9 | .bne => 10 | .jsr => 11
  | .red => 12 | .prn => 13
  | .rts => 14 | .stop => 15

def ofCode? (n : Nat) : Option Opcode :=
  all[n]?

/-- How many operands the operation takes. -/
def arity : Opcode → Nat
  | .mov | .cmp | .add | .sub | .lea => 2
  | .clr | .not | .inc | .dec | .jmp | .bne | .jsr | .red | .prn => 1
  | .rts | .stop => 0

def mnemonic : Opcode → Text
  | .mov => Text.of "MOV" | .cmp => Text.of "CMP" | .add => Text.of "ADD" | .sub => Text.of "SUB"
  | .lea => Text.of "LEA" | .clr => Text.of "CLR" | .not => Text.of "NOT" | .inc => Text.of "INC"
  | .dec => Text.of "DEC" | .jmp => Text.of "JMP" | .bne => Text.of "BNE" | .jsr => Text.of "JSR"
  | .red => Text.of "RED" | .prn => Text.of "PRN" | .rts => Text.of "RTS" | .stop => Text.of "STOP"

/-- The operation a mnemonic names, in upper or lower case. -/
def parse? (t : Text) : Option Opcode :=
  all.find? fun op => t.foldsTo op.mnemonic

end Opcode

end TwoPass
