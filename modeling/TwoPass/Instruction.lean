import TwoPass.Operand.Basic
import TwoPass.Statement.Basic

/-!
Instructions in memory: a main word, then the extra words of the operands. From the top bit down a
main word holds four bits of operation and three each of source mode, source register, destination
mode and destination register.
-/
namespace TwoPass

/-- An operand word that refers to a name defined elsewhere. -/
structure ExternalUse where
  name : Text
  address : Word
  deriving DecidableEq, Repr

namespace Instruction

/-- The operand tokens of an argument text. -/
def operands (args : Token) : List Token :=
  if args.value.isEmpty then [] else args.split ','.toUInt8

/-- How many words an instruction takes, judged by the shapes of its first two operands. A mnemonic
that names no operation takes none. -/
def size (op : Option Opcode) (args : Token) : Nat :=
  match op with
  | none => 0
  | some op =>
    if op.arity = 0 then 1
    else ((operands args).take 2).foldl (fun n t => n + (Shape.ofToken t).mode.extraWords) 1

/-- A main word. A single operand is the destination. -/
def mainWord (op : Opcode) : List Operand → Word
  | [] => .ofNat (op.code * 4096)
  | [dst] => .ofNat (op.code * 4096 + dst.field)
  | src :: dst :: _ => .ofNat (op.code * 4096 + src.field * 64 + dst.field)

def words (op : Opcode) (operands : List Operand) : List Word :=
  mainWord op operands :: operands.flatMap Operand.words

/-- The operand words that refer to names defined elsewhere, for extra words that start at `start`. -/
def uses (start : Word) : List Operand → List ExternalUse
  | [] => []
  | op :: ops =>
    let rest := uses (start + .ofNat op.words.length) ops
    match op.external? with
    | some name => ⟨name, start⟩ :: rest
    | none => rest

/-- Looks all operands up and collects the faults of those that fail. -/
def resolve (table : SymbolTable) : List Token → Except (List Diagnostic) (List Operand)
  | [] => .ok []
  | t :: ts =>
    match Operand.ofToken table t, resolve table ts with
    | .ok op, .ok ops => .ok (op :: ops)
    | .ok _, .error es => .error es
    | .error e, .ok _ => .error [e]
    | .error e, .error es => .error (e :: es)

/-- The words of an instruction at address `pc` and the external names they refer to. -/
def encode (table : SymbolTable) (pc : Word) (op : Option Opcode) (keyword args : Token) :
    Except (List Diagnostic) (List Word × List ExternalUse) :=
  match op with
  | none => .error [.unknownInstruction keyword.position keyword.value]
  | some op =>
    let tokens := operands args
    if tokens.length = op.arity then
      match resolve table tokens with
      | .ok ops => .ok (words op ops, uses (pc + 1) ops)
      | .error es => .error es
    else .error [.argumentCount keyword.position op.arity tokens.length]

end Instruction

end TwoPass
