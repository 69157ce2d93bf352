import TwoPass.Machine.Directive
import TwoPass.Machine.Memory
import TwoPass.Statement.Literal
import TwoPass.Text.Bracket
import TwoPass.Text.Utf8

/-!
What the data directives place in the data segment.
-/
namespace TwoPass.Data

/-- The words a directive places, and what is wrong with it. -/
structure Contents where
  words : List Word := []
  faults : List Diagnostic := []
  deriving DecidableEq, Repr

def fault (d : Diagnostic) : Contents :=
  { faults := [d] }

def faultOf : Except Diagnostic Word → Option Diagnostic
  | .ok _ => none
  | .error d => some d

/-- The words of a list of literals. One at fault is stored as 0. -/
def literals (items : List Token) : Contents :=
  let values := items.map Token.literal
  { words := values.map fun v => v.toOption.getD 0
    faults := values.filterMap faultOf }

/-- `.data 7, -57, 17` -/
def numbers (args : Token) : Contents :=
  if args.value.isEmpty then fault (.missingOperand args.position)
  else literals (args.split ','.toUInt8)

/-- The text between the first and the last quote. -/
def quoted? (t : Text) : Option Text :=
  match t.dropWhile (· != '"'.toUInt8) with
  | [] => none
  | _ :: after =>
    match after.reverse.dropWhile (· != '"'.toUInt8) with
    | [] => none
    | _ :: inner => some inner.reverse

/-- The character numbers of a text, if each of them fits a word. -/
def charWords? (t : Text) : Option (List Word) := do
  let cs ← t.chars?
  if cs.all (·.toNat ≤ 0xFFFF) then some (cs.map fun c => .ofNat c.toNat) else none

/-- `.string "abc"`, stored one character a word and closed by a 0. -/
def string (args : Token) : Contents :=
  match (quoted? args.value).bind charWords? with
  | none => fault (.invalidString args.position)
  | some words => { words := words ++ [0] }

/-- Gaps may stand between the two brackets of a matrix header. -/
def isGap (b : UInt8) : Bool :=
  Text.isBlank b || b = '\n'.toUInt8 || b = 0x0C || b = '\r'.toUInt8

/-- The two bracketed texts in front of a matrix, and what follows them. -/
def matrixHeader? (t : Text) : Option (Text × Text × Text) := do
  let (rows, rest) ← t.bracketed?
  let (columns, rest) ← Text.bracketed? (rest.dropWhile isGap)
  return (rows, columns, rest)

/-- A dimension is a literal that is not negative. -/
def dimension? (t : Text) : Option Nat :=
  match Numeral.read16 t.trim with
  | .ok n => if 0 ≤ n then some n.toNat else none
  | .error _ => none

/-- Fills `count` cells from a list of literals. Cells without a literal are 0, and of the literals
that are left over the first is at fault. -/
def cells (count : Nat) (items : List Token) : Contents :=
  let filled := literals (items.take count)
  { words := filled.words ++ List.replicate (count - items.length) 0
    faults := filled.faults ++
      match items.drop count with
      | [] => []
      | item :: _ => [.excessInitializer item.position count items.length] }

/-- `.mat [2][3] 1, 2, 3` -/
def matrix (args : Token) : Contents :=
  match matrixHeader? args.value with
  | none => fault (.invalidMatrix args.position)
  | some (rows, columns, rest) =>
    let size := args.value.length - rest.length
    let header := args.slice 0 size
    match dimension? rows, dimension? columns with
    | some rows, some columns =>
      let count := rows * columns
      if count ≤ Memory.size then
        let values := args.piece size rest
        cells count (if values.value.isEmpty then [] else values.split ','.toUInt8)
      else fault (.oversizedLiteral header.position
        (Text.of "<=" ++ Text.ofNat Memory.size ++ Text.of " cells") (Text.ofNat count))
    | _, _ => fault (.invalidMatrix header.position)

/-- What a directive places. Those that concern names place nothing. -/
def contents : Directive → Token → Contents
  | .data, args => numbers args
  | .string, args => string args
  | .mat, args => matrix args
  | .entry, _ | .external, _ => {}

end TwoPass.Data
