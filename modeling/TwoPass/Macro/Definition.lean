import TwoPass.Machine.Name
import TwoPass.Source.Line
import TwoPass.Text.Space

/-!
A macro block gives a name and parameters to a list of body lines, and its header is the line
`MACRO name p1, p2, ...`.
-/
namespace TwoPass.Macro

/-- Body lines are kept as they were written, placeholders included. -/
structure Definition where
  name : Text
  params : List Text
  body : Array Text := #[]
  position : Span
  deriving DecidableEq, Repr

/-- A macro has at most this many parameters. -/
def paramLimit : Nat := 8

inductive HeaderFault where
  | missingName
  | invalidName (name : Text)
  | reservedName (name : Text)
  | alreadyDefined (name : Text)
  | invalidParam (param : Text)
  | duplicateParam (param : Text)
  | tooManyParams (count : Nat)
  deriving DecidableEq, Repr

def HeaderFault.reason : HeaderFault → Text
  | missingName => Text.of "missing macro name"
  | invalidName n => Text.of "invalid macro name '" ++ n ++ Text.of "'"
  | reservedName n => Text.of "macro name '" ++ n ++ Text.of "' is a reserved word"
  | alreadyDefined n => Text.of "macro '" ++ n ++ Text.of "' is already defined"
  | invalidParam p => Text.of "invalid parameter '" ++ p ++ Text.of "'"
  | duplicateParam p => Text.of "duplicate parameter '" ++ p ++ Text.of "'"
  | tooManyParams n => Text.ofNat n ++ Text.of " parameters, at most " ++ Text.ofNat paramLimit ++
      Text.of " allowed"

/-- The items of a comma-separated list, trimmed. Nothing but white space is an empty list. -/
def listItems (t : Text) : List Text :=
  match t.trim with
  | [] => []
  | items => (items.splitOn ','.toUInt8).map Text.trim

def addParam (params : List Text) (p : Text) : Except HeaderFault (List Text) :=
  if !Name.isValid p then .error (.invalidParam p)
  else if params.contains p then .error (.duplicateParam p)
  else .ok (params ++ [p])

def readParams (t : Text) : Except HeaderFault (List Text) := do
  let params ← (listItems t).foldlM addParam []
  if params.length ≤ paramLimit then return params else throw (.tooManyParams params.length)

/-- Checks the name of a header, given the names that are taken. -/
def checkName (taken : Text → Bool) (name : Text) : Except HeaderFault Unit :=
  if name.isEmpty then .error .missingName
  else if !Name.isValid name then .error (.invalidName name)
  else if Name.isReserved name then .error (.reservedName name)
  else if taken name then .error (.alreadyDefined name)
  else .ok ()

/-- The name and parameters that a header line gives. -/
def readHeader (taken : Text → Bool) (line : Text) : Except HeaderFault (Text × List Text) := do
  let (name, params) := line.word.2.word
  checkName taken name
  return (name, ← readParams params)

/-- Whether a line opens a macro block. -/
def opensBlock (line : Text) : Bool :=
  line.word.1.foldsTo Name.blockOpening

/-- Whether a line closes a macro block. -/
def closesBlock (line : Text) : Bool :=
  line.trim.foldsTo Name.blockClosing

/-- The place of a header: its line without the blanks around it. -/
def headerSpan (line : Line) : Span :=
  let inner := line.text.dropWhile Text.isBlank
  let text := (inner.reverse.dropWhile Text.isBlank).reverse
  { line := line.number
    column := line.text.length - inner.length + 1
    size := text.length }

end TwoPass.Macro
