import TwoPass.Proofs.Parsing

/-!
Programs without their text: what a program says, how it is written down, and which image it stands
for. The image is read off the program directly, with no passes over a source.
-/
namespace TwoPass

namespace Listing

/-- A name that may be defined. -/
structure Label where
  text : Text
  valid : Name.isValid text = true
  free : Name.isReserved text = false
  deriving DecidableEq

inductive Argument where
  | immediate (value : Int16)
  | register (r : Register)
  | direct (label : Label)
  | matrix (label : Label) (row column : Register)
  deriving DecidableEq

/-- A character of a string: it fits a word and does not end the string. -/
structure Letter where
  char : Char
  fits : char.toNat ≤ 0xFFFF
  unquoted : char ≠ '"'
  deriving DecidableEq

inductive Body where
  | instruction (op : Opcode) (arguments : List Argument) (arity : arguments.length = op.arity)
  | data (first : Int16) (rest : List Int16)
  | string (letters : List Letter)
  | mat (rows columns : Nat) (values : List Int16) (limits : rows ≤ 32767 ∧ columns ≤ 32767)
      (cells : rows * columns ≤ Memory.size) (filled : values.length ≤ rows * columns)
  | external (name : Label)
  | entry (name : Label)
  deriving DecidableEq

structure Item where
  label : Option Label
  body : Body
  deriving DecidableEq

end Listing

/-- A program as a list of statements. -/
abbrev Listing := List Listing.Item

namespace Listing

/-! ## Text -/

def renderRegister (r : Register) : Text :=
  ['r'.toUInt8, .ofNat (48 + r.val)]

def Argument.render : Argument → Text
  | .immediate value => '#'.toUInt8 :: Text.ofInt value.toInt
  | .register r => renderRegister r
  | .direct label => label.text
  | .matrix label row column => Shape.matrixText label.text (renderRegister row) (renderRegister column)

def renderValues (values : List Int16) : List Text :=
  values.map fun value => Text.ofInt value.toInt

def commas (ts : List Text) : Text :=
  Text.joinWith (Text.of ", ") ts

namespace Body

def keyword : Body → Text
  | .instruction op _ _ => op.mnemonic
  | .data .. => '.'.toUInt8 :: Directive.name .data
  | .string _ => '.'.toUInt8 :: Directive.name .string
  | .mat .. => '.'.toUInt8 :: Directive.name .mat
  | .external _ => '.'.toUInt8 :: Directive.name .external
  | .entry _ => '.'.toUInt8 :: Directive.name .entry

def args : Body → Text
  | .instruction _ arguments _ => commas (arguments.map Argument.render)
  | .data first rest => commas (renderValues (first :: rest))
  | .string letters => '"'.toUInt8 :: letters.flatMap (fun l => Text.encodeChar l.char) ++ ['"'.toUInt8]
  | .mat rows columns values _ _ _ =>
    (Text.ofNat rows).inBrackets ++ (Text.ofNat columns).inBrackets ++
      if values = [] then [] else ' '.toUInt8 :: commas (renderValues values)
  | .external name | .entry name => name.text

def render (body : Body) : Text :=
  body.keyword.withArgs body.args

end Body

/-- `label: keyword arguments` -/
def Item.render (item : Item) : Text :=
  (match item.label with
    | none => []
    | some label => label.text ++ [':'.toUInt8, ' '.toUInt8]) ++ item.body.render

/-! ## Places -/

def Argument.label? : Argument → Option Label
  | .direct label | .matrix label .. => some label
  | _ => none

def Argument.size : Argument → Nat
  | .immediate _ => 1
  | .register _ => 0
  | .direct _ => 1
  | .matrix .. => 2

namespace Body

def codeSize : Body → Nat
  | .instruction _ arguments _ => 1 + (arguments.map Argument.size).sum
  | _ => 0

/-- The words of a statement in the data: two's complement numbers, character numbers closed by 0,
and cells filled up with 0. -/
def dataWords : Body → List Word
  | .data first rest => (first :: rest).map Int16.toUInt16
  | .string letters => (letters.map fun l => .ofNat l.char.toNat) ++ [0]
  | .mat rows columns values _ _ _ =>
    values.map Int16.toUInt16 ++ List.replicate (rows * columns - values.length) 0
  | _ => []

def isData : Body → Bool
  | .data .. | .string _ | .mat .. => true
  | _ => false

def references : Body → List Label
  | .instruction _ arguments _ => arguments.filterMap Argument.label?
  | .entry name => [name]
  | _ => []

def entry? : Body → Option Text
  | .entry name => some name.text
  | _ => none

def external? : Body → Option Text
  | .external name => some name.text
  | _ => none

end Body

structure Definition where
  name : Text
  address : Word
  kind : Symbol.Kind
  deriving DecidableEq

/-- What a statement defines behind `code` words of code and `data` words of data, in a program with
`total` words of code. -/
def Item.definitions (total code data : Nat) (item : Item) : List Definition :=
  (item.label.toList.map fun label =>
    if item.body.isData then ⟨label.text, .ofNat (Memory.base + (total + data)), .data⟩
    else ⟨label.text, .ofNat (Memory.base + code), .code⟩) ++
  item.body.external?.toList.map fun name => ⟨name, 0, .external⟩

def definitionsFrom (total code data : Nat) : Listing → List Definition
  | [] => []
  | item :: items => item.definitions total code data ++
      definitionsFrom total (code + item.body.codeSize) (data + item.body.dataWords.length) items

def codeSize (l : Listing) : Nat :=
  (l.map (·.body.codeSize)).sum

def data (l : Listing) : List Word :=
  l.flatMap (·.body.dataWords)

def definitions (l : Listing) : List Definition :=
  definitionsFrom l.codeSize 0 0 l

def names (l : Listing) : List Text :=
  l.flatMap fun item => item.label.toList.map (·.text) ++ item.body.external?.toList

def entryNames (l : Listing) : List Text :=
  l.filterMap (·.body.entry?)

def externalNames (l : Listing) : List Text :=
  l.filterMap (·.body.external?)

/-! ## Words -/

def lookup (definitions : List Definition) (label : Label) : Option Definition :=
  definitions.find? (·.name = label.text)

def addressOf (definitions : List Definition) (label : Label) : Word :=
  ((lookup definitions label).map (·.address)).getD 0

def isExternal (definitions : List Definition) (label : Label) : Bool :=
  (lookup definitions label).any (·.kind = .external)

namespace Argument

def mode : Argument → Nat
  | .immediate _ => 0
  | .direct _ => 1
  | .register _ => 2
  | .matrix .. => 3

def registerNumber : Argument → Nat
  | .register r => r.val
  | _ => 0

def words (definitions : List Definition) : Argument → List Word
  | .immediate value => [value.toUInt16]
  | .register _ => []
  | .direct label => [addressOf definitions label]
  | .matrix label row column => [addressOf definitions label, .ofNat (row.val * 8 + column.val)]

/-- The use of a name defined elsewhere, in the first of the words, which stands at `address`. -/
def uses (definitions : List Definition) (address : Nat) (a : Argument) : List ExternalUse :=
  match a.label? with
  | some label => if isExternal definitions label then [⟨label.text, .ofNat address⟩] else []
  | none => []

end Argument

/-- The fields of a main word: operation, source mode and register, destination mode and register. -/
def mainWord (op : Opcode) : List Argument → Word
  | [] => .ofNat (op.code * 4096)
  | [dst] => .ofNat (op.code * 4096 + dst.mode * 8 + dst.registerNumber)
  | src :: dst :: _ => .ofNat (op.code * 4096 + src.mode * 512 + src.registerNumber * 64 + dst.mode * 8 +
      dst.registerNumber)

def argumentUses (definitions : List Definition) (address : Nat) : List Argument → List ExternalUse
  | [] => []
  | a :: as => a.uses definitions address ++ argumentUses definitions (address + a.size) as

def Body.code (definitions : List Definition) : Body → List Word
  | .instruction op arguments _ => mainWord op arguments :: arguments.flatMap (Argument.words definitions)
  | _ => []

def Body.uses (definitions : List Definition) (address : Nat) : Body → List ExternalUse
  | .instruction _ arguments _ => argumentUses definitions (address + 1) arguments
  | _ => []

def usesFrom (definitions : List Definition) (address : Nat) : Listing → List ExternalUse
  | [] => []
  | item :: items => item.body.uses definitions address ++
      usesFrom definitions (address + item.body.codeSize) items

def code (l : Listing) : List Word :=
  l.flatMap (·.body.code l.definitions)

def externalUses (l : Listing) : List ExternalUse :=
  usesFrom l.definitions Memory.base l

/-- Every name is defined once, what is referred to is defined, what is exported is defined here, and
the image fits into memory. -/
structure WellFormed (l : Listing) : Prop where
  distinct : l.names.Nodup
  defined : ∀ item ∈ l, ∀ label ∈ item.body.references, label.text ∈ l.names
  exported : ∀ name ∈ l.entryNames, name ∉ l.externalNames
  fits : Memory.base + l.codeSize + l.data.length ≤ Memory.size

end Listing

end TwoPass
