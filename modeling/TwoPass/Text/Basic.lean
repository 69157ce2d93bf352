/-!
Text is a list of bytes. Columns, sizes and limits count bytes, and a source file need not be
valid UTF-8, so nothing here decodes characters.
-/
namespace TwoPass

abbrev Text := List UInt8

namespace Text

/-- The UTF-8 encoding of one character. -/
def encodeChar (c : Char) : Text :=
  let n := c.toNat
  if n < 0x80 then [.ofNat n]
  else if n < 0x800 then [.ofNat (0xC0 + n / 64), .ofNat (0x80 + n % 64)]
  else if n < 0x10000 then
    [.ofNat (0xE0 + n / 4096), .ofNat (0x80 + n / 64 % 64), .ofNat (0x80 + n % 64)]
  else
    [.ofNat (0xF0 + n / 262144), .ofNat (0x80 + n / 4096 % 64), .ofNat (0x80 + n / 64 % 64),
      .ofNat (0x80 + n % 64)]

def of (s : String) : Text :=
  s.toList.flatMap encodeChar

/-- The pieces between the separators. There is always one piece more than there are separators,
so an empty text has one empty piece. -/
def splitOn (sep : UInt8) (t : Text) : List Text :=
  t.foldr
    (fun b pieces =>
      if b = sep then [] :: pieces
      else match pieces with
        | [] => [[b]]
        | p :: ps => (b :: p) :: ps)
    [[]]

/-- The bytes before the first `sep` and those after it, or `none` if there is no `sep`. -/
def cut? (sep : UInt8) (t : Text) : Option (Text × Text) :=
  match t.dropWhile (· != sep) with
  | [] => none
  | _ :: after => some (t.takeWhile (· != sep), after)

def joinWith (sep : Text) (pieces : List Text) : Text :=
  (pieces.intersperse sep).flatten

def spaces (n : Nat) : Text :=
  .replicate n ' '.toUInt8

/-- Blanks are the space and the tab. -/
def isBlank (b : UInt8) : Bool :=
  b = ' '.toUInt8 || b = '\t'.toUInt8

/-- The first blank-delimited word and what follows it, blanks included. -/
def word (t : Text) : Text × Text :=
  let t := t.dropWhile isBlank
  (t.takeWhile (!isBlank ·), t.dropWhile (!isBlank ·))

def isDigit (b : UInt8) : Bool :=
  '0'.toUInt8 ≤ b && b ≤ '9'.toUInt8

def isUpper (b : UInt8) : Bool :=
  'A'.toUInt8 ≤ b && b ≤ 'Z'.toUInt8

def isLower (b : UInt8) : Bool :=
  'a'.toUInt8 ≤ b && b ≤ 'z'.toUInt8

def isLetter (b : UInt8) : Bool :=
  isLower b || isUpper b

/-- The order of texts by their bytes. -/
def le : Text → Text → Bool
  | [], _ => true
  | _ :: _, [] => false
  | a :: s, b :: t => a < b || (a = b && le s t)

end Text

end TwoPass
