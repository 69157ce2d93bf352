import TwoPass.Text.Utf8
import TwoPass.Toml.Table

/-!
Strings and integers. Every reader returns what follows the part it has read, and `none` on a fault.
-/
namespace TwoPass.Toml

def isBlank (c : Char) : Bool :=
  c = ' ' || c = '\t'

def isBreak (c : Char) : Bool :=
  c = '\r' || c = '\n'

def toText (cs : List Char) : Text :=
  cs.flatMap Text.encodeChar

/-! ## Strings -/

/-- The character that a number stands for, with U+FFFD in the place of what is no character. -/
def charOf (n : Nat) : Char :=
  (Text.scalar? 0 n).getD '\uFFFD'

def hexValue? (c : Char) : Option Nat :=
  if c.isDigit then some (c.toNat - 48)
  else if 'a' ≤ c && c ≤ 'f' then some (c.toNat - 87)
  else if 'A' ≤ c && c ≤ 'F' then some (c.toNat - 55)
  else none

/-- A number of exactly `count` hexadecimal digits. -/
def hexNumber? (count : Nat) (cs : List Char) : Option (Nat × List Char) := do
  let digits ← (cs.take count).mapM hexValue?
  if digits.length = count then some (digits.foldl (16 * · + ·) 0, cs.drop count) else none

/-- What a backslash and the characters after it stand for, and what follows. Before white space a
backslash stands for nothing and takes the white space with it. -/
def escape? : List Char → Option (List Char × List Char)
  | [] => none
  | c :: cs =>
    if isBlank c || isBreak c then some ([], cs.dropWhile fun d => isBlank d || isBreak d)
    else match c with
      | '"' => some (['"'], cs)
      | '\\' => some (['\\'], cs)
      | '/' => some (['/'], cs)
      | 'n' => some (['\n'], cs)
      | 't' => some (['\t'], cs)
      | 'r' => some (['\r'], cs)
      | 'b' => some (['\x08'], cs)
      | 'f' => some (['\x0c'], cs)
      | 'u' => (hexNumber? 4 cs).map fun (n, rest) => ([charOf n], rest)
      | 'U' => (hexNumber? 8 cs).map fun (n, rest) => ([charOf n], rest)
      | _ => none

/-- The rest of a basic string up to its closing quotes. Control characters other than the tab are
refused, line breaks only unless `breaks` allows them. -/
def basicString? (closing : List Char) (breaks : Bool) (fuel : Nat) (done cs : List Char) :
    Option (List Char × List Char) :=
  match fuel with
  | 0 => none
  | fuel + 1 =>
    if closing.isPrefixOf cs then some (done.reverse, cs.drop closing.length)
    else match cs with
      | [] => none
      | '\\' :: cs => do
        let (meant, cs) ← escape? cs
        basicString? closing breaks fuel (meant.reverse ++ done) cs
      | c :: cs =>
        if c.toNat < 0x20 && c != '\t' && !(breaks && isBreak c) then none
        else basicString? closing breaks fuel (c :: done) cs

/-- The rest of a literal string up to its closing quotes. -/
def literalString? (closing done : List Char) : List Char → Option (List Char × List Char)
  | [] => none
  | c :: cs =>
    if closing.isPrefixOf (c :: cs) then some (done.reverse, (c :: cs).drop closing.length)
    else literalString? closing (c :: done) cs

/-- A line break right after three opening quotes does not count. -/
def dropBreak : List Char → List Char
  | '\r' :: '\n' :: cs => cs
  | '\n' :: cs => cs
  | cs => cs

def string? : List Char → Option (List Char × List Char)
  | '"' :: '"' :: '"' :: cs => basicString? ['"', '"', '"'] true (cs.length + 1) [] (dropBreak cs)
  | '"' :: cs => basicString? ['"'] false (cs.length + 1) [] cs
  | '\'' :: '\'' :: '\'' :: cs => literalString? ['\'', '\'', '\''] [] (dropBreak cs)
  | '\'' :: cs => literalString? ['\''] [] cs
  | _ => none

/-! ## Integers -/

/-- An underscore stands behind a digit and not at the end. -/
def underscoresOk (isDigit : Char → Bool) (behindDigit : Bool) : List Char → Bool
  | [] => true
  | c :: cs =>
    (c != '_' || (behindDigit && !cs.isEmpty)) && underscoresOk isDigit (isDigit c) cs

/-- The value of digits in a base, underscores left out. -/
def digits? (base : Nat) (cs : List Char) : Option Nat := do
  let digits ← (cs.filter (· != '_')).mapM hexValue?
  if digits.isEmpty || digits.any (base ≤ ·) then none
  else some (digits.foldl (base * · + ·) 0)

/-- An integer has to fit 64 bits, one of them for the sign. -/
def fit64? (n : Int) : Option Value :=
  if -9223372036854775808 ≤ n ∧ n ≤ 9223372036854775807 then some (.integer n) else none

/-- An integer after `0x`, `0o` or `0b`. -/
def based? (base : Nat) (cs : List Char) : Option (Value × List Char) := do
  let own := fun c => c = '_' || (hexValue? c).any (· < base)
  let token := cs.takeWhile own
  let digit := fun c : Char => if base = 16 then (hexValue? c).isSome else c.isDigit
  if !underscoresOk digit false token then none
  let n ← digits? base token
  return (← fit64? n, cs.drop token.length)

/-- A decimal integer. Without a sign, three digits or more do not start with a zero. -/
def decimal? (cs : List Char) : Option (Value × List Char) := do
  let sign := cs.head?.filter fun c => c = '+' || c = '-'
  let body := if sign.isSome then cs.drop 1 else cs
  let token := body.takeWhile fun c => c.isDigit || c = '_'
  if !underscoresOk Char.isDigit false token then none
  let digits := token.filter (· != '_')
  if sign.isNone && 3 ≤ digits.length && digits.head? = some '0' then none
  let n ← digits? 10 token
  return (← fit64? (if sign = some '-' then -n else n), body.drop token.length)

def integer? : List Char → Option (Value × List Char)
  | '0' :: 'x' :: cs => based? 16 cs
  | '0' :: 'o' :: cs => based? 8 cs
  | '0' :: 'b' :: cs => based? 2 cs
  | cs => decimal? cs

end TwoPass.Toml
