import TwoPass.Text.Basic

/-!
White space is the Unicode property of that name, read off the bytes. A space character is encoded
in one, two or three bytes, and no encoding of one starts inside another character, so every offset
of a text can be tested on its own.
-/
namespace TwoPass.Text

/-- U+0009 to U+000D and U+0020. -/
def isSpace1 (a : UInt8) : Bool :=
  (0x09 ≤ a && a ≤ 0x0D) || a = 0x20

/-- U+0085 and U+00A0. -/
def isSpace2 (a b : UInt8) : Bool :=
  a = 0xC2 && (b = 0x85 || b = 0xA0)

/-- U+1680, U+2000 to U+200A, U+2028, U+2029, U+202F, U+205F and U+3000. -/
def isSpace3 (a b c : UInt8) : Bool :=
  (a = 0xE1 && b = 0x9A && c = 0x80) ||
  (a = 0xE2 && b = 0x80 &&
    ((0x80 ≤ c && c ≤ 0x8A) || c = 0xA8 || c = 0xA9 || c = 0xAF)) ||
  (a = 0xE2 && b = 0x81 && c = 0x9F) ||
  (a = 0xE3 && b = 0x80 && c = 0x80)

/-- Whether a white-space character stands at the front. -/
def startsWithSpace : Text → Bool
  | [] => false
  | [a] => isSpace1 a
  | [a, b] => isSpace1 a || isSpace2 a b
  | a :: b :: c :: _ => isSpace1 a || isSpace2 a b || isSpace3 a b c

/-- Drops leading characters of one, two or three bytes. -/
def dropChars (one : UInt8 → Bool) (two : UInt8 → UInt8 → Bool)
    (three : UInt8 → UInt8 → UInt8 → Bool) : Text → Text
  | [] => []
  | [a] => if one a then [] else [a]
  | [a, b] =>
    if one a then dropChars one two three [b]
    else if two a b then []
    else [a, b]
  | a :: b :: c :: t =>
    if one a then dropChars one two three (b :: c :: t)
    else if two a b then dropChars one two three (c :: t)
    else if three a b c then dropChars one two three t
    else a :: b :: c :: t

def trimLeft (t : Text) : Text :=
  dropChars isSpace1 isSpace2 isSpace3 t

def trimRight (t : Text) : Text :=
  (dropChars isSpace1 (fun a b => isSpace2 b a) (fun a b c => isSpace3 c b a) t.reverse).reverse

def trim (t : Text) : Text :=
  trimRight (trimLeft t)

/-- The offset of the first white-space character, counted on from `i`. -/
def spaceIndexFrom (i : Nat) : Text → Option Nat
  | [] => none
  | a :: t => if startsWithSpace (a :: t) then some i else spaceIndexFrom (i + 1) t

def spaceIndex? (t : Text) : Option Nat :=
  spaceIndexFrom 0 t

end TwoPass.Text
