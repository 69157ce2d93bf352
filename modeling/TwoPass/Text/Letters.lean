import TwoPass.Text.Basic

/-!
Keywords are recognised whatever the case of their letters. Two rules are in use, and they differ
on the few characters outside ASCII that belong to an ASCII letter.
-/
namespace TwoPass.Text

/-- The ways to write an upper-case letter under simple case folding: U+017F folds with `S` and
U+212A with `K`. -/
def foldings (letter : UInt8) : List Text :=
  [letter] :: [letter + 32] ::
    if letter = 'S'.toUInt8 then [[0xC5, 0xBF]]
    else if letter = 'K'.toUInt8 then [[0xE2, 0x84, 0xAA]]
    else []

/-- The ways to write a character whose lower-case form is the given letter: U+0130 goes to `i`
and U+212A to `k`. -/
def lowerings (letter : UInt8) : List Text :=
  [letter] :: [letter - 32] ::
    if letter = 'i'.toUInt8 then [[0xC4, 0xB0]]
    else if letter = 'k'.toUInt8 then [[0xE2, 0x84, 0xAA]]
    else []

/-- Whether `t` spells the word, each letter in one of its ways. -/
def spells (ways : UInt8 → List Text) : (word : Text) → (t : Text) → Bool
  | [], t => t.isEmpty
  | letter :: word, t =>
    (ways letter).any fun way => way.isPrefixOf t && spells ways word (t.drop way.length)

/-- Equality with an upper-case ASCII word under simple case folding. -/
def foldsTo (t word : Text) : Bool :=
  spells foldings word t

/-- Whether the lower-case form of `t` is a given lower-case ASCII word. -/
def lowersTo (t word : Text) : Bool :=
  spells lowerings word t

end TwoPass.Text
