import TwoPass.Path.Basic
import TwoPass.Text.Utf8

/-!
Patterns for file names: `*` stands for any bytes, `?` for one character, `[a-z]` for a character of
a class and `[^a-z]` for one outside of it, and a backslash takes the next byte literally.

A pattern is cut at its stars. Each chunk is put at the first place where it fits and stays there, so
a fault in a chunk shows only if a name fits all chunks before it.
-/
namespace TwoPass.Path

inductive Piece where
  | oneChar
  | oneOf (negated : Bool) (ranges : List (Char × Char))
  | byte (b : UInt8)
  deriving DecidableEq, Repr

/-- The pieces between two stars, `none` if they are malformed. `afterStar` tells whether a star
stands in front of them. -/
structure Chunk where
  afterStar : Bool
  pieces : Option (List Piece)
  deriving DecidableEq, Repr

abbrev Pattern := List Chunk

def isMeta (b : UInt8) : Bool :=
  b = '*'.toUInt8 || b = '?'.toUInt8 || b = '['.toUInt8 || b = '\\'.toUInt8

namespace Pattern

/-- A character inside of a class. Something has to follow it. -/
def classChar? (t : Text) : Option (Char × Text) := do
  let b ← t.head?
  if b = '-'.toUInt8 || b = ']'.toUInt8 then none
  let t := if b = '\\'.toUInt8 then t.drop 1 else t
  let (c, tail) ← Text.firstChar? t
  let rest := t.drop (tail + 1)
  if rest.isEmpty then none else some (c, rest)

/-- The ranges of a class up to its closing bracket. A class is not empty. -/
def classRanges? (fuel : Nat) (ranges : List (Char × Char)) (t : Text) :
    Option (List (Char × Char) × Text) :=
  match fuel with
  | 0 => none
  | fuel + 1 =>
    match t with
    | [] => none
    | b :: rest =>
      if b = ']'.toUInt8 && !ranges.isEmpty then some (ranges.reverse, rest)
      else do
        let (lo, t) ← classChar? t
        if t.head? = some '-'.toUInt8 then
          let (hi, t) ← classChar? (t.drop 1)
          classRanges? fuel ((lo, hi) :: ranges) t
        else classRanges? fuel ((lo, lo) :: ranges) t

/-- The pieces of a chunk. It is malformed if a class or an escape is not finished. -/
def pieces? (fuel : Nat) (done : List Piece) (t : Text) : Option (List Piece) :=
  match fuel with
  | 0 => none
  | fuel + 1 =>
    match t with
    | [] => some done.reverse
    | b :: t =>
      if b = '?'.toUInt8 then pieces? fuel (.oneChar :: done) t
      else if b = '\\'.toUInt8 then
        match t with
        | [] => none
        | b :: t => pieces? fuel (.byte b :: done) t
      else if b = '['.toUInt8 then do
        let negated := t.head? = some '^'.toUInt8
        let t := if negated then t.drop 1 else t
        let (ranges, t) ← classRanges? (t.length + 1) [] t
        pieces? fuel (.oneOf negated ranges :: done) t
      else pieces? fuel (.byte b :: done) t

def chunkOf (afterStar : Bool) (t : Text) : Chunk :=
  { afterStar, pieces := pieces? (t.length + 1) [] t }

/-- Cuts a pattern at the stars outside of classes. `done` holds the bytes of the current chunk in
reverse, and a star behind a backslash is none. -/
def chunksFrom (done : Text) (afterStar inClass escaped : Bool) : Text → Pattern
  | [] => [chunkOf afterStar done.reverse]
  | b :: t =>
    if escaped then chunksFrom (b :: done) afterStar inClass false t
    else if b = '*'.toUInt8 && !inClass then
      if done.isEmpty then chunksFrom [] true false false t
      else chunkOf afterStar done.reverse :: chunksFrom [] true false false t
    else
      let inClass := if b = '['.toUInt8 then true else if b = ']'.toUInt8 then false else inClass
      chunksFrom (b :: done) afterStar inClass (b = '\\'.toUInt8) t

def ofText (t : Text) : Pattern :=
  chunksFrom [] false false false t

/-- The character a name starts with, and the rest. A byte that starts no character counts as
U+FFFD. -/
def nameChar? (name : Text) : Option (Char × Text) :=
  if name.isEmpty then none
  else match Text.firstChar? name with
    | some (c, tail) => some (c, name.drop (tail + 1))
    | none => some ('\uFFFD', name.drop 1)

/-- What follows the front of a name that fits the pieces. -/
def afterPieces? : List Piece → Text → Option Text
  | [], name => some name
  | .oneChar :: ps, name =>
    match nameChar? name with
    | some (_, rest) => afterPieces? ps rest
    | none => none
  | .oneOf negated ranges :: ps, name =>
    match nameChar? name with
    | some (c, rest) =>
      if (ranges.any fun (lo, hi) => lo ≤ c && c ≤ hi) != negated then afterPieces? ps rest else none
    | none => none
  | .byte b :: ps, name =>
    match name with
    | [] => none
    | x :: rest => if x = b then afterPieces? ps rest else none

def suffixes : Text → List Text
  | [] => [[]]
  | b :: t => (b :: t) :: suffixes t

/-- Whether a whole name fits a pattern, or `none` if a malformed chunk is met. The last chunk has to
reach the end of the name. -/
def fits? : Pattern → Text → Option Bool
  | [], name => some name.isEmpty
  | chunk :: chunks, name =>
    match chunk.pieces with
    | none => none
    | some pieces =>
      let places := if chunk.afterStar then suffixes name else [name]
      let after := places.findSome? fun s =>
        (afterPieces? pieces s).filter fun rest => rest.isEmpty || !chunks.isEmpty
      match after with
      | some rest => fits? chunks rest
      | none => some false

/-- A pattern that starts with a malformed chunk is refused before any name is tried. -/
def isRefused (t : Text) : Bool :=
  ((ofText t).fits? []).isNone

end Pattern

end TwoPass.Path
