import TwoPass.Text.Basic

/-!
Slash-separated paths, treated by their text alone.
-/
namespace TwoPass.Path

def slash : UInt8 := '/'.toUInt8

def isRooted (path : Text) : Bool :=
  path.head? = some slash

/-- The names between the slashes. -/
def names (path : Text) : List Text :=
  (path.splitOn slash).filter (!·.isEmpty)

/-- A name that means something below a directory: no slash in it, and not one of the dots. -/
structure IsName (name : Text) : Prop where
  ne_nil : name ≠ []
  not_mem : slash ∉ name
  ne_dot : name ≠ Text.of "."
  ne_dots : name ≠ Text.of ".."

instance (name : Text) : Decidable (IsName name) :=
  decidable_of_iff (name ≠ [] ∧ slash ∉ name ∧ name ≠ Text.of "." ∧ name ≠ Text.of "..")
    ⟨fun h => ⟨h.1, h.2.1, h.2.2.1, h.2.2.2⟩, fun h => ⟨h.1, h.2, h.3, h.4⟩⟩

/-- Takes one more name. A name followed by `..` cancels, and nothing is above the root. -/
def descend (rooted : Bool) (done : List Text) (name : Text) : List Text :=
  if name = Text.of "." then done
  else if name = Text.of ".." then
    match done with
    | [] => if rooted then [] else [name]
    | last :: before => if last = Text.of ".." then name :: done else before
  else name :: done

/-- The shortest path of the same meaning. -/
def normalize (path : Text) : Text :=
  let kept := ((names path).foldl (descend (isRooted path)) []).reverse
  let body := Text.joinWith [slash] kept
  if isRooted path then slash :: body
  else if body.isEmpty then Text.of "." else body

/-- The two paths one after the other, normalized. -/
def join (a b : Text) : Text :=
  if a.isEmpty && b.isEmpty then []
  else if a.isEmpty then normalize b
  else normalize (a ++ slash :: b)

/-- The part up to the last slash, normalized. -/
def parent (path : Text) : Text :=
  normalize (path.reverse.dropWhile (· != slash)).reverse

/-- The last name of a path. -/
def fileName (path : Text) : Text :=
  if path.isEmpty then Text.of "."
  else
    let trimmed := path.reverse.dropWhile (· = slash)
    if trimmed.isEmpty then [slash] else (trimmed.takeWhile (· != slash)).reverse

/-- A file name cut before its last dot. Without a dot the second part is empty. -/
def splitExtension (name : Text) : Text × Text :=
  match name.reverse.dropWhile (· != '.'.toUInt8) with
  | [] => (name, [])
  | _ :: stem => (stem.reverse, name.drop stem.length)

/-- The paths of the directories above a path, read backwards from its reverse. -/
def ancestorsFrom (inName : Bool) : Text → List Text
  | [] => []
  | b :: t =>
    if b = slash then
      if inName then
        if t.isEmpty then [] else t.reverse :: ancestorsFrom false t
      else ancestorsFrom false t
    else ancestorsFrom true t

/-- The paths of the directories above a path, the nearest first. -/
def ancestors (path : Text) : List Text :=
  ancestorsFrom false path.reverse

end TwoPass.Path
