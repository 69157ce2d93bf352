import TwoPass.Toml.Scalar

/-!
Keys: bare or quoted names with dots between them. A key is first read as a whole and then cut into
its names.
-/
namespace TwoPass.Toml

/-- The characters of a name without quotes. -/
def isBare (c : Char) : Bool :=
  c.isAlphanum || c = '_' || c = '-'

/-- The names of a key that was read as a whole. A dot may stand in front, and names in quotes need
none between them. -/
def splitKey? (fuel : Nat) (names : List Text) (cs : List Char) : Option (List Text) :=
  match fuel with
  | 0 => none
  | fuel + 1 =>
    match cs.dropWhile isBlank with
    | [] => if names.isEmpty then none else some names.reverse
    | c :: cs =>
      if isBare c then
        let rest := cs.dropWhile isBare
        let name := toText (c :: cs.takeWhile isBare)
        match rest with
        | [] => splitKey? fuel (name :: names) []
        | d :: _ =>
          let next := rest.dropWhile isBlank
          if d = '.' || isBlank d && (next.isEmpty || next.head? = some '.') then
            splitKey? fuel (name :: names) next
          else none
      else if c = '"' || c = '\'' then
        match cs.dropWhile (· != c) with
        | [] => none
        | _ :: rest => splitKey? fuel (toText (cs.takeWhile (· != c)) :: names) rest
      else if c = '.' then
        match cs with
        | [] => none
        | d :: _ =>
          if isBare d || d = '\'' || d = '"' || d = ' ' then splitKey? fuel names cs else none
      else none

def keyNames? (cs : List Char) : Option (List Text) :=
  splitKey? (cs.length + 1) [] cs

/-- Skips white space, line breaks and comments. -/
def skip (inComment : Bool) : List Char → List Char
  | [] => []
  | c :: cs =>
    if inComment then skip (c != '\n') cs
    else if isBlank c || isBreak c then skip false cs
    else if c = '#' then skip true cs
    else c :: cs

/-- Skips blanks and a comment in front of a line break or the end. -/
def skipOnLine (inComment : Bool) : List Char → List Char
  | [] => []
  | c :: cs =>
    if inComment then if c = '\n' then c :: cs else skipOnLine true cs
    else if isBlank c then skipOnLine false cs
    else if c = '#' then skipOnLine true cs
    else c :: cs

/-- Reads the characters of a key, with quoted names kept in their quotes and escapes replaced. -/
def rawKey? (fuel : Nat) (done cs : List Char) : Option (List Char × List Char) :=
  match fuel with
  | 0 => none
  | fuel + 1 =>
    match cs with
    | [] => some (done.reverse, [])
    | c :: rest =>
      if c = '=' then some (done.reverse, cs)
      else if c = '"' then do
        let (name, rest) ← basicString? ['"'] true (rest.length + 1) [] rest
        rawKey? fuel ('"' :: name.reverse ++ '"' :: done) rest
      else if c = '\'' then do
        let (name, rest) ← literalString? ['\''] [] rest
        rawKey? fuel ('\'' :: name.reverse ++ '\'' :: done) rest
      else if isBlank c then
        match rest.dropWhile isBlank with
        | '.' :: rest =>
          rawKey? fuel ((rest.takeWhile isBlank).reverse ++ '.' :: ' ' :: done)
            (rest.dropWhile isBlank)
        | rest => some (done.reverse, rest)
      else if c = '.' || isBare c then rawKey? fuel (c :: done) rest
      else none

/-- Reads a key and the equals sign behind it. -/
def key? (cs : List Char) : Option (List Text × List Char) := do
  let (raw, rest) ← rawKey? (cs.length + 1) [] cs
  match skip false rest with
  | '=' :: rest => return (← keyNames? raw, rest)
  | _ => none

end TwoPass.Toml
