import TwoPass.Toml.Key

/-!
TOML documents: tables, dotted and quoted keys, inline tables, strings, integers and booleans. A
document is read or refused as a whole.
-/
namespace TwoPass.Toml

mutual

/-- Reads a value behind an equals sign, on the same line. -/
def value? (fuel : Nat) (cs : List Char) : Option (Value × List Char) :=
  match fuel with
  | 0 => none
  | fuel + 1 =>
    match cs.dropWhile isBlank with
    | 't' :: 'r' :: 'u' :: 'e' :: rest => some (.boolean true, rest)
    | 'f' :: 'a' :: 'l' :: 's' :: 'e' :: rest => some (.boolean false, rest)
    | '\x7b' :: rest =>
      match skip false rest with
      | '\x7d' :: rest => some (.table true [], rest)
      | rest => fields? fuel [] rest
    | c :: rest =>
      if c = '"' || c = '\'' then
        (string? (c :: rest)).map fun (s, rest) => (.text (toText s), rest)
      else integer? (c :: rest)
    | [] => none

/-- Reads the fields of an inline table from a key on, up to its closing brace. -/
def fields? (fuel : Nat) (entries : Entries) (cs : List Char) : Option (Value × List Char) :=
  match fuel with
  | 0 => none
  | fuel + 1 => do
    let (path, rest) ← key? cs
    let (v, rest) ← value? fuel rest
    let entries := Entries.putDotted entries v path
    match skipOnLine false rest with
    | ',' :: rest => fields? fuel entries (skip false rest)
    | rest =>
      match skip false rest with
      | '\x7d' :: rest => some (.table true entries, rest)
      | _ => none

end

/-- What has been read: the keys so far, the table that new keys go to, and the table headers as
they were written. -/
structure Document where
  entries : Entries := []
  path : List Text := []
  headers : List (List Char) := []

/-- Reads a table header behind its opening bracket. -/
def Document.header? (d : Document) (cs : List Char) : Option (Document × List Char) := do
  let raw := cs.takeWhile fun c => c != '[' && c != ']'
  match cs.drop raw.length with
  | ']' :: rest =>
    if d.headers.contains raw then none
    let path ← keyNames? raw
    let entries ← d.entries.openTable path
    return ({ entries, path, headers := raw :: d.headers }, rest)
  | _ => none

/-- Reads a key, its value and the end of the line. -/
def Document.assignment? (d : Document) (cs : List Char) : Option (Document × List Char) := do
  let (path, rest) ← key? cs
  let (v, rest) ← value? (cs.length + 1) rest
  let entries ← d.entries.assign (d.path ++ path.dropLast) (← path.getLast?) v
  match skipOnLine false rest with
  | [] => return ({ d with entries }, [])
  | c :: rest => if isBreak c then return ({ d with entries }, rest) else none

def Document.read? (fuel : Nat) (d : Document) (cs : List Char) : Option Document :=
  match fuel with
  | 0 => none
  | fuel + 1 =>
    match skip false cs with
    | [] => some d
    | '[' :: rest => do
      let (d, rest) ← d.header? rest
      d.read? fuel rest
    | cs => do
      let (d, rest) ← d.assignment? cs
      d.read? fuel rest

/-- A byte order mark in front of a document does not count. -/
def byteOrderMarks : List Text :=
  [[0x00, 0x00, 0xFE, 0xFF], [0xFF, 0xFE, 0x00, 0x00], [0xEF, 0xBB, 0xBF], [0xFE, 0xFF],
    [0xFF, 0xFE]]

/-- The keys of a document, or `none` if it is not well formed. -/
def read? (t : Text) : Option Entries :=
  let mark := (byteOrderMarks.find? (·.isPrefixOf t)).getD []
  let cs := Text.charsLossy (t.drop mark.length)
  (Document.read? (cs.length + 1) {} cs).map (·.entries)

end TwoPass.Toml
