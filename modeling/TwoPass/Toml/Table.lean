import TwoPass.Text.Basic

/-!
The values of a TOML document, and how keys are put into its tables.
-/
namespace TwoPass.Toml

/-- An inline table is closed: no key can be added to it later. -/
inductive Value where
  | text (t : Text)
  | integer (n : Int)
  | boolean (b : Bool)
  | table (closed : Bool) (entries : List (Text × Value))

abbrev Entries := List (Text × Value)

/-- Puts a value under a key, in the place of the value that is there. -/
def Entries.put (entries : Entries) (key : Text) (v : Value) : Entries :=
  if (entries.lookup key).isSome then entries.map fun e => if e.1 = key then (key, v) else e
  else entries ++ [(key, v)]

/-- Changes the table at a path. Tables that are missing on the way are made, closed as the table
they stand in. -/
def Entries.alterAt (change : Bool → Entries → Option Entries) (closed : Bool) (entries : Entries) :
    List Text → Option Entries
  | [] => change closed entries
  | key :: path =>
    match entries.lookup key with
    | none => (alterAt change closed [] path).map fun es => entries.put key (.table closed es)
    | some (.table c es) => (alterAt change c es path).map fun es => entries.put key (.table c es)
    | some _ => none

/-- Opens the table at a path for new keys. -/
def Entries.openTable (entries : Entries) (path : List Text) : Option Entries :=
  alterAt (fun closed es => if closed then none else some es) false entries path

/-- Adds a new key to the table at a path. -/
def Entries.assign (entries : Entries) (path : List Text) (key : Text) (v : Value) :
    Option Entries :=
  alterAt (fun closed es =>
    if closed || (es.lookup key).isSome then none else some (es.put key v)) false entries path

/-- Puts a value under a dotted key of an inline table. The last value of a key counts, and a value
that is no table is passed over on the way. -/
def Entries.putDotted (entries : Entries) (v : Value) : List Text → Entries
  | [] => entries
  | [key] => entries.put key v
  | key :: path =>
    match entries.lookup key with
    | none => entries.put key (.table false (putDotted [] v path))
    | some (.table c es) => entries.put key (.table c (putDotted es v path))
    | some _ => putDotted entries v path

end TwoPass.Toml
