import TwoPass.Diagnostic
import TwoPass.Text.Base4

/-!
The labels of a program. Addresses are offsets into a segment until the data symbols have been moved
behind the code and all symbols to the load address, in that order.
-/
namespace TwoPass

inductive Symbol.Kind where
  | code | data | external
  deriving DecidableEq, Repr

structure Symbol where
  name : Text
  address : Word
  kind : Symbol.Kind
  isEntry : Bool := false
  position : Span
  deriving DecidableEq, Repr

/-- How far the addresses of a table have been moved. -/
inductive Relocation where
  | pending | dataMoved | done
  deriving DecidableEq, Repr

/-- Symbols in the order of their definition. -/
structure SymbolTable where
  symbols : List Symbol := []
  relocation : Relocation := .pending
  deriving DecidableEq, Repr

namespace SymbolTable

def find? (table : SymbolTable) (name : Text) : Option Symbol :=
  table.symbols.find? (·.name = name)

/-! Each change returns the table it leaves, and why it was refused if it was. -/

/-- Adds a symbol at the end. A name that is taken keeps its meaning. -/
def add (table : SymbolTable) (s : Symbol) : SymbolTable × Option Diagnostic :=
  match table.find? s.name with
  | some _ => (table, some (.redeclaredLabel s.position s.name))
  | none => ({ table with symbols := table.symbols ++ [s] }, none)

/-- Declares a name that is defined elsewhere. It has address 0. -/
def addExternal (table : SymbolTable) (name : Text) (position : Span) :
    SymbolTable × Option Diagnostic :=
  table.add { name, address := 0, kind := .external, position }

/-- Marks a symbol for export. Only a name defined here can be exported. -/
def markExported (table : SymbolTable) (name : Text) (position : Span) :
    SymbolTable × Option Diagnostic :=
  match table.find? name with
  | none => (table, some (.unknownLabel position name))
  | some s =>
    if s.kind = .external then (table, some (.externalEntry position name))
    else
      ({ table with
        symbols := table.symbols.map fun s => if s.name = name then { s with isEntry := true } else s },
        none)

/-- Moves every data symbol by the size of the code. -/
def moveData (table : SymbolTable) (offset : Word) : SymbolTable × Option Diagnostic :=
  match table.relocation with
  | .pending =>
    ({ symbols := table.symbols.map fun s =>
        if s.kind = .data then { s with address := s.address + offset } else s
       relocation := .dataMoved }, none)
  | .dataMoved | .done =>
    (table, some (.relocation (Text.of "relocate data symbols") (Text.of "already relocated")))

/-- Moves code and data symbols to the load address. -/
def moveAll (table : SymbolTable) (base : Word) : SymbolTable × Option Diagnostic :=
  match table.relocation with
  | .pending =>
    (table, some (.relocation (Text.of "relocate symbols") (Text.of "data symbols not yet relocated")))
  | .dataMoved =>
    ({ symbols := table.symbols.map fun s =>
        if s.kind = .external then s else { s with address := s.address + base }
       relocation := .done }, none)
  | .done => (table, some (.relocation (Text.of "relocate symbols") (Text.of "already relocated")))

/-- The table after a change that was not refused. -/
def checked : SymbolTable × Option Diagnostic → Except Diagnostic SymbolTable
  | (table, none) => .ok table
  | (_, some d) => .error d

/-- The exported symbols. -/
def entries (table : SymbolTable) : List Symbol :=
  table.symbols.filter (·.isEntry)

end SymbolTable

end TwoPass
