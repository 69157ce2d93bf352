import TwoPass.Diagnostic
import TwoPass.Macro.Definition
import TwoPass.Macro.Substitution

/-!
The macros of a source file. Reading a file takes the blocks out of its lines, and expanding puts
the filled body in the place of each call. The lines that a call produces are not expanded again.
-/
namespace TwoPass.Macro

/-- The definitions so far, in the order of their blocks. -/
structure Library where
  limit : Int
  definitions : List Definition := []
  deriving DecidableEq, Repr

namespace Library

def defaultLimit : Int := 64

/-- A library without definitions. A limit below one means the default limit. -/
def empty (limit : Int) : Library :=
  { limit := if limit ≤ 0 then defaultLimit else limit }

def find? (lib : Library) (name : Text) : Option Definition :=
  lib.definitions.find? (·.name = name)

def add (lib : Library) (d : Definition) : Library :=
  { lib with definitions := lib.definitions ++ [d] }

/-- The definition that a header line opens, with no body yet. -/
def openBlock (lib : Library) (line : Line) : Except Diagnostic Definition :=
  let position := headerSpan line
  if lib.limit ≤ lib.definitions.length then .error (.tooManyMacros position lib.limit)
  else match readHeader (fun name => (lib.find? name).isSome) line.text with
    | .ok (name, params) => .ok { name, params, position }
    | .error fault => .error (.macroHeader position fault.reason)

/-- Takes the blocks out of the lines. `kept` holds the lines outside of blocks and `block` the
block that is open. Definitions that were closed before a fault stay. -/
def scanFrom (lib : Library) (kept : Array Line) (block : Option Definition) :
    List Line → Library × Except Diagnostic (List Line)
  | [] =>
    match block with
    | none => (lib, .ok kept.toList)
    | some d => (lib, .error (.missingEndm d.position d.name))
  | line :: lines =>
    match block with
    | some d =>
      if closesBlock line.text then scanFrom (lib.add d) kept none lines
      else scanFrom lib kept (some { d with body := d.body.push line.text }) lines
    | none =>
      if opensBlock line.text then
        match lib.openBlock line with
        | .ok d => scanFrom lib kept (some d) lines
        | .error e => (lib, .error e)
      else scanFrom lib (kept.push line) none lines

/-- Adds the blocks of the lines to the library and returns the lines outside of them. -/
def scan (lib : Library) (lines : List Line) : Library × Except Diagnostic (List Line) :=
  scanFrom lib #[] none lines

/-- The lines that stand in the place of one line. A call is a line whose first word is the name of
a macro, in the very letters of its definition. -/
def expandLine (lib : Library) (line : Line) : List Line :=
  let (name, rest) := line.text.word
  match lib.find? name with
  | none => [line]
  | some d =>
    let bindings := bind d.params (listItems rest)
    d.body.toList.map fun t => { number := line.number, text := substitute bindings t }

def expand (lib : Library) (lines : List Line) : List Line :=
  lines.flatMap lib.expandLine

end Library

/-- The lines of a file with its macros expanded. -/
def expandAll (lines : List Line) (limit : Int) : Except Diagnostic (List Line) :=
  match (Library.empty limit).scan lines with
  | (lib, .ok kept) => .ok (lib.expand kept)
  | (_, .error e) => .error e

end TwoPass.Macro
