import TwoPass.Assembly.Program
import TwoPass.Report.Excerpt
import TwoPass.Report.Level

/-!
The report of a run: what was printed, and how many errors and warnings there were. Counts do not
depend on the log level.
-/
namespace TwoPass

structure Report where
  level : LogLevel
  /-- The width of the terminal. -/
  width : Int := 80
  errors : Nat := 0
  warnings : Nat := 0
  printed : Array Text := #[]

namespace Report

/-- Prints a message if the level covers the one it is meant for. -/
def print (r : Report) (needed : LogLevel) (t : Text) : Report :=
  if r.level.covers needed then { r with printed := r.printed.push t } else r

def printAll (r : Report) (needed : LogLevel) (ts : List Text) : Report :=
  ts.foldl (fun r t => r.print needed t) r

/-- A message behind its tag. -/
def tagged (tag text : Text) : Text :=
  tag ++ Text.of " " ++ text ++ Text.of "\n"

/-- Reports the diagnostics of one source file, with the lines it was read as and the lines after
macro expansion. -/
def addFile (r : Report) (path : Text) (raw expanded : List Line)
    (errors warnings : List Diagnostic) : Report :=
  let listing := Listing.ofLines raw expanded
  let r := r.printAll .error (errors.map fun d => display r.width path listing (errorTitle d) d)
  let r := r.printAll .warning (warnings.map (display r.width path listing warningTitle))
  { r with errors := r.errors + errors.length, warnings := r.warnings + warnings.length }

/-- Reports an error that belongs to no source line. -/
def addError (r : Report) (tag text : Text) : Report :=
  { r with errors := r.errors + 1 }.print .error (tagged tag text)

def addInfo (r : Report) (tag text : Text) : Report :=
  r.print .verbose (tagged tag text)

/-- The size of an assembled program. -/
def programSize (path : Text) (p : Program) : Text :=
  path ++ Text.of " (" ++ Text.ofNat p.instructions.length ++ Text.of " instruction words, " ++
    Text.ofNat p.data.length ++ Text.of " data words, ends at " ++ Text.ofNat p.endAddress ++
    Text.of ")"

def addProgram (r : Report) (path : Text) (p : Program) : Report :=
  r.addInfo (Text.of "Assembled") (programSize path p)

/-! ## Symbols -/

def symbolHeader : List Text :=
  [Text.of "Name", Text.of "Address", Text.of "Kind", Text.of "Entry"]

def kindName : Symbol.Kind → Text
  | .code => Text.of "code"
  | .data => Text.of "data"
  | .external => Text.of "external"

def symbolRow (s : Symbol) : List Text :=
  [s.name, Base4.encode s.address, kindName s.kind, if s.isEntry then Text.of "yes" else []]

/-- The symbols of a source file as a table, which `render` draws from a header and rows of cells. -/
def symbolTable (render : List Text → List (List Text) → Text) (path : Text) (symbols : List Symbol) :
    Text :=
  tagged (Text.of "Symbols") path ++ render symbolHeader (symbols.map symbolRow) ++ Text.of "\n"

def addSymbols (render : List Text → List (List Text) → Text) (r : Report) (path : Text)
    (symbols : List Symbol) : Report :=
  r.print .verbose (symbolTable render path symbols)

/-! ## Summary -/

def countOf (n : Nat) (noun : String) : Text :=
  Text.ofNat n ++ Text.of " " ++ Text.of noun ++ if n = 1 then [] else Text.of "s"

/-- The closing summary. -/
def summary (errors warnings : Nat) : Text :=
  Text.of (if errors = 0 then "\nAll done! (" else "\nOh no! (") ++ countOf errors "error" ++
    Text.of ", " ++ countOf warnings "warning" ++ Text.of ")\n"

def succeeded (r : Report) : Bool :=
  r.errors = 0

def close (r : Report) : Report :=
  r.print .error (summary r.errors r.warnings)

/-- All that was printed. -/
def text (r : Report) : Text :=
  r.printed.toList.flatten

end Report

end TwoPass
