import TwoPass.Command.Arguments
import TwoPass.Command.Sources
import TwoPass.Output.Files
import TwoPass.Report.Basic
import TwoPass.Settings.File

/-!
A run of the command line: settings, the source files of the path, one assembly for each, and a
closing summary.
-/
namespace TwoPass.Command

/-- What to write and print beside the object file. -/
structure Extras where
  expanded : Bool := false
  symbols : Bool := false
  debug : Bool := false

/-- The forms that a run does not settle itself: that of the file of a debug table, and that of a table with
a header and rows. -/
structure Formats where
  debugFile : DebugTable → Text
  table : List Text → List (List Text) → Text

variable {m : Type → Type} [Monad m] [Disk m]

/-- The path from the root. -/
def absolute (path : Text) : m Text := do
  if Path.isRooted path then return Path.normalize path
  else return Path.join (← Disk.workingDirectory) path

/-- The outcome of a step on disk, reported if it failed. -/
def settle (r : Report) (result : Except Disk.Fault Unit) (next : Report → m Report) : m Report :=
  match result with
  | .error f => return r.addError (Text.of "IO Error") f.message
  | .ok () => next r

/-- Writes and reports a program without errors. -/
def finish (formats : Formats) (settings : Settings) (extras : Extras) (path : Text) (a : Assembly)
    (r : Report) : m Report := do
  let paths := settings.outputPaths path
  settle r (← Output.saveProgram paths a.program) fun r => do
    let debug := { a.debug with source := ← absolute path }
    let saved ←
      if extras.debug then Output.saveDebug formats.debugFile paths.debug debug else pure (.ok ())
    settle r saved fun r => do
      let r :=
        if extras.symbols then r.addSymbols formats.table path a.program.symbols.symbols else r
      return r.addProgram path a.program

/-- Assembles the source text of a file and reports on it. -/
def assembleText (formats : Formats) (settings : Settings) (extras : Extras) (path text : Text)
    (r : Report) : m Report := do
  match Line.ofText? text with
  | none =>
    let d := Diagnostic.context (path ++ Text.of ": ") .lineTooLong
    return r.addError (Text.of "IO Error") d.message
  | some raw =>
    match Assembly.ofText text settings.macroLimit with
    | .error d => return r.addFile path raw [] [d] []
    | .ok (expanded, a) =>
      let r := r.addFile path raw expanded a.errors a.program.warnings
      let saved ←
        if extras.expanded then Output.saveExpanded (settings.outputPaths path).expanded expanded
        else pure (.ok ())
      settle r saved fun r => do
        if a.errors.isEmpty then finish formats settings extras path a r else return r

/-- Assembles one file. -/
def assembleAt (formats : Formats) (settings : Settings) (extras : Extras) (r : Report) (path : Text) :
    m Report := do
  match ← Disk.read path with
  | .error f => return r.addError (Text.of "IO Error") f.message
  | .ok text => assembleText formats settings extras path text r

/-- How a run ends: whether it succeeded, and what it printed. -/
structure Outcome where
  success : Bool
  printed : Text

/-- A run that could not start. -/
def refused (tag : String) (message : Text) : Outcome :=
  { success := false
    printed := (Report.addError { level := .error } (Text.of tag) message).text }

/-- A run that ends with its report. -/
def closed (r : Report) : Outcome :=
  { success := r.succeeded, printed := r.close.text }

/-- The directory for the output is made before any file is read. -/
def prepare (settings : Settings) : m (Except Disk.Fault Unit) :=
  if settings.outputDirectory.isEmpty then pure (.ok ())
  else Disk.ensureDirectory settings.outputDirectory

/-- Assembles all files of a path. -/
def assembleAll (formats : Formats) (settings : Settings) (extras : Extras) (path : Text)
    (level : LogLevel) : m Outcome := do
  let r : Report := { level }
  let tag := Text.of "Path Error"
  match ← sourcesAt path with
  | .error f => return closed (r.addError tag f.message)
  | .ok files =>
    match ← prepare settings with
    | .error f => return closed (r.addError tag f.message)
    | .ok () => return closed (← files.foldlM (assembleAt formats settings extras) r)

/-- The settings of a run, before the arguments change them. -/
def settingsFor (args : Arguments) : m (Except Settings.LoadFault Settings) :=
  match args.values.lookup .config with
  | some path => Settings.load path
  | none => Settings.loadFrom (Text.of ".")

/-- Runs the command line. -/
def run (formats : Formats) (args : List Text) : m Outcome := do
  match Arguments.ofList args with
  | .error f => return refused "CLI Usage Error" f.message
  | .ok args =>
    match ← settingsFor args with
    | .error f => return refused "Config Error" f.message
    | .ok settings =>
      let settings := { settings with
        logLevel := (args.values.lookup .logLevel).getD settings.logLevel
        outputDirectory := (args.values.lookup .out).getD settings.outputDirectory }
      match LogLevel.parse? settings.logLevel with
      | none => return refused "Config Error" (LogLevel.unknownMessage settings.logLevel)
      | some level =>
        let extras : Extras :=
          { expanded := args.flags.contains .expand
            symbols := args.flags.contains .symbols
            debug := args.flags.contains .debug }
        assembleAll formats settings extras args.path level

end TwoPass.Command
