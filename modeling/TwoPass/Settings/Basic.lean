import TwoPass.Path.Basic
import TwoPass.Report.Level
import TwoPass.Text.Decimal

/-!
Settings of a run, when they are usable, and where they put the output of a source file.
-/
namespace TwoPass

structure Settings where
  macroLimit : Int := 64
  /-- Empty if the output goes beside the source. -/
  outputDirectory : Text := []
  objectExt : Text := Text.of ".ob"
  entriesExt : Text := Text.of ".ent"
  externalsExt : Text := Text.of ".ext"
  expandedExt : Text := Text.of ".am"
  debugExt : Text := Text.of ".dbg"
  logLevel : Text := Text.of "verbose"
  deriving DecidableEq, Repr

/-- Where the files of one source file go. An empty path is skipped. -/
structure OutputPaths where
  object : Text := []
  entries : Text := []
  externals : Text := []
  expanded : Text := []
  debug : Text := []
  deriving DecidableEq, Repr

inductive Settings.Fault where
  | macroLimit (n : Int)
  | badExtension (name value : Text)
  | sharedExtension (first second value : Text)
  | logLevel (name : Text)
  deriving DecidableEq, Repr

def Settings.Fault.message : Fault → Text
  | macroLimit n => Text.of "max-macros must be at least 1, got " ++ Text.ofInt n
  | badExtension name value =>
    name ++ Text.of " must look like '.ext', got '" ++ value ++ Text.of "'"
  | sharedExtension first second value =>
    first ++ Text.of " and " ++ second ++ Text.of " are both '" ++ value ++ Text.of "'"
  | logLevel name => LogLevel.unknownMessage name

namespace Settings

/-- The extensions with the names of their settings. -/
def extensions (s : Settings) : List (Text × Text) :=
  [(Text.of "object-ext", s.objectExt),
    (Text.of "entries-ext", s.entriesExt),
    (Text.of "externals-ext", s.externalsExt),
    (Text.of "expanded-ext", s.expandedExt),
    (Text.of "debug-ext", s.debugExt)]

/-- An extension is a dot and something more, without slashes of either kind. -/
def isExtension (t : Text) : Bool :=
  2 ≤ t.length && t.head? = some '.'.toUInt8 &&
    !t.contains '/'.toUInt8 && !t.contains '\\'.toUInt8

/-- The first fault in a list of extensions. `seen` holds the settings before them. -/
def extensionFault? (seen : List (Text × Text)) : List (Text × Text) → Option Fault
  | [] => none
  | (name, value) :: rest =>
    if !isExtension value then some (.badExtension name value)
    else match seen.find? (·.2 = value) with
      | some (first, _) => some (.sharedExtension first name value)
      | none => extensionFault? ((name, value) :: seen) rest

/-- The first setting that cannot be used. -/
def fault? (s : Settings) : Option Fault :=
  if s.macroLimit < 1 then some (.macroLimit s.macroLimit)
  else match extensionFault? [] s.extensions with
    | some f => some f
    | none => if (LogLevel.parse? s.logLevel).isSome then none else some (.logLevel s.logLevel)

/-- The path of a source file without its extension, in the directory of its output. -/
def outputStem (s : Settings) (path : Text) : Text :=
  let directory := if s.outputDirectory.isEmpty then Path.parent path else s.outputDirectory
  Path.join directory (Path.splitExtension (Path.fileName path)).1

/-- Where the output of the source file at a path goes. -/
def outputPaths (s : Settings) (path : Text) : OutputPaths :=
  let stem := s.outputStem path
  { object := stem ++ s.objectExt
    entries := stem ++ s.entriesExt
    externals := stem ++ s.externalsExt
    expanded := stem ++ s.expandedExt
    debug := stem ++ s.debugExt }

end Settings

end TwoPass
