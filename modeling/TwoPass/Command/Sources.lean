import TwoPass.Disk.Basic
import TwoPass.Path.Pattern

/-!
The source files that a path stands for: the file itself, or the source files right inside of a
directory. A directory path is a pattern in its turn.
-/
namespace TwoPass.Command

open Disk

inductive PathFault where
  | disk (f : Disk.Fault)
  | badPattern
  | noSources (path : Text)
  deriving DecidableEq, Repr

def PathFault.message : PathFault → Text
  | disk f => f.message
  | badPattern => Text.of "syntax error in pattern"
  | noSources path => Text.of "no .as files in " ++ path

variable {m : Type → Type} [Monad m] [Disk m]

/-- The paths in a directory whose names fit a pattern, or `none` if a name meets a malformed part of
it. What is no directory has none. -/
def namesFitting (pattern : Path.Pattern) (directory : Text) : m (Option (List Text)) := do
  match ← Disk.kind directory with
  | .ok .directory =>
    let names := (← Disk.list directory).mergeSort Text.le
    return (names.filterM pattern.fits?).map (·.map (Path.join directory))
  | _ => return some []

/-- The paths below the directories that fit a list of patterns, one for each name on the way. -/
def pathsFitting (directories : List Text) : List Path.Pattern → m (Option (List Text))
  | [] => return some directories
  | pattern :: patterns => do
    match (← directories.mapM (namesFitting pattern)).mapM id with
    | none => return none
    | some found => pathsFitting found.flatten patterns

/-- The paths that fit a pattern with slashes. Names in front that hold no special characters are
taken as they are. The pattern and those of the directories above it are checked first. -/
def glob (pattern : Text) : m (Except PathFault (List Text)) := do
  if (pattern :: Path.ancestors pattern).any Path.Pattern.isRefused then return .error .badPattern
  let names := Path.names pattern
  let plain := names.takeWhile (!·.any Path.isMeta)
  let base := Text.joinWith [Path.slash] plain
  let base := if Path.isRooted pattern then Path.slash :: base else base
  let base := if base.isEmpty then Text.of "." else base
  match ← pathsFitting [base] ((names.drop plain.length).map Path.Pattern.ofText) with
  | none => return .error .badPattern
  | some paths => return .ok paths

/-- The source files at a path, in the order of their paths. -/
def sourcesAt (path : Text) : m (Except PathFault (List Text)) := do
  match ← Disk.kind path with
  | .error f => return .error (.disk f)
  | .ok .file => return .ok [path]
  | .ok .directory =>
    match ← glob (Path.join path (Text.of "*.as")) with
    | .error f => return .error f
    | .ok [] => return .error (.noSources path)
    | .ok files => return .ok (files.mergeSort Text.le)

end TwoPass.Command
