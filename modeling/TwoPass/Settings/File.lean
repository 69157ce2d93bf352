import TwoPass.Disk.Basic
import TwoPass.Settings.Basic
import TwoPass.Toml.Document

/-!
The settings file. Settings it leaves out keep their defaults.
-/
namespace TwoPass.Settings

inductive LoadFault where
  | malformed
  | unusable (f : Fault)
  | disk (f : Disk.Fault)
  deriving DecidableEq, Repr

def LoadFault.message : LoadFault → Text
  | malformed => Text.of "malformed settings"
  | unusable f => f.message
  | disk f => f.message

open Toml

/-- A setting is found under its lower-case name, or else under the same name in capitals. -/
def lookup? (entries : Entries) (lower upper : String) : Option Value :=
  match entries.lookup (Text.of lower) with
  | some v => some v
  | none => entries.lookup (Text.of upper)

/-- The settings of a section. A section that is missing has none. -/
def group? (entries : Entries) (lower upper : String) : Option Entries :=
  match lookup? entries lower upper with
  | none => some []
  | some (.table _ es) => some es
  | some _ => none

/-- A text setting. One that is missing is empty. -/
def text? (entries : Entries) (lower upper : String) : Option Text :=
  match lookup? entries lower upper with
  | none => some []
  | some (.text t) => some t
  | some _ => none

def integer? (entries : Entries) (lower upper : String) (default : Int) : Option Int :=
  match lookup? entries lower upper with
  | none => some default
  | some (.integer n) => some n
  | some _ => none

/-- A text that is empty does not replace the default. -/
def orElse (t default : Text) : Text :=
  if t.isEmpty then default else t

/-- The settings that a document gives, if each value is of its type. -/
def ofEntries? (entries : Entries) : Option Settings := do
  let assembler ← group? entries "assembler" "ASSEMBLER"
  let output ← group? entries "output" "OUTPUT"
  let log ← group? entries "log" "LOG"
  let d : Settings := {}
  return {
    macroLimit := ← integer? assembler "max-macros" "MAX-MACROS" d.macroLimit
    outputDirectory := ← text? output "directory" "DIRECTORY"
    objectExt := orElse (← text? output "object-ext" "OBJECT-EXT") d.objectExt
    entriesExt := orElse (← text? output "entries-ext" "ENTRIES-EXT") d.entriesExt
    externalsExt := orElse (← text? output "externals-ext" "EXTERNALS-EXT") d.externalsExt
    expandedExt := orElse (← text? output "expanded-ext" "EXPANDED-EXT") d.expandedExt
    debugExt := orElse (← text? output "debug-ext" "DEBUG-EXT") d.debugExt
    logLevel := orElse (← text? log "level" "LEVEL") d.logLevel }

/-- The settings in the text of a settings file. -/
def ofText (t : Text) : Except LoadFault Settings :=
  match (Toml.read? t).bind ofEntries? with
  | none => .error .malformed
  | some s =>
    match s.fault? with
    | some f => .error (.unusable f)
    | none => .ok s

def fileName : Text := Text.of "qasm.toml"

variable {m : Type → Type} [Monad m] [Disk m]

/-- Reads the settings file at a path. -/
def load (path : Text) : m (Except LoadFault Settings) := do
  match ← Disk.read path with
  | .error f => return .error (.disk f)
  | .ok t => return ofText t

/-- Reads the settings file of a directory, which may be missing. -/
def loadFrom (directory : Text) : m (Except LoadFault Settings) := do
  match ← load (Path.join directory fileName) with
  | .error (.disk ⟨_, _, .notFound⟩) => return .ok {}
  | result => return result

end TwoPass.Settings
