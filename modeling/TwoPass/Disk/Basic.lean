import TwoPass.Path.Basic

/-!
The calls that a run makes on a file system, and how they fail.
-/
namespace TwoPass

namespace Disk

inductive Call where
  | stat | openFile | read | mkdir | remove
  deriving DecidableEq, Repr

def Call.name : Call → Text
  | .stat => Text.of "stat"
  | .openFile => Text.of "open"
  | .read => Text.of "read"
  | .mkdir => Text.of "mkdir"
  | .remove => Text.of "remove"

inductive Reason where
  | notFound | isDirectory | notDirectory | notEmpty | taken | invalid | tooLong
  | other (text : Text)
  deriving DecidableEq, Repr

def Reason.text : Reason → Text
  | .notFound => Text.of "no such file or directory"
  | .isDirectory => Text.of "is a directory"
  | .notDirectory => Text.of "not a directory"
  | .notEmpty => Text.of "directory not empty"
  | .taken => Text.of "file exists"
  | .invalid => Text.of "invalid argument"
  | .tooLong => Text.of "file name too long"
  | .other t => t

structure Fault where
  call : Call
  path : Text
  reason : Reason
  deriving DecidableEq, Repr

def Fault.message (f : Fault) : Text :=
  f.call.name ++ Text.of " " ++ f.path ++ Text.of ": " ++ f.reason.text

inductive FileKind where
  | file | directory
  deriving DecidableEq, Repr

end Disk

open Disk in
/-- A file system seen through the calls made on it. -/
class Disk (m : Type → Type) where
  workingDirectory : m Text
  kind : (path : Text) → m (Except Fault FileKind)
  read : (path : Text) → m (Except Fault Text)
  /-- Replaces the content of a file, which is made if it is missing. -/
  write : (path : Text) → (content : Text) → m (Except Fault Unit)
  /-- Removes a file or an empty directory. -/
  delete : (path : Text) → m (Except Fault Unit)
  makeDirectory : (path : Text) → m (Except Fault Unit)
  /-- The names in a directory, and none if it cannot be read. -/
  list : (path : Text) → m (List Text)

namespace Disk

variable {m : Type → Type} [Monad m] [Disk m]

/-- Makes the directories of a list that are missing, the last of the list first. The list holds a
path and then the paths above it, and what is above a directory that exists is not looked at. -/
def ensureAll : List Text → m (Except Fault Unit)
  | [] => pure (.ok ())
  | path :: above => do
    match ← Disk.kind path with
    | .ok .directory => pure (.ok ())
    | .ok .file => pure (.error ⟨.mkdir, path, .notDirectory⟩)
    | .error _ =>
      match ← ensureAll above with
      | .error f => pure (.error f)
      | .ok () =>
        match ← Disk.makeDirectory path with
        | .ok () => pure (.ok ())
        | .error f =>
          match ← Disk.kind path with
          | .ok .directory => pure (.ok ())
          | _ => pure (.error f)

/-- Makes a directory and those above it. -/
def ensureDirectory (path : Text) : m (Except Fault Unit) :=
  ensureAll (path :: Path.ancestors path)

/-- Removes what is at a path, if anything is. -/
def discard (path : Text) : m (Except Fault Unit) := do
  match ← Disk.delete path with
  | .error ⟨_, _, .notFound⟩ => pure (.ok ())
  | result => pure result

end Disk

end TwoPass
