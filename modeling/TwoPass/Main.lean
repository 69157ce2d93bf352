import TwoPass.Command.Run
import TwoPass.Output.DebugFile
import TwoPass.Report.Table

/-!
The command line on the file system of the machine.
-/
namespace TwoPass.Main

def formats : Command.Formats where
  debugFile := DebugTable.toFile
  table := Report.renderTable

def toPath (t : Text) : String :=
  String.ofList t.charsLossy

def reason : IO.Error → Disk.Reason
  | .noFileOrDirectory .. => .notFound
  | .inappropriateType _ 21 _ => .isDirectory
  | .inappropriateType .. => .notDirectory
  | .alreadyExists .. => .taken
  | .unsatisfiedConstraints .. => .notEmpty
  | .invalidArgument _ 36 _ => .tooLong
  | .invalidArgument .. => .invalid
  | e => .other (Text.of (toString e))

/-- Makes a call, and ties a failure to it. -/
def attempt (call : Disk.Call) (path : Text) (action : IO α) : IO (Except Disk.Fault α) := do
  try
    return .ok (← action)
  catch e =>
    return .error ⟨call, path, reason e⟩

def isDirectory (path : Text) : IO Bool := do
  return (← (← IO.FS.realPath (toPath path)).metadata).type == .dir

def readBytes (path : Text) : IO Text := do
  return (← IO.FS.readBinFile (toPath path)).toList

/-- Removes a file, or else an empty directory. -/
def deletePath (path : Text) : IO (Except Disk.Fault Unit) := do
  match ← attempt .remove path (IO.FS.removeFile (toPath path)) with
  | .ok () => return .ok ()
  | .error first =>
    match ← attempt .remove path (IO.FS.removeDir (toPath path)) with
    | .ok () => return .ok ()
    | .error ⟨_, _, .notDirectory⟩ => return .error first
    | .error second => return .error second

instance : Disk IO where
  workingDirectory := return Text.of (← IO.currentDir).toString
  kind path := attempt .stat path do
    return if ← isDirectory path then .directory else .file
  read path := do
    match ← attempt .openFile path (isDirectory path) with
    | .error f => return .error f
    | .ok directory =>
      if directory then return .error ⟨.read, path, .isDirectory⟩
      else attempt .openFile path (readBytes path)
  write path content :=
    attempt .openFile path (IO.FS.writeBinFile (toPath path) ⟨content.toArray⟩)
  delete path := deletePath path
  makeDirectory path := attempt .mkdir path (IO.FS.createDir (toPath path))
  list path := do
    try
      return (← (← IO.FS.realPath (toPath path)).readDir).toList.map fun e => Text.of e.fileName
    catch _ =>
      return []

end TwoPass.Main

def main (args : List String) : IO UInt32 := do
  let outcome : TwoPass.Command.Outcome ←
    TwoPass.Command.run TwoPass.Main.formats (args.map TwoPass.Text.of)
  let err ← IO.getStderr
  err.write ⟨outcome.printed.toArray⟩
  return if outcome.success then 0 else 1
