import TwoPass.Disk.Basic

/-!
A file system held in memory. Files and directories are listed by their location, the names on the
way down from the root.
-/
namespace TwoPass

inductive FileTree.Node where
  | file (content : Text)
  | directory
  deriving DecidableEq, Repr

/-- The root and the working directory need not be listed. No location is listed twice, and all have names that
lead somewhere. -/
structure FileTree where
  nodes : List (List Text × FileTree.Node) := []
  current : List Text := []
  nodup : (nodes.map Prod.fst).Nodup := by decide
  isName : ∀ loc ∈ current :: nodes.map Prod.fst, ∀ name ∈ loc, Path.IsName name := by decide
  deriving DecidableEq, Repr

namespace FileTree

open Disk

abbrev Location := List Text

def get? (t : FileTree) (loc : Location) : Option Node :=
  if loc.isPrefixOf t.current then some .directory else t.nodes.lookup loc

def erase (t : FileTree) (loc : Location) : FileTree :=
  { t with
    nodes := t.nodes.filter (·.1 ≠ loc)
    nodup := t.nodup.sublist (List.filter_sublist.map _)
    isName := fun l hl => t.isName l (((List.filter_sublist.map _).cons_cons _).subset hl) }

/-- Puts a node at a location. Nothing can be put under a name that leads nowhere. -/
def set (t : FileTree) (loc : Location) (node : Node) : FileTree :=
  if hloc : ∀ name ∈ loc, Path.IsName name then
    { t with
      nodes := (t.erase loc).nodes ++ [(loc, node)]
      nodup := by
        have hnew : ∀ l ∈ (t.erase loc).nodes.map Prod.fst, l ≠ loc := by simp [erase]
        simpa [List.nodup_append] using ⟨(t.erase loc).nodup, by simpa using hnew⟩
      isName := by
        intro l hl
        rw [List.map_append, ← List.cons_append] at hl
        rcases List.mem_append.mp hl with hl | hl
        · exact (t.erase loc).isName l hl
        · exact List.mem_singleton.mp hl ▸ hloc }
  else t

/-- The names in a directory. -/
def children (t : FileTree) (loc : Location) : List Text :=
  t.nodes.filterMap fun (l, _) => if l.dropLast = loc then l.getLast? else none

/-- Whether a directory can be removed: nothing is in it, and the working directory is not reached
through it. -/
def isVacant (t : FileTree) (loc : Location) : Bool :=
  (t.children loc).isEmpty && !loc.isPrefixOf t.current

/-- A name has at most this many bytes. -/
def nameLimit : Nat := 255

/-- A path has fewer bytes than this. -/
def pathLimit : Nat := 4096

/-- What every call asks of a path before it looks at the tree. -/
def checkPath (path : Text) : Except Reason Unit :=
  if path.contains 0 then .error .invalid
  else if path.isEmpty then .error .notFound
  else if path.length < pathLimit then .ok ()
  else .error .tooLong

/-- The node of a name in a directory. -/
def child (t : FileTree) (loc : Location) (name : Text) : Except Reason (Option Node) :=
  if name.length ≤ nameLimit then .ok (t.get? (loc ++ [name])) else .error .tooLong

/-- Goes one name down from a location, which has to be a directory. -/
def step (t : FileTree) (loc : Location) (name : Text) : Except Reason Location :=
  match t.get? loc with
  | none => .error .notFound
  | some (.file _) => .error .notDirectory
  | some .directory =>
    if name = Text.of "." then .ok loc
    else if name = Text.of ".." then .ok loc.dropLast
    else match t.child loc name with
      | .error reason => .error reason
      | .ok none => .error .notFound
      | .ok (some _) => .ok (loc ++ [name])

def start (t : FileTree) (path : Text) : Location :=
  if Path.isRooted path then [] else t.current

def endsInSlash (path : Text) : Bool :=
  path.getLast? = some Path.slash

/-- The location and the node at a path. -/
def find (t : FileTree) (path : Text) : Except Reason (Location × Node) := do
  checkPath path
  let loc ← (Path.names path).foldlM t.step (t.start path)
  match t.get? loc with
  | none => throw .notFound
  | some (.file content) =>
    if endsInSlash path then throw .notDirectory else return (loc, .file content)
  | some .directory => return (loc, .directory)

/-- The directory in which the last name of a path stands, and that name. The root has no name. -/
def findParent (t : FileTree) (path : Text) : Except Reason (Location × Option Text) := do
  checkPath path
  let names := Path.names path
  let loc ← names.dropLast.foldlM t.step (t.start path)
  match t.get? loc with
  | none => throw .notFound
  | some (.file _) => throw .notDirectory
  | some .directory => return (loc, names.getLast?)

/-- Whether a name leads to a directory without being the name of one. -/
def isDots (name : Text) : Bool :=
  name = Text.of "." || name = Text.of ".."

/-- The location at which a file can be written. -/
def writable (t : FileTree) (path : Text) : Except Reason Location := do
  match ← t.findParent path with
  | (_, none) => throw .isDirectory
  | (loc, some name) =>
    if isDots name || endsInSlash path then throw .isDirectory
    else match ← t.child loc name with
      | some .directory => throw .isDirectory
      | _ => return loc ++ [name]

/-- The location of a file or an empty directory. -/
def removable (t : FileTree) (path : Text) : Except Reason Location := do
  match ← t.findParent path with
  | (_, none) => throw (.other (Text.of "device or resource busy"))
  | (loc, some name) =>
    if name = Text.of "." then throw .invalid
    else if name = Text.of ".." then throw .notEmpty
    else match ← t.child loc name with
      | none => throw .notFound
      | some (.file _) =>
        if endsInSlash path then throw .notDirectory else return loc ++ [name]
      | some .directory =>
        if t.isVacant (loc ++ [name]) then return loc ++ [name] else throw .notEmpty

/-- The location at which a directory can be made. -/
def makeable (t : FileTree) (path : Text) : Except Reason Location := do
  match ← t.findParent path with
  | (_, none) => throw .taken
  | (loc, some name) =>
    if isDots name then throw .taken
    else match ← t.child loc name with
      | some _ => throw .taken
      | none => return loc ++ [name]

/-- The result of a call, with the reason of a failure tied to the call and its path. -/
def answer (call : Call) (path : Text) : Except Reason α → Except Fault α
  | .ok a => .ok a
  | .error reason => .error ⟨call, path, reason⟩

/-- Changes the tree at a location, or leaves it. -/
def change (call : Call) (path : Text) (result : Except Reason Location)
    (f : Location → FileTree) (t : FileTree) : Except Fault Unit × FileTree :=
  match result with
  | .ok loc => (.ok (), f loc)
  | .error reason => (.error ⟨call, path, reason⟩, t)

def kind (t : FileTree) (path : Text) : Except Fault FileKind :=
  answer .stat path <| (t.find path).map fun
    | (_, .file _) => .file
    | (_, .directory) => .directory

def read (t : FileTree) (path : Text) : Except Fault Text := do
  match ← answer .openFile path (t.find path) with
  | (_, .file content) => return content
  | (_, .directory) => throw ⟨.read, path, .isDirectory⟩

def write (path content : Text) (t : FileTree) : Except Fault Unit × FileTree :=
  change .openFile path (t.writable path) (fun loc => t.set loc (.file content)) t

def delete (path : Text) (t : FileTree) : Except Fault Unit × FileTree :=
  change .remove path (t.removable path) t.erase t

def makeDirectory (path : Text) (t : FileTree) : Except Fault Unit × FileTree :=
  change .mkdir path (t.makeable path) (fun loc => t.set loc .directory) t

def list (t : FileTree) (path : Text) : List Text :=
  match t.find path with
  | .ok (loc, .directory) => t.children loc
  | _ => []

def workingDirectory (t : FileTree) : Text :=
  Path.slash :: Text.joinWith [Path.slash] t.current

instance : Disk (StateM FileTree) where
  workingDirectory := return (← get).workingDirectory
  kind path := return (← get).kind path
  read path := return (← get).read path
  write path content := modifyGet (write path content)
  delete path := modifyGet (delete path)
  makeDirectory path := modifyGet (makeDirectory path)
  list path := return (← get).list path

end FileTree

end TwoPass
