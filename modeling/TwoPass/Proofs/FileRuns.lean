import TwoPass.Command.Run
import TwoPass.Proofs.FileTrees
import TwoPass.Proofs.LogLevels

/-!
Runs over several source files. What is written for a source file and what is counted for it depends on
that file alone, so the order of the files does not matter as long as their output keeps apart.
-/
namespace TwoPass

open FileTree

/-! ## Output -/

namespace Output

variable {t : FileTree}

/-- A file that is written. -/
def savedAt (t : FileTree) (path content : Text) : Edit :=
  (t.place path, some (.file content))

/-- The file of a stream, which is not there without lines. -/
def streamAt (t : FileTree) (path : Text) (s : Stream) : Edit :=
  (t.place path, if s.isEmpty then none else some (.file s.text))

def programEdits (t : FileTree) (paths : OutputPaths) (p : Program) : List Edit :=
  [savedAt t paths.object (Stream.object p).text, streamAt t paths.entries (Stream.entries p),
    streamAt t paths.externals (Stream.externals p)]

theorem does_save {path : Text} (h : t.IsWritable path) (content : Text) :
    t.Does (save path content) (.ok ()) [savedAt t path content] := by
  rw [save, if_neg (by simpa using h.ne_nil)]
  exact does_write h.eq_ok content

theorem does_saveOrDiscard {path : Text} (h : t.IsWritable path) (s : Stream) :
    t.Does (saveOrDiscard path s) (.ok ()) [streamAt t path s] := by
  rw [saveOrDiscard, if_neg (by simpa using h.ne_nil), streamAt]
  split
  · exact does_discard h.eq_ok
  · exact does_write h.eq_ok s.text

theorem does_saveProgram {paths : OutputPaths} (hobject : t.IsWritable paths.object)
    (hentries : t.IsWritable paths.entries) (hexternals : t.IsWritable paths.externals) (p : Program) :
    t.Does (saveProgram paths p) (.ok ()) (programEdits t paths p) :=
  (does_save hobject _).bind ((does_saveOrDiscard hentries _).bind (does_saveOrDiscard hexternals _))

end Output

namespace Command

variable {t : FileTree} {formats : Formats} {settings : Settings} {extras : Extras} {path : Text}

/-! ## One file -/

/-- The paths that may be written to for a source file. -/
def outputs (settings : Settings) (extras : Extras) (path : Text) : List Text :=
  let paths := settings.outputPaths path
  [paths.object, paths.entries, paths.externals] ++ (if extras.expanded then [paths.expanded] else []) ++
    if extras.debug then [paths.debug] else []

/-- What one source file comes to: the edits made for it, and what is counted for it. -/
structure Task where
  edits : List Edit := []
  errors : Nat := 0
  warnings : Nat := 0

def absoluteIn (t : FileTree) (path : Text) : Text :=
  if Path.isRooted path then Path.normalize path else Path.join t.workingDirectory path

def expandedEdits (t : FileTree) (settings : Settings) (extras : Extras) (path : Text) (lines : List Line) :
    List Edit :=
  if extras.expanded then
    [Output.savedAt t (settings.outputPaths path).expanded (Stream.expanded lines).text]
  else []

def debugEdits (t : FileTree) (formats : Formats) (settings : Settings) (extras : Extras) (path : Text)
    (a : Assembly) : List Edit :=
  if extras.debug then
    let table := { a.debug with source := absoluteIn t path }
    [Output.savedAt t (settings.outputPaths path).debug (formats.debugFile table)]
  else []

def finishEdits (t : FileTree) (formats : Formats) (settings : Settings) (extras : Extras) (path : Text)
    (a : Assembly) : List Edit :=
  Output.programEdits t (settings.outputPaths path) a.program ++ debugEdits t formats settings extras path a

/-- The task of a source text. -/
def task (t : FileTree) (formats : Formats) (settings : Settings) (extras : Extras) (path text : Text) : Task :=
  match Line.ofText? text with
  | none => { errors := 1 }
  | some _ =>
    match Assembly.ofText text settings.macroLimit with
    | .error _ => { errors := 1 }
    | .ok (expanded, a) =>
      { edits := expandedEdits t settings extras path expanded ++
          if a.errors.isEmpty then finishEdits t formats settings extras path a else []
        errors := a.errors.length
        warnings := a.program.warnings.length }

/-- A step of a run that does a task, whatever was reported before. -/
def Performs (t : FileTree) (x : Report → StateM FileTree Report) (task : Task) : Prop :=
  ∀ r, ∃ r', t.Does (x r) r' task.edits ∧ r'.errors = r.errors + task.errors ∧
    r'.warnings = r.warnings + task.warnings

theorem does_absolute (path : Text) : t.Does (absolute path) (absoluteIn t path) [] := by
  unfold absolute absoluteIn
  split
  · exact does_pure _
  · exact does_workingDirectory.bind (does_pure _)

/-- A file that is only written if it is asked for. -/
theorem does_optional {wanted : Bool} {x : StateM FileTree (Except Disk.Fault Unit)} {edits : List Edit}
    (hx : wanted = true → t.Does x (.ok ()) edits) {f : Except Disk.Fault Unit → StateM FileTree Report}
    {r : Report} {edits' : List Edit} (hf : t.Does (f (.ok ())) r edits') :
    t.Does (if wanted then x >>= f else pure (.ok ()) >>= f) r ((if wanted then edits else []) ++ edits') := by
  cases wanted with
  | true => exact (hx rfl).bind hf
  | false => exact (does_pure _).bind hf

section
variable (hout : ∀ p ∈ outputs settings extras path, t.IsWritable p)
include hout

theorem performs_finish (a : Assembly) :
    Performs t (finish formats settings extras path a) { edits := finishEdits t formats settings extras path a } := by
  intro r
  have hobject : t.IsWritable (settings.outputPaths path).object := hout _ (by simp [outputs])
  have hentries : t.IsWritable (settings.outputPaths path).entries := hout _ (by simp [outputs])
  have hexternals : t.IsWritable (settings.outputPaths path).externals := hout _ (by simp [outputs])
  have hdebug : extras.debug = true → t.IsWritable (settings.outputPaths path).debug :=
    fun hflag => hout _ (by simp [outputs, hflag])
  have hedits : finishEdits t formats settings extras path a =
      Output.programEdits t (settings.outputPaths path) a.program ++
        ([] ++ (debugEdits t formats settings extras path a ++ [])) := by
    rw [List.append_nil, List.nil_append, finishEdits]
  refine ⟨(if extras.symbols then r.addSymbols formats.table path a.program.symbols.symbols else r).addProgram
    path a.program, ?_, ?_⟩
  · rw [hedits]
    refine (Output.does_saveProgram hobject hentries hexternals a.program).bind ((does_absolute path).bind ?_)
    exact does_optional (fun hflag => Output.does_save (hdebug hflag) _) (does_pure _)
  · rw [(Report.counts_addProgram _ path a.program).1, (Report.counts_addProgram _ path a.program).2]
    split
    · exact Report.counts_addSymbols r _ path _
    · exact ⟨rfl, rfl⟩

/-- Only a program without errors is written. -/
theorem performs_finish_of_isEmpty (a : Assembly) :
    Performs t (fun r => if a.errors.isEmpty then finish formats settings extras path a r else pure r)
      { edits := if a.errors.isEmpty then finishEdits t formats settings extras path a else [] } := by
  split
  · exact performs_finish hout a
  · exact fun r => ⟨r, does_pure r, rfl, rfl⟩

theorem performs_assembleText (text : Text) :
    Performs t (assembleText formats settings extras path text) (task t formats settings extras path text) := by
  intro r
  unfold assembleText task
  cases Line.ofText? text with
  | none => exact ⟨_, does_pure _, r.counts_addError _ _⟩
  | some raw =>
      cases Assembly.ofText text settings.macroLimit with
      | error d => exact ⟨_, does_pure _, r.counts_addFile path raw [] [d] []⟩
      | ok result =>
          obtain ⟨expanded, a⟩ := result
          have hexpanded : extras.expanded = true → t.IsWritable (settings.outputPaths path).expanded :=
            fun hflag => hout _ (by simp [outputs, hflag])
          obtain ⟨herrors, hwarnings⟩ := r.counts_addFile path raw expanded a.errors a.program.warnings
          obtain ⟨r', hdone, herrors', hwarnings'⟩ := performs_finish_of_isEmpty hout a
            (r.addFile path raw expanded a.errors a.program.warnings)
          refine ⟨r', ?_, herrors'.trans herrors, hwarnings'.trans hwarnings⟩
          exact does_optional (fun hflag => Output.does_save (hexpanded hflag) _) hdone

end

theorem mem_outputs_of_mem_finishEdits {a : Assembly} {e : Edit}
    (h : e ∈ finishEdits t formats settings extras path a) : ∃ p ∈ outputs settings extras path, e.1 = t.place p := by
  rcases List.mem_append.mp h with h | h
  · simp only [Output.programEdits, List.mem_cons, List.not_mem_nil, or_false] at h
    rcases h with rfl | rfl | rfl
    · exact ⟨(settings.outputPaths path).object, by simp [outputs], rfl⟩
    · exact ⟨(settings.outputPaths path).entries, by simp [outputs], rfl⟩
    · exact ⟨(settings.outputPaths path).externals, by simp [outputs], rfl⟩
  · unfold debugEdits at h
    split at h
    · rename_i hflag
      rw [List.mem_singleton.mp h]
      exact ⟨(settings.outputPaths path).debug, by simp [outputs, hflag], rfl⟩
    · cases h

/-- The edits of a task are made in the places of the output. -/
theorem mem_outputs_of_mem_edits {text : Text} {e : Edit} (h : e ∈ (task t formats settings extras path text).edits) :
    ∃ p ∈ outputs settings extras path, e.1 = t.place p := by
  unfold task at h
  cases hraw : Line.ofText? text with
  | none => simp [hraw] at h
  | some raw =>
      cases hresult : Assembly.ofText text settings.macroLimit with
      | error d => simp [hraw, hresult] at h
      | ok result =>
          simp only [hraw, hresult, List.mem_append] at h
          rcases h with h | h
          · unfold expandedEdits at h
            split at h
            · rename_i hflag
              rw [List.mem_singleton.mp h]
              exact ⟨(settings.outputPaths path).expanded, by simp [outputs, hflag], rfl⟩
            · cases h
          · split at h
            · exact mem_outputs_of_mem_finishEdits h
            · cases h

/-! ## Several files -/

/-- The task of a source file. -/
def taskAt (t : FileTree) (formats : Formats) (settings : Settings) (extras : Extras) (path : Text) : Task :=
  match t.read path with
  | .ok text => task t formats settings extras path text
  | .error _ => { errors := 1 }

/-- The end of a run that did some tasks one after the other, begun with a report and a tree. -/
structure Did (t : FileTree) (tasks : List Task) (r : Report) (t' : FileTree) (done : Report × FileTree) :
    Prop where
  same : t.SameDirectories done.2
  nodes : done.2.node? = edited t'.node? (tasks.flatMap (·.edits))
  errors : done.1.errors = r.errors + (tasks.map (·.errors)).sum
  warnings : done.1.warnings = r.warnings + (tasks.map (·.warnings)).sum

theorem Did.trans {tasks tasks' : List Task} {r : Report} {t' : FileTree} {done done' : Report × FileTree}
    (h : Did t tasks r t' done) (h' : Did t tasks' done.1 done.2 done') : Did t (tasks ++ tasks') r t' done' where
  same := h'.same
  nodes := by rw [h'.nodes, h.nodes, List.flatMap_append, edited_append]
  errors := by rw [h'.errors, h.errors, List.map_append, List.sum_append, Nat.add_assoc]
  warnings := by rw [h'.warnings, h.warnings, List.map_append, List.sum_append, Nat.add_assoc]

theorem not_mem_edits {loc : Location} (h : ∀ p ∈ outputs settings extras path, loc ≠ t.place p) :
    loc ∉ (taskAt t formats settings extras path).edits.map Prod.fst := by
  intro hloc
  obtain ⟨e, he, rfl⟩ := List.mem_map.mp hloc
  unfold taskAt at he
  cases hcontent : t.read path with
  | error fault => simp [hcontent] at he
  | ok text =>
      simp only [hcontent] at he
      obtain ⟨p, hp, heq⟩ := mem_outputs_of_mem_edits he
      exact h p hp heq

/-- The report and the tree after the files of a list, one after the other. -/
def runOn (formats : Formats) (settings : Settings) (extras : Extras) (level : LogLevel) (files : List Text)
    (t : FileTree) : Report × FileTree :=
  (files.foldlM (assembleAt formats settings extras) { level } : StateM FileTree Report).run t

/-- The trees of single runs put together: in the place of an output file stands what the run of its source
file leaves there. -/
def combined (t : FileTree) (formats : Formats) (settings : Settings) (extras : Extras) (level : LogLevel)
    (files : List Text) : Location → Option Node :=
  fun loc =>
    match files.find? fun f => (outputs settings extras f).any (t.place · = loc) with
    | some f => (runOn formats settings extras level [f] t).2.node? loc
    | none => t.node? loc

theorem did_assembleAt (formats : Formats) (hread : (t.read path).isOk = true)
    (hout : ∀ p ∈ outputs settings extras path, t.IsWritable p) (r : Report) {t' : FileTree}
    (h : t.SameDirectories t') (hnode : t'.node? (t.place path) = t.node? (t.place path)) :
    Did t [taskAt t formats settings extras path] r t'
      ((assembleAt formats settings extras r path : StateM FileTree Report).run t') := by
  unfold taskAt
  cases hcontent : t.read path with
  | error fault => simp [hcontent, Except.isOk, Except.toBool] at hread
  | ok text =>
      have hstart : (Disk.read path : StateM FileTree _).run t' = (.ok text, t') := by
        change (t'.read path, t') = _
        rw [h.read hcontent hnode]
      have hrun : (assembleAt formats settings extras r path : StateM FileTree Report).run t' =
          (assembleText formats settings extras path text r : StateM FileTree Report).run t' := by
        rw [assembleAt, StateT.run_bind, hstart]
        rfl
      obtain ⟨r', hdoes, herrors, hwarnings⟩ := performs_assembleText hout text r
      obtain ⟨t'', hend, hsame, hnodes⟩ := hdoes t' h
      rw [hrun, hend]
      exact ⟨hsame, by simpa using hnodes, by simpa using herrors, by simpa using hwarnings⟩

section
variable {files : List Text} (hread : ∀ f ∈ files, (t.read f).isOk = true)
  (hout : ∀ f ∈ files, ∀ p ∈ outputs settings extras f, t.IsWritable p)
  (hsource : ∀ f ∈ files, ∀ p ∈ outputs settings extras f, ∀ g ∈ files, t.place p ≠ t.place g)
  (formats : Formats)
include hread hout hsource

/-- No task changes a source file, so each file is read as it was before the run. -/
theorem did_foldlM {order : List Text} (horder : ∀ f ∈ order, f ∈ files) (r : Report) {t' : FileTree}
    (h : t.SameDirectories t') (hnodes : ∀ f ∈ files, t'.node? (t.place f) = t.node? (t.place f)) :
    Did t (order.map (taskAt t formats settings extras)) r t'
      ((order.foldlM (assembleAt formats settings extras) r : StateM FileTree Report).run t') := by
  induction order generalizing r t' with
  | nil => exact ⟨h, rfl, rfl, rfl⟩
  | cons f order ih =>
      obtain ⟨hf, horder⟩ := List.forall_mem_cons.mp horder
      have hfirst := did_assembleAt formats (hread f hf) (hout f hf) r h (hnodes f hf)
      refine hfirst.trans (ih horder _ hfirst.same fun g hg => ?_)
      rw [hfirst.nodes, List.flatMap_singleton, edited_of_not_mem, hnodes g hg]
      exact not_mem_edits fun p hp => (hsource f hf p hp g hg).symm

theorem did_runOn {order : List Text} (horder : ∀ f ∈ order, f ∈ files) (level : LogLevel) :
    Did t (order.map (taskAt t formats settings extras)) { level } t (runOn formats settings extras level order t) :=
  did_foldlM hread hout hsource formats horder _ (SameDirectories.refl t) fun _ _ => rfl

theorem counts_runOn {order : List Text} (horder : ∀ f ∈ order, f ∈ files) (level : LogLevel) :
    (runOn formats settings extras level order t).1.errors =
        (order.map fun f => (taskAt t formats settings extras f).errors).sum ∧
      (runOn formats settings extras level order t).1.warnings =
        (order.map fun f => (taskAt t formats settings extras f).warnings).sum := by
  have hdid := did_runOn hread hout hsource formats horder level
  rw [hdid.errors, hdid.warnings, List.map_map, List.map_map]
  exact ⟨Nat.zero_add _, Nat.zero_add _⟩

/-- A place is edited for one source file at most, and the others leave it alone. -/
theorem node?_runOn (hapart : ∀ f ∈ files, ∀ g ∈ files, f ≠ g → ∀ p ∈ outputs settings extras f,
      ∀ q ∈ outputs settings extras g, t.place p ≠ t.place q)
    {order : List Text} (horder : order.Perm files) (hnodup : files.Nodup) (level : LogLevel) :
    (runOn formats settings extras level order t).2.node? = combined t formats settings extras level files := by
  have hmem : ∀ f ∈ order, f ∈ files := fun f hf => horder.mem_iff.mp hf
  funext loc
  rw [(did_runOn hread hout hsource formats hmem level).nodes, List.flatMap_map, combined]
  split
  · rename_i f hfind
    have hf : f ∈ files := List.mem_of_find?_eq_some hfind
    have hf' : ∀ g ∈ [f], g ∈ files := by simpa using hf
    have hany := List.find?_some hfind
    obtain ⟨p, hp, hplace⟩ := List.any_eq_true.mp hany
    rw [(did_runOn hread hout hsource formats hf' level).nodes, List.flatMap_map, List.flatMap_singleton]
    refine edited_flatMap (horder.nodup_iff.mpr hnodup) (horder.mem_iff.mpr hf) (fun g hg hne => ?_) t.node?
    refine not_mem_edits fun q hq => ?_
    rw [← of_decide_eq_true hplace]
    exact (hapart g (hmem g hg) f hf hne q hq p hp).symm
  · rename_i hfind
    rw [edited_of_not_mem]
    intro hin
    obtain ⟨e, he, rfl⟩ := List.mem_map.mp hin
    obtain ⟨f, hf, he⟩ := List.mem_flatMap.mp he
    refine not_mem_edits (fun p hp heq => ?_) (List.mem_map_of_mem he)
    exact List.find?_eq_none.mp hfind f (hmem f hf) (List.any_eq_true.mpr ⟨p, hp, decide_eq_true heq.symm⟩)

end

/-- A count that is a sum over the files is the sum of the counts of single files. -/
theorem sum_alone {count : List Text → Nat} {weight : Text → Nat} {files order : List Text}
    (h : ∀ l, (∀ f ∈ l, f ∈ files) → count l = (l.map weight).sum) (horder : order.Perm files) :
    count order = (files.map fun f => count [f]).sum := by
  rw [h order fun f hf => horder.mem_iff.mp hf, (horder.map weight).sum_eq]
  refine congrArg List.sum (List.map_congr_left fun f hf => ?_)
  have hf' : ∀ g ∈ [f], g ∈ files := by simpa using hf
  rw [h [f] hf', List.map_singleton, List.sum_singleton]

/-! ## Other forms of debug files -/

/-- Two nodes that are the same, or in the place of a debug file the files of one table in two forms. -/
inductive Alike (formats formats' : Formats) (isDebug : Prop) : Option Node → Option Node → Prop
  | same (node? : Option Node) : Alike formats formats' isDebug node? node?
  | debug (h : isDebug) (table : DebugTable) : Alike formats formats' isDebug
      (some (.file (formats.debugFile table))) (some (.file (formats'.debugFile table)))

theorem Alike.imp {formats' : Formats} {isDebug isDebug' : Prop} {node? node?' : Option Node}
    (h : Alike formats formats' isDebug node? node?') (himp : isDebug → isDebug') :
    Alike formats formats' isDebug' node? node?' := by
  cases h with
  | same => exact .same _
  | debug h table => exact .debug (himp h) table

/-- Two tasks that only differ in the form of the file at one location. -/
structure Task.Alike (formats formats' : Formats) (isDebug : Location → Prop) (task task' : Task) : Prop where
  edits : List.Forall₂ (fun e e' => e.1 = e'.1 ∧ Command.Alike formats formats' (isDebug e.1) e.2 e'.2)
    task.edits task'.edits
  errors : task.errors = task'.errors
  warnings : task.warnings = task'.warnings

section
variable (formats formats' : Formats) (t : FileTree) (settings : Settings) (extras : Extras) (path : Text)

theorem alike_task (text : Text) :
    Task.Alike formats formats' (fun loc => extras.debug = true ∧ loc = t.place (settings.outputPaths path).debug)
      (task t formats settings extras path text) (task t formats' settings extras path text) := by
  have hsame : ∀ edits : List Edit, List.Forall₂ (fun e e' => e.1 = e'.1 ∧
      Alike formats formats' (extras.debug = true ∧ e.1 = t.place (settings.outputPaths path).debug) e.2 e'.2)
      edits edits := fun edits => List.forall₂_same.mpr fun e _ => ⟨rfl, .same e.2⟩
  unfold task
  cases Line.ofText? text with
  | none => exact ⟨.nil, rfl, rfl⟩
  | some raw =>
      cases Assembly.ofText text settings.macroLimit with
      | error d => exact ⟨.nil, rfl, rfl⟩
      | ok result =>
          refine ⟨List.rel_append (hsame _) ?_, rfl, rfl⟩
          split
          · refine List.rel_append (hsame _) ?_
            unfold debugEdits
            split
            · rename_i hflag
              exact .cons ⟨rfl, .debug ⟨hflag, rfl⟩ _⟩ .nil
            · exact .nil
          · exact .nil

theorem alike_taskAt :
    Task.Alike formats formats' (fun loc => extras.debug = true ∧ loc = t.place (settings.outputPaths path).debug)
      (taskAt t formats settings extras path) (taskAt t formats' settings extras path) := by
  unfold taskAt
  cases t.read path with
  | error fault => exact ⟨.nil, rfl, rfl⟩
  | ok text => exact alike_task formats formats' t settings extras path text

end

section
variable {files : List Text} (hread : ∀ f ∈ files, (t.read f).isOk = true)
  (hout : ∀ f ∈ files, ∀ p ∈ outputs settings extras f, t.IsWritable p)
  (hsource : ∀ f ∈ files, ∀ p ∈ outputs settings extras f, ∀ g ∈ files, t.place p ≠ t.place g)
  (formats formats' : Formats)
include hread hout hsource

theorem alike_combined (level : LogLevel) (loc : Location) :
    Alike formats formats' (extras.debug = true ∧ ∃ f ∈ files, loc = t.place (settings.outputPaths f).debug)
      (combined t formats settings extras level files loc) (combined t formats' settings extras level files loc) := by
  unfold combined
  cases hfind : files.find? fun f => (outputs settings extras f).any (t.place · = loc) with
  | none => exact .same _
  | some f =>
      have hf : f ∈ files := List.mem_of_find?_eq_some hfind
      have hf' : ∀ g ∈ [f], g ∈ files := by simpa using hf
      dsimp only
      rw [(did_runOn hread hout hsource formats hf' level).nodes,
        (did_runOn hread hout hsource formats' hf' level).nodes, List.flatMap_map, List.flatMap_map,
        List.flatMap_singleton, List.flatMap_singleton]
      refine (edited_rel (R := fun loc => Alike formats formats' (extras.debug = true ∧
        loc = t.place (settings.outputPaths f).debug)) (alike_taskAt formats formats' t settings extras f).edits
        (.same _)).imp fun h => ⟨h.1, f, hf, h.2⟩

theorem counts_alike {order : List Text} (horder : ∀ f ∈ order, f ∈ files) (level : LogLevel) :
    (runOn formats settings extras level order t).1.errors = (runOn formats' settings extras level order t).1.errors ∧
      (runOn formats settings extras level order t).1.warnings =
        (runOn formats' settings extras level order t).1.warnings := by
  obtain ⟨herrors, hwarnings⟩ := counts_runOn hread hout hsource formats horder level
  obtain ⟨herrors', hwarnings'⟩ := counts_runOn hread hout hsource formats' horder level
  rw [herrors, herrors', hwarnings, hwarnings']
  constructor
  · refine congrArg List.sum (List.map_congr_left fun f _ => ?_)
    exact (alike_taskAt formats formats' t settings extras f).errors
  · refine congrArg List.sum (List.map_congr_left fun f _ => ?_)
    exact (alike_taskAt formats formats' t settings extras f).warnings

end

/-- Source files are run independently of each other if their output goes to different places and to the
place of no source file. Whatever the order, the tree holds what single runs leave, put together, and the
counts are the sums of those of single runs. So a run succeeds just if each file alone does. The form in
which debug tables are written is not settled and may change between runs; then the trees still agree, up to
the form of the tables in the places of debug files, and so do the counts. Paths are told apart by the places
they lead to, since one place has several spellings. -/
theorem files_run_alone (t : FileTree) (formats : Formats) (settings : Settings) (extras : Extras) (level : LogLevel)
    (files : List Text) (hnodup : files.Nodup) (hread : ∀ f ∈ files, (t.read f).isOk = true)
    (hout : ∀ f ∈ files, ∀ p ∈ outputs settings extras f, t.IsWritable p)
    (hapart : ∀ f ∈ files, ∀ g ∈ files, f ≠ g → ∀ p ∈ outputs settings extras f,
      ∀ q ∈ outputs settings extras g, t.place p ≠ t.place q)
    (hsource : ∀ f ∈ files, ∀ p ∈ outputs settings extras f, ∀ g ∈ files, t.place p ≠ t.place g)
    (order : List Text) (horder : order.Perm files) :
    (runOn formats settings extras level order t).2.current = t.current ∧
      (runOn formats settings extras level order t).2.node? = combined t formats settings extras level files ∧
      ∀ formats' : Formats,
        (∀ loc, Alike formats formats'
          (extras.debug = true ∧ ∃ f ∈ files, loc = t.place (settings.outputPaths f).debug)
          ((runOn formats settings extras level order t).2.node? loc)
          (combined t formats' settings extras level files loc)) ∧
        (runOn formats settings extras level order t).1.errors =
          (files.map fun f => (runOn formats' settings extras level [f] t).1.errors).sum ∧
        (runOn formats settings extras level order t).1.warnings =
          (files.map fun f => (runOn formats' settings extras level [f] t).1.warnings).sum ∧
        ((closed (runOn formats settings extras level order t).1).success = true ↔
          ∀ f ∈ files, (closed (runOn formats' settings extras level [f] t).1).success = true) := by
  have hmem : ∀ f ∈ order, f ∈ files := fun f hf => horder.mem_iff.mp hf
  have hnodes := node?_runOn hread hout hsource formats hapart horder hnodup level
  refine ⟨(did_runOn hread hout hsource formats hmem level).same.current, hnodes, fun formats' => ?_⟩
  obtain ⟨herrors, hwarnings⟩ := counts_alike hread hout hsource formats formats' hmem level
  rw [sum_alone (fun l hl => (counts_runOn hread hout hsource formats' hl level).1) horder] at herrors
  rw [sum_alone (fun l hl => (counts_runOn hread hout hsource formats' hl level).2) horder] at hwarnings
  refine ⟨fun loc => ?_, herrors, hwarnings, ?_⟩
  · rw [hnodes]
    exact alike_combined hread hout hsource formats formats' level loc
  · simp [closed, Report.succeeded, herrors, List.sum_eq_zero_iff]

/-- A program with an entry and a source that is no program, beside the files of earlier runs. -/
def twoFiles : FileTree :=
  { current := [Text.of "w"]
    nodes := [([Text.of "w", Text.of "a.as"], .file (Text.of ".entry A\nA: stop\n")),
      ([Text.of "w", Text.of "b.as"], .file (Text.of "B: stop stop\n")),
      ([Text.of "w", Text.of "a.ext"], .file (Text.of "X 00000000\n")),
      ([Text.of "w", Text.of "b.ob"], .file (Text.of "\t0\t0\n"))] }

/-- A debug file that holds the path of the source alone. -/
def shortForms : Formats where
  debugFile table := table.source
  table _ _ := []

/-- A debug file that tells how many lines the table has, too. -/
def longForms : Formats where
  debugFile table := table.source ++ Text.ofNat table.lines.length
  table _ _ := []

theorem twoFiles_run_alone :
    (runOn shortForms {} { debug := true } .silent [Text.of "b.as", Text.of "a.as"] twoFiles).2.node? =
        combined twoFiles shortForms {} { debug := true } .silent [Text.of "a.as", Text.of "b.as"] ∧
      (runOn shortForms {} { debug := true } .silent [Text.of "a.as"] twoFiles).2.node?
        [Text.of "w", Text.of "a.ext"] = none ∧
      (runOn shortForms {} { debug := true } .silent [Text.of "b.as", Text.of "a.as"] twoFiles).2.node?
        [Text.of "w", Text.of "a.dbg"] = some (.file (Text.of "/w/a.as")) ∧
      combined twoFiles longForms {} { debug := true } .silent [Text.of "a.as", Text.of "b.as"]
        [Text.of "w", Text.of "a.dbg"] = some (.file (Text.of "/w/a.as1")) ∧
      (∀ loc, Alike shortForms longForms (∃ f ∈ [Text.of "a.as", Text.of "b.as"],
          loc = twoFiles.place (Settings.outputPaths {} f).debug)
        ((runOn shortForms {} { debug := true } .silent [Text.of "b.as", Text.of "a.as"] twoFiles).2.node? loc)
        (combined twoFiles longForms {} { debug := true } .silent [Text.of "a.as", Text.of "b.as"] loc)) ∧
      (closed (runOn shortForms {} { debug := true } .silent [Text.of "b.as", Text.of "a.as"] twoFiles).1).success =
        false := by
  obtain ⟨-, hnodes, hforms⟩ := files_run_alone twoFiles shortForms {} { debug := true } .silent
    [Text.of "a.as", Text.of "b.as"] (by decide +kernel) (by decide +kernel) (by decide +kernel) (by decide +kernel)
    (by decide +kernel) [Text.of "b.as", Text.of "a.as"] (List.Perm.swap _ _ _)
  obtain ⟨halike, -, -, hsuccess⟩ := hforms longForms
  refine ⟨hnodes, by decide +kernel, by decide +kernel, by decide +kernel,
    fun loc => (halike loc).imp fun h => h.2, ?_⟩
  rw [Bool.eq_false_iff, ne_eq, hsuccess]
  intro h
  exact absurd (h (Text.of "b.as") (by decide)) (by decide +kernel)

end Command

end TwoPass
