import TwoPass.Command.Run
import TwoPass.Proofs.FileTrees

/-!
Output files. Whatever earlier runs left behind, the output of a program goes to the places of its paths
and changes nothing else, and a source with errors leaves these places alone.
-/
namespace TwoPass

namespace FileTree

open Disk

variable {t t' t'' : FileTree} {path path' : Text} {loc : Location} {content? : Option Text}

/-! ## The place of a path -/

/-- The place of the last name of a path, whether something is there or not. A path leads nowhere if a
directory on its way is missing. -/
def target? (t : FileTree) (path : Text) : Option Location :=
  (t.findParent path).toOption.map fun found => found.2.elim found.1 (below found.1)

/-- Paths that do not lead to one place. One place has several spellings, so it is not enough that the
paths differ. -/
def Apart (t : FileTree) (path path' : Text) : Prop :=
  ∀ loc, t.target? path = some loc → t.target? path' ≠ some loc

theorem apart_of_ne (h : t.target? path ≠ t.target? path') : t.Apart path path' :=
  fun _ hloc hloc' => h (hloc.trans hloc'.symm)

theorem target?_eq_some : t.target? path = some loc ↔
    ∃ dir last?, t.findParent path = .ok (dir, last?) ∧ last?.elim dir (below dir) = loc := by
  unfold target?
  cases t.findParent path with
  | error reason => simp [Except.toOption]
  | ok found => simp [Except.toOption, Prod.ext_iff]

theorem Within.target? (h : t.Within t') (htarget : t.target? path = some loc) : t'.target? path = some loc := by
  obtain ⟨dir, last?, hparent, hloc⟩ := target?_eq_some.mp htarget
  exact target?_eq_some.mpr ⟨dir, last?, h.findParent hparent, hloc⟩

theorem Within.trans (h : t.Within t') (h' : t'.Within t'') : t.Within t'' :=
  ⟨h'.current.trans h.current, fun loc hdir => h'.directory loc (h.directory loc hdir)⟩

theorem Apart.of_within (h : t'.Within t) (hapart : t.Apart path path') : t'.Apart path path' :=
  fun loc hloc hloc' => hapart loc (h.target? hloc) (h.target? hloc')

theorem get?_start (t : FileTree) (path : Text) : t.get? (t.start path) = some .directory := by
  rw [get?_eq, start]
  split <;> simp

theorem target?_of_find {node : Node} (h : t.find path = .ok (loc, node)) : t.target? path = some loc := by
  obtain ⟨hcheck, hwalk, -⟩ := find_eq_ok.mp h
  rcases List.eq_nil_or_concat' (Path.names path) with hnames | ⟨names, name, hnames⟩
  · rw [hnames] at hwalk
    cases hwalk
    exact target?_eq_some.mpr ⟨_, none, findParent_eq_ok.mpr ⟨hcheck, by rw [hnames]; rfl,
      t.get?_start path, by rw [hnames]; rfl⟩, rfl⟩
  · rw [hnames, List.foldlM_append] at hwalk
    obtain ⟨dir, hdir, hlast⟩ := bind_eq_ok.mp hwalk
    obtain ⟨next, hstep, hnext⟩ := bind_eq_ok.mp hlast
    cases hnext
    obtain ⟨hget, hbelow, -⟩ := step_eq_ok.mp hstep
    exact target?_eq_some.mpr ⟨dir, some name, findParent_eq_ok.mpr ⟨hcheck, by simpa [hnames] using hdir,
      hget, by simp [hnames]⟩, hbelow⟩

theorem target?_of_writable (h : t.writable path = .ok loc) : t.target? path = some loc := by
  obtain ⟨dir, name, hparent, hdots, -, -, -, rfl⟩ := writable_eq_ok.mp h
  exact target?_eq_some.mpr ⟨dir, some name, hparent, below_of_not_isDots hdots dir⟩

/-- A file that is written is found at its path as long as the directories stay. -/
theorem find_of_writable (hpath : t.writable path = .ok loc) (h : t.Within t') {content : Text}
    (hfile : t'.get? loc = some (.file content)) : t'.find path = .ok (loc, .file content) := by
  obtain ⟨dir, name, hparent, hdots, hslash, hlen, -, rfl⟩ := writable_eq_ok.mp hpath
  obtain ⟨hcheck, hwalk, hdir, hlast⟩ := findParent_eq_ok.mp (h.findParent hparent)
  have hnames : (Path.names path).dropLast ++ [name] = Path.names path := List.dropLast_append_getLast? name hlast
  have hstep : t'.step dir name = .ok (dir ++ [name]) := by
    refine step_eq_ok.mpr ⟨hdir, below_of_not_isDots hdots dir, .inr ⟨hlen, ?_⟩⟩
    rw [hfile]
    exact Option.some_ne_none _
  refine find_eq_ok.mpr ⟨hcheck, ?_, hfile, .inr hslash⟩
  rw [← hnames, List.foldlM_append]
  exact bind_eq_ok.mpr ⟨dir, hwalk, bind_eq_ok.mpr ⟨_, hstep, rfl⟩⟩

theorem not_above_of_get? (h : t.get? loc ≠ some .directory) : ¬ loc <+: t.current :=
  fun habove => h (by rw [get?_eq, if_pos habove])

theorem not_above_of_isVacant (h : t.isVacant loc = true) : ¬ loc <+: t.current := by
  intro habove
  rw [isVacant, List.isPrefixOf_iff_prefix.mpr habove, Bool.not_true, Bool.and_false] at h
  cases h

/-- What is named in a directory is removed, or it is not there, or the removal is refused. The working
directory is not reached through what is removed. -/
theorem removable_cases_of_name {dir : Location} {name : Text}
    (hparent : t.findParent path = .ok (dir, some name)) (hdot : name ≠ Text.of ".")
    (hdots : name ≠ Text.of "..") :
    t.removable path = .ok (dir ++ [name]) ∧ ¬ dir ++ [name] <+: t.current ∨
      t.removable path = .error .notFound ∧ t.get? (dir ++ [name]) = none ∨
        ∃ reason, t.removable path = .error reason ∧ reason ≠ .notFound := by
  generalize hr : t.removable path = r
  rw [removable, hparent] at hr
  dsimp only [bind, Except.bind] at hr
  rw [if_neg hdot, if_neg hdots] at hr
  cases hchild : t.child dir name with
  | error reason =>
      rw [hchild] at hr
      refine .inr (.inr ⟨reason, hr.symm, ?_⟩)
      rintro rfl
      unfold child at hchild
      split at hchild <;> cases hchild
  | ok node? =>
      rw [hchild] at hr
      obtain ⟨-, rfl⟩ := child_eq_ok.mp hchild
      dsimp only at hr
      split at hr
      · exact .inr (.inl ⟨hr.symm, ‹_›⟩)
      · rename_i hfile
        split at hr
        · exact .inr (.inr ⟨_, hr.symm, by simp⟩)
        · exact .inl ⟨hr.symm, not_above_of_get? (by rw [hfile]; simp)⟩
      · split at hr
        · exact .inl ⟨hr.symm, not_above_of_isVacant ‹_›⟩
        · exact .inr (.inr ⟨_, hr.symm, by simp⟩)

theorem removable_cases (t : FileTree) (path : Text) :
    (∃ loc, t.removable path = .ok loc ∧ t.target? path = some loc ∧ ¬ loc <+: t.current) ∨
      t.removable path = .error .notFound ∧ (∀ loc, t.target? path = some loc → t.get? loc = none) ∨
        ∃ reason, t.removable path = .error reason ∧ reason ≠ .notFound := by
  cases hparent : t.findParent path with
  | error reason =>
      have hremove : t.removable path = .error reason := by rw [removable, hparent]; rfl
      have hnowhere : t.target? path = none := by rw [target?, hparent]; rfl
      by_cases hreason : reason = .notFound
      · exact .inr (.inl ⟨hreason ▸ hremove, by simp [hnowhere]⟩)
      · exact .inr (.inr ⟨reason, hremove, hreason⟩)
  | ok found =>
      obtain ⟨dir, last?⟩ := found
      cases last? with
      | none => exact .inr (.inr ⟨_, by rw [removable, hparent]; rfl, by simp⟩)
      | some name =>
          by_cases hdot : name = Text.of "."
          · exact .inr (.inr ⟨.invalid, by rw [removable, hparent, hdot]; rfl, by simp⟩)
          by_cases hdots : name = Text.of ".."
          · exact .inr (.inr ⟨.notEmpty, by rw [removable, hparent, hdots]; rfl, by simp⟩)
          have htarget : t.target? path = some (dir ++ [name]) :=
            target?_eq_some.mpr ⟨dir, some name, hparent, below_of_not_isDots (by simp [isDots, hdot, hdots]) dir⟩
          rw [htarget]
          obtain ⟨hremove, hout⟩ | ⟨hremove, hnone⟩ | hrefused := removable_cases_of_name hparent hdot hdots
          · exact .inl ⟨_, hremove, rfl, hout⟩
          · exact .inr (.inl ⟨hremove, fun loc hloc => Option.some.inj hloc ▸ hnone⟩)
          · exact .inr (.inr hrefused)

/-! ## One call -/

/-- A file is put at the place of a path, or the place is cleared, and everything else is as it was. No
directory is made. -/
structure Leaves (t t' : FileTree) (path : Text) (content? : Option Text) : Prop where
  within : t'.Within t
  writable : content? ≠ none → ∃ loc, t.writable path = .ok loc
  node : ∀ loc, t.target? path = some loc → t'.get? loc = content?.map .file
  rest : ∀ loc, t.target? path ≠ some loc → t'.get? loc = t.get? loc

theorem leaves_of_node? (htarget : t.target? path = some loc) (hloc : ¬ loc <+: t.current)
    (hwritable : content? ≠ none → ∃ loc, t.writable path = .ok loc) (hcurrent : t'.current = t.current)
    (hnodes : t'.node? = Function.update t.node? loc (content?.map .file)) : t.Leaves t' path content? := by
  have hthere : t'.get? loc = content?.map .file := by
    rw [get?_eq, hcurrent, if_neg hloc, hnodes, Function.update_self]
  have hrest : ∀ l, l ≠ loc → t'.get? l = t.get? l := by
    intro l hl
    rw [get?_eq, get?_eq, hcurrent, hnodes, Function.update_of_ne hl]
  refine ⟨⟨hcurrent.symm, fun l hdir => ?_⟩, hwritable, fun l hl => ?_, fun l hl => ?_⟩
  · by_cases hl : l = loc
    · subst hl
      rw [hthere] at hdir
      cases content? <;> cases hdir
    · rw [← hrest l hl, hdir]
  · rw [htarget] at hl
    cases hl
    exact hthere
  · exact hrest l fun he => hl (he ▸ htarget)

theorem leaves_self (h : ∀ loc, t.target? path = some loc → t.get? loc = none) : t.Leaves t path none :=
  ⟨⟨rfl, fun _ => id⟩, fun hne => absurd rfl hne, h, fun _ _ => rfl⟩

/-- A call that puts a file at the place of a path, or clears it, or fails and changes nothing. -/
def Puts (x : StateM FileTree (Except Fault Unit)) (path : Text) (content? : Option Text) : Prop :=
  ∀ t, (∃ t', x.run t = (.ok (), t') ∧ t.Leaves t' path content?) ∨ ∃ f, x.run t = (.error f, t)

theorem Puts.leaves {x : StateM FileTree (Except Fault Unit)} (hx : Puts x path content?)
    (h : x.run t = (.ok (), t')) : t.Leaves t' path content? := by
  obtain ⟨t₁, hrun, hleaves⟩ | ⟨f, hrun⟩ := hx t
  · rw [hrun] at h
    cases h
    exact hleaves
  · rw [hrun] at h
    cases h

/-- What succeeds as a whole succeeds in its first call. -/
theorem Puts.bind {x : StateM FileTree (Except Fault Unit)} (hx : Puts x path content?)
    {next : Except Fault Unit → StateM FileTree (Except Fault Unit)}
    (h : (x >>= next).run t = (.ok (), t')) (hnext : ∀ f t, (next (.error f)).run t = (.error f, t)) :
    ∃ t₁, t.Leaves t₁ path content? ∧ (next (.ok ())).run t₁ = (.ok (), t') := by
  rw [StateT.run_bind] at h
  obtain ⟨t₁, hrun, hleaves⟩ | ⟨f, hrun⟩ := hx t
  · rw [hrun] at h
    exact ⟨t₁, hleaves, h⟩
  · rw [hrun] at h
    cases (hnext f t).symm.trans h

theorem puts_write (path content : Text) : Puts (Disk.write path content) path (some content) := by
  intro t
  have hrun : (Disk.write path content : StateM FileTree _).run t =
      change .openFile path (t.writable path) (fun loc => t.set loc (.file content)) t := rfl
  rw [hrun]
  cases hpath : t.writable path with
  | error reason => exact .inr ⟨_, rfl⟩
  | ok loc =>
      exact .inl ⟨_, rfl, leaves_of_node? (target?_of_writable hpath)
        (not_above_of_get? (get?_of_writable hpath).1) (fun _ => ⟨loc, hpath⟩) (current_set t loc _)
        (node?_set_of_writable hpath _)⟩

theorem puts_discard (path : Text) : Puts (Disk.discard path) path none := by
  intro t
  have hdelete : (Disk.delete path : StateM FileTree _).run t =
      change .remove path (t.removable path) t.erase t := rfl
  rw [Disk.discard, StateT.run_bind, hdelete]
  obtain ⟨loc, hremove, htarget, hloc⟩ | ⟨hremove, hnone⟩ | ⟨reason, hremove, hreason⟩ := t.removable_cases path
  · rw [hremove]
    exact .inl ⟨_, rfl, leaves_of_node? htarget hloc (by simp) rfl (node?_erase t loc)⟩
  · rw [hremove]
    exact .inl ⟨t, rfl, leaves_self hnone⟩
  · rw [hremove]
    cases reason with
    | notFound => exact absurd rfl hreason
    | _ => exact .inr ⟨_, rfl⟩

/-! ## Several calls -/

/-- Calls that put files at the places of paths, one after the other. -/
inductive Chain : FileTree → List (Text × Option Text) → FileTree → Prop
  | nil (t : FileTree) : Chain t [] t
  | cons {t t' t'' : FileTree} {path : Text} {content? : Option Text} {puts : List (Text × Option Text)} :
    t.Leaves t' path content? → Chain t' puts t'' → Chain t ((path, content?) :: puts) t''

/-- What is later where a path led before: a file, to which the path still leads if no directory is gone,
or nothing, and then the path leads to nothing. -/
def Shows (t t' : FileTree) (path : Text) : Option Text → Prop
  | some content => ∃ loc, t.target? path = some loc ∧ t'.get? loc = some (.file content) ∧
    (t.Within t' → t'.read path = .ok content)
  | none => ∃ reason, t'.find path = .error reason

theorem Shows.of_within (h : t'.Within t) (hshows : t'.Shows t'' path content?) : t.Shows t'' path content? := by
  cases content? with
  | none => exact hshows
  | some content =>
      obtain ⟨loc, htarget, hfile, hread⟩ := hshows
      exact ⟨loc, h.target? htarget, hfile, fun h' => hread (h.trans h')⟩

/-- A call shows as long as later calls leave the place of its path alone. -/
theorem Leaves.shows (h : t.Leaves t' path content?) (hwithin : t''.Within t')
    (hsame : ∀ loc, t.target? path = some loc → t''.get? loc = t'.get? loc) : t.Shows t'' path content? := by
  cases content? with
  | some content =>
      obtain ⟨loc, hpath⟩ := h.writable (Option.some_ne_none _)
      have htarget := target?_of_writable hpath
      have hfile : t''.get? loc = some (.file content) := (hsame loc htarget).trans (h.node loc htarget)
      exact ⟨loc, htarget, hfile, fun h' => read_eq_ok.mpr ⟨loc, find_of_writable hpath h' hfile⟩⟩
  | none =>
      cases hfind : t''.find path with
      | error reason => exact ⟨reason, hfind⟩
      | ok found =>
          obtain ⟨loc, node⟩ := found
          have htarget := (hwithin.trans h.within).target? (target?_of_find hfind)
          obtain ⟨-, -, hget, -⟩ := find_eq_ok.mp hfind
          rw [hsame loc htarget, h.node loc htarget] at hget
          cases hget

theorem Chain.shows {puts : List (Text × Option Text)} (h : Chain t puts t')
    (hapart : puts.Pairwise fun x y => t.Apart x.1 y.1) :
    t'.Within t ∧ (∀ x ∈ puts, t.Shows t' x.1 x.2) ∧
      ∀ loc, (∀ x ∈ puts, t.target? x.1 ≠ some loc) → t'.get? loc = t.get? loc := by
  induction h with
  | nil t => exact ⟨⟨rfl, fun _ => id⟩, by simp, fun _ _ => rfl⟩
  | @cons t t₁ t' path content? puts hleaves _ ih =>
      obtain ⟨hhead, htail⟩ := List.pairwise_cons.mp hapart
      obtain ⟨hwithin, hshows, hrest⟩ := ih (htail.imp fun h => h.of_within hleaves.within)
      refine ⟨hwithin.trans hleaves.within, List.forall_mem_cons.mpr ⟨?_, fun x hx => ?_⟩, fun loc hloc => ?_⟩
      · refine hleaves.shows hwithin fun loc htarget => hrest loc fun x hx hx' => ?_
        exact hhead x hx loc htarget (hleaves.within.target? hx')
      · exact (hshows x hx).of_within hleaves.within
      · obtain ⟨hpath, hputs⟩ := List.forall_mem_cons.mp hloc
        rw [hrest loc fun x hx hx' => hputs x hx (hleaves.within.target? hx')]
        exact hleaves.rest loc hpath

end FileTree

/-! ## Output -/

open FileTree

namespace Output

variable {t t' : FileTree}

theorem puts_save {path : Text} (h : path ≠ []) (content : Text) :
    Puts (save path content) path (some content) := by
  rw [save, if_neg (by simpa using h)]
  exact puts_write path content

theorem run_saveExpanded (path : Text) (lines : List Line) (t : FileTree) :
    ∃ saved t', (saveExpanded path lines : StateM FileTree _).run t = (saved, t') ∧
      (t' = t ∨ t.Leaves t' path (some (Stream.expanded lines).text)) := by
  by_cases hpath : path = []
  · subst hpath
    exact ⟨_, t, rfl, .inl rfl⟩
  · obtain ⟨t', hrun, hleaves⟩ | ⟨f, hrun⟩ := puts_save hpath (Stream.expanded lines).text t
    · exact ⟨_, t', hrun, .inr hleaves⟩
    · exact ⟨_, t, hrun, .inl rfl⟩

/-- The content of the file of a stream, which is not there without lines. -/
def content? (s : Stream) : Option Text :=
  if s = [] then none else some s.text

theorem puts_saveOrDiscard {path : Text} (h : path ≠ []) (s : Stream) :
    Puts (saveOrDiscard path s) path (content? s) := by
  rw [saveOrDiscard, if_neg (by simpa using h), content?]
  simp only [List.isEmpty_iff]
  split
  · exact puts_discard path
  · exact puts_write path s.text

theorem chain_saveProgram {paths : OutputPaths} {p : Program} (hobject : paths.object ≠ [])
    (hentries : paths.entries ≠ []) (hexternals : paths.externals ≠ [])
    (h : (saveProgram paths p : StateM FileTree _).run t = (.ok (), t')) :
    Chain t [(paths.object, some (Stream.object p).text),
      (paths.entries, content? (Stream.entries p)),
      (paths.externals, content? (Stream.externals p))] t' := by
  unfold saveProgram at h
  obtain ⟨t₁, hleaves₁, h⟩ := (puts_save hobject _).bind h fun _ _ => rfl
  obtain ⟨t₂, hleaves₂, h⟩ := (puts_saveOrDiscard hentries _).bind h fun _ _ => rfl
  have hleaves₃ := (puts_saveOrDiscard hexternals _).leaves h
  exact .cons hleaves₁ (.cons hleaves₂ (.cons hleaves₃ (.nil t')))

end Output

/-- The errors that assembling a source text reports. -/
def Assembly.reported (text : Text) (limit : Int) : List Diagnostic :=
  match ofText text limit with
  | .error d => [d]
  | .ok result => result.2.errors

theorem Assembly.reported_of_expandText {text : Text} {limit : Int} {lines : List Line}
    (h : expandText text limit = .ok lines) : reported text limit = (ofLines lines).errors := by
  rw [reported, ofText, h]

namespace Command

variable {formats : Formats} {settings : Settings} {extras : Extras} {path text : Text}

theorem run_settle (r : Report) (saved : Except Disk.Fault Unit) (t : FileTree) :
    ∃ r', (settle r saved pure : StateM FileTree _).run t = (r', t) := by
  cases saved <;> exact ⟨_, rfl⟩

/-- A source text with errors gets its expanded lines at most. -/
theorem run_assembleText (h : Assembly.reported text settings.macroLimit ≠ []) (r : Report) (t : FileTree) :
    ∃ r' t', (assembleText formats settings extras path text r : StateM FileTree _).run t = (r', t') ∧
      (t' = t ∨ extras.expanded = true ∧ ∃ lines, Assembly.expandText text settings.macroLimit = .ok lines ∧
        t.Leaves t' (settings.outputPaths path).expanded (some (Stream.expanded lines).text)) := by
  unfold assembleText Assembly.ofText
  cases Line.ofText? text with
  | none => exact ⟨_, t, rfl, .inl rfl⟩
  | some raw =>
      cases hexpand : Assembly.expandText text settings.macroLimit with
      | error d => exact ⟨_, t, rfl, .inl rfl⟩
      | ok lines =>
          have herrors : (Assembly.ofLines lines).errors.isEmpty = false := by
            rw [Assembly.reported_of_expandText hexpand] at h
            exact List.isEmpty_eq_false_iff.mpr h
          simp only [herrors, Bool.false_eq_true, if_false]
          generalize r.addFile path raw lines (Assembly.ofLines lines).errors
            (Assembly.ofLines lines).program.warnings = r₁
          cases extras.expanded with
          | false =>
              obtain ⟨r', hrun⟩ := run_settle r₁ (.ok ()) t
              exact ⟨r', t, hrun, .inl rfl⟩
          | true =>
              obtain ⟨saved, t', hsave, hleaves⟩ :=
                Output.run_saveExpanded (settings.outputPaths path).expanded lines t
              obtain ⟨r', hrun⟩ := run_settle r₁ saved t'
              refine ⟨r', t', ?_, hleaves.imp id fun hleaves => ⟨rfl, lines, rfl, hleaves⟩⟩
              rw [if_pos rfl, StateT.run_bind, hsave]
              exact hrun

/-- Where a program is written, its files are what the program says, whatever was there before, and all else
stays. A source with errors leaves everything as it was, but for its expanded lines if they are asked for. -/
theorem outputs_of_last_run (t : FileTree) :
    (∀ (paths : OutputPaths) (p : Program) (t' : FileTree),
      paths.object ≠ [] → paths.entries ≠ [] → paths.externals ≠ [] →
      t.Apart paths.object paths.entries → t.Apart paths.object paths.externals →
      t.Apart paths.entries paths.externals →
      (Output.saveProgram paths p : StateM FileTree _).run t = (.ok (), t') →
      t'.current = t.current ∧
        t.Shows t' paths.object (some (Stream.object p).text) ∧
        t.Shows t' paths.entries (if p.symbols.entries = [] then none else some (Stream.entries p).text) ∧
        t.Shows t' paths.externals (if p.externals = [] then none else some (Stream.externals p).text) ∧
        ∀ loc, t.target? paths.object ≠ some loc → t.target? paths.entries ≠ some loc →
          t.target? paths.externals ≠ some loc → t'.get? loc = t.get? loc) ∧
    ∀ (formats : Formats) (settings : Settings) (extras : Extras) (r : Report) (path text : Text),
      t.read path = .ok text → Assembly.reported text settings.macroLimit ≠ [] →
      ∃ r' t', (assembleAt formats settings extras r path : StateM FileTree _).run t = (r', t') ∧
        (t' = t ∨ extras.expanded = true ∧ ∃ lines, Assembly.expandText text settings.macroLimit = .ok lines ∧
          t.Leaves t' (settings.outputPaths path).expanded (some (Stream.expanded lines).text)) := by
  constructor
  · intro paths p t' hobject hentries hexternals hapart₁ hapart₂ hapart₃ hrun
    have hchain := Output.chain_saveProgram hobject hentries hexternals hrun
    obtain ⟨hwithin, hshows, hrest⟩ := hchain.shows (by simp [hapart₁, hapart₂, hapart₃])
    simp only [List.forall_mem_cons, List.not_mem_nil, false_implies, implies_true, and_true] at hshows hrest
    obtain ⟨hobject', hentries', hexternals'⟩ := hshows
    refine ⟨hwithin.current.symm, hobject', ?_, ?_, fun loc h₁ h₂ h₃ => hrest loc ⟨h₁, h₂, h₃⟩⟩
    · simpa only [Output.content?, Stream.entries, List.map_eq_nil_iff] using hentries'
    · simpa only [Output.content?, Stream.externals, List.map_eq_nil_iff] using hexternals'
  · intro formats settings extras r path text hread herrors
    obtain ⟨r', t', hrun, ht'⟩ := run_assembleText herrors r t
    refine ⟨r', t', ?_, ht'⟩
    have hdisk : (Disk.read path : StateM FileTree _).run t = (.ok text, t) := by
      rw [← hread]
      rfl
    rw [assembleAt, StateT.run_bind, hdisk]
    exact hrun

/-- The files of earlier runs, beside a source that is no program. -/
def staleFiles : FileTree :=
  { current := [Text.of "w"]
    nodes := [([Text.of "w", Text.of "a.ob"], .file (Text.of "old")),
      ([Text.of "w", Text.of "a.ext"], .file (Text.of "old")),
      ([Text.of "w", Text.of "b.as"], .file (Text.of "B: stop stop\n")),
      ([Text.of "w", Text.of "b.ob"], .file (Text.of "old"))] }

/-- Paths for a program with an entry and no externals. -/
def stalePaths : OutputPaths :=
  { object := Text.of "a.ob", entries := Text.of "./a.ent", externals := Text.of "../w/a.ext" }

def entryProgram : Program :=
  (Assembly.ofLines [⟨1, Text.of ".entry A"⟩, ⟨2, Text.of "A: stop"⟩]).program

theorem staleFiles_replaced :
    (∃ t', (Output.saveProgram stalePaths entryProgram : StateM FileTree _).run staleFiles = (.ok (), t') ∧
      staleFiles.Shows t' stalePaths.object (some (Text.of "1 0\n00001210 33000000\n")) ∧
      staleFiles.Shows t' stalePaths.entries (some (Text.of "A 00001210\n")) ∧
      staleFiles.Shows t' stalePaths.externals none ∧
      t'.get? [Text.of "w", Text.of "b.ob"] = some (.file (Text.of "old"))) ∧
    ∀ formats, ∃ r' t', (assembleAt formats {} { expanded := true } { level := .error } (Text.of "b.as") :
        StateM FileTree _).run staleFiles = (r', t') ∧
      t'.get? [Text.of "w", Text.of "b.ob"] = some (.file (Text.of "old")) := by
  obtain ⟨hwritten, hfailed⟩ := outputs_of_last_run staleFiles
  constructor
  · have hok : ((Output.saveProgram stalePaths entryProgram : StateM FileTree _).run staleFiles).1 = .ok () := by
      decide +kernel
    obtain ⟨t', hrun⟩ : ∃ t', (Output.saveProgram stalePaths entryProgram : StateM FileTree _).run staleFiles =
        (.ok (), t') := ⟨_, Prod.ext hok rfl⟩
    obtain ⟨-, hobject, hentries, hexternals, hrest⟩ := hwritten stalePaths entryProgram t' (by decide)
      (by decide) (by decide) (apart_of_ne (by decide +kernel)) (apart_of_ne (by decide +kernel))
      (apart_of_ne (by decide +kernel)) hrun
    have hobjectText : (Stream.object entryProgram).text = Text.of "1 0\n00001210 33000000\n" := by decide +kernel
    have hentriesText : (Stream.entries entryProgram).text = Text.of "A 00001210\n" := by decide +kernel
    rw [hobjectText] at hobject
    rw [if_neg (by decide +kernel), hentriesText] at hentries
    rw [if_pos (by decide +kernel)] at hexternals
    refine ⟨t', hrun, hobject, hentries, hexternals, ?_⟩
    rw [hrest _ (by decide +kernel) (by decide +kernel) (by decide +kernel)]
    decide +kernel
  · intro formats
    obtain ⟨r', t', hrun, hleaves⟩ := hfailed formats {} { expanded := true } { level := .error } (Text.of "b.as")
      (Text.of "B: stop stop\n") (by decide +kernel) (by decide +kernel)
    refine ⟨r', t', hrun, ?_⟩
    have hold : staleFiles.get? [Text.of "w", Text.of "b.ob"] = some (.file (Text.of "old")) := by decide +kernel
    obtain rfl | ⟨-, lines, -, hleaves⟩ := hleaves
    · exact hold
    · rw [hleaves.rest _ (by decide +kernel), hold]

end Command

end TwoPass
