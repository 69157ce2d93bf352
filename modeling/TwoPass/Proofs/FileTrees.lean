import TwoPass.Disk.Tree
import TwoPass.Proofs.Encoding
import TwoPass.Proofs.Paths

/-!
Edits of a file tree. Files come and go, but as long as the directories stay, the same paths lead to the
same places, so what one computation writes can be told without knowing what others wrote elsewhere.
-/
namespace TwoPass.FileTree

open Disk

/-- What is listed at a location. -/
def node? (t : FileTree) (loc : Location) : Option Node :=
  t.nodes.lookup loc

theorem get?_eq (t : FileTree) (loc : Location) :
    t.get? loc = if loc <+: t.current then some .directory else t.node? loc := by
  simp [get?, node?]

theorem lookup_filter_ne (nodes : List (Location × Node)) (loc l : Location) :
    (nodes.filter (·.1 ≠ loc)).lookup l = if l = loc then none else nodes.lookup l := by
  induction nodes with
  | nil => simp
  | cons node nodes ih =>
      by_cases hnode : node.1 = loc
      · rw [List.filter_cons_of_neg (by simpa using hnode), ih, List.lookup_cons]
        split
        · rfl
        · rw [beq_false_of_ne (by rwa [hnode])]
      · rw [List.filter_cons_of_pos (by simpa using hnode), List.lookup_cons, List.lookup_cons, ih]
        by_cases hl : l = node.1
        · simp [hl, hnode]
        · simp [beq_false_of_ne hl]

theorem node?_erase (t : FileTree) (loc : Location) :
    (t.erase loc).node? = Function.update t.node? loc none := by
  funext l
  rw [node?, erase, lookup_filter_ne, Function.update_apply]
  rfl

theorem node?_set (t : FileTree) {loc : Location} (hloc : ∀ name ∈ loc, Path.IsName name) (node : Node) :
    (t.set loc node).node? = Function.update t.node? loc (some node) := by
  have hnodes : (t.set loc node).nodes = (t.erase loc).nodes ++ [(loc, node)] := by rw [set, dif_pos hloc]
  have herase : ∀ l, (t.erase loc).nodes.lookup l = Function.update t.node? loc none l :=
    congrFun (node?_erase t loc)
  funext l
  rw [node?, hnodes, List.lookup_append, herase, Function.update_apply, Function.update_apply]
  by_cases hl : l = loc
  · simp [hl]
  · simp [hl, List.lookup_cons, beq_false_of_ne hl]

theorem current_set (t : FileTree) (loc : Location) (node : Node) : (t.set loc node).current = t.current := by
  unfold set
  split <;> rfl

/-! ## Where paths lead -/

/-- The location that one more name leads to. -/
def below (loc : Location) (name : Text) : Location :=
  if name = Text.of "." then loc
  else if name = Text.of ".." then loc.dropLast
  else loc ++ [name]

/-- The location that a path leads to, whether something is there or not. -/
def place (t : FileTree) (path : Text) : Location :=
  (Path.names path).foldl below (t.start path)

theorem below_of_not_isDots {name : Text} (h : isDots name = false) (loc : Location) :
    below loc name = loc ++ [name] := by
  simp only [isDots, Bool.or_eq_false_iff, decide_eq_false_iff_not] at h
  rw [below, if_neg h.1, if_neg h.2]

/-- A path leads to a location that can be listed, since its dots are settled on the way. -/
theorem isName_of_mem_place {t : FileTree} {path name : Text} (h : name ∈ t.place path) : Path.IsName name := by
  have hwalk : ∀ (names : List Text) (loc : Location), (∀ name ∈ names, name ≠ [] ∧ Path.slash ∉ name) →
      (∀ name ∈ loc, Path.IsName name) → ∀ name ∈ names.foldl below loc, Path.IsName name := by
    intro names
    induction names with
    | nil => exact fun _ _ hloc => hloc
    | cons first names ih =>
        intro loc hnames hloc
        obtain ⟨hfirst, hnames⟩ := List.forall_mem_cons.mp hnames
        refine ih _ hnames fun name hname => ?_
        unfold below at hname
        split at hname
        · exact hloc name hname
        split at hname
        · exact hloc name (List.mem_of_mem_dropLast hname)
        · rcases List.mem_append.mp hname with hname | hname
          · exact hloc name hname
          · rw [List.mem_singleton.mp hname]
            exact ⟨hfirst.1, hfirst.2, ‹_›, ‹_›⟩
  refine hwalk _ _ (fun _ => Path.mem_names) (fun name hname => ?_) name h
  unfold start at hname
  split at hname
  · cases hname
  · exact t.isName t.current List.mem_cons_self name hname

/-- A step goes down from a directory, and to something that is there. -/
theorem step_eq_ok {t : FileTree} {loc loc' : Location} {name : Text} : t.step loc name = .ok loc' ↔
    t.get? loc = some .directory ∧ below loc name = loc' ∧
      (isDots name = true ∨ name.length ≤ nameLimit ∧ t.get? loc' ≠ none) := by
  cases hget : t.get? loc with
  | none => simp [step, hget]
  | some node =>
      cases node with
      | file content => simp [step, hget]
      | directory =>
          by_cases hdot : name = Text.of "."
          · simp [step, hget, below, isDots, hdot]
          by_cases hdots : name = Text.of ".."
          · have hne : Text.of ".." ≠ Text.of "." := by decide
            simp [step, hget, below, isDots, hdots, hne]
          by_cases hlen : name.length ≤ nameLimit
          · cases hchild : t.get? (loc ++ [name]) with
            | none =>
                simp only [step, hget, below, isDots, hdot, hdots, child, hlen, hchild, if_true, if_false]
                simpa using fun h => h ▸ hchild
            | some node =>
                simp only [step, hget, below, isDots, hdot, hdots, child, hlen, hchild, if_true, if_false]
                simpa using fun h => h ▸ by simp [hchild]
          · simp [step, hget, below, isDots, hdot, hdots, child, hlen]

/-- The directories of the first tree are directories of the second. -/
structure Within (t t' : FileTree) : Prop where
  current : t'.current = t.current
  directory : ∀ loc, t.get? loc = some .directory → t'.get? loc = some .directory

/-- The same directories are there, whatever the files. -/
structure SameDirectories (t t' : FileTree) : Prop where
  current : t'.current = t.current
  directory : ∀ loc, t'.get? loc = some .directory ↔ t.get? loc = some .directory

theorem SameDirectories.refl (t : FileTree) : t.SameDirectories t :=
  ⟨rfl, fun _ => Iff.rfl⟩

theorem SameDirectories.trans {t t' t'' : FileTree} (h : t.SameDirectories t') (h' : t'.SameDirectories t'') :
    t.SameDirectories t'' :=
  ⟨h'.current.trans h.current, fun loc => (h'.directory loc).trans (h.directory loc)⟩

theorem SameDirectories.within {t t' : FileTree} (h : t.SameDirectories t') : t.Within t' :=
  ⟨h.current, fun loc => (h.directory loc).mpr⟩

theorem foldlM_step_place {t : FileTree} {names : List Text} {loc loc' : Location}
    (h : names.foldlM t.step loc = .ok loc') : names.foldl below loc = loc' := by
  induction names generalizing loc with
  | nil => exact Except.ok.inj h
  | cons name names ih =>
      obtain ⟨next, hstep, hrest⟩ := bind_eq_ok.mp h
      rw [List.foldl_cons, (step_eq_ok.mp hstep).2.1]
      exact ih hrest

/-- A way through a tree only needs its directories, and something at its end. -/
theorem Within.foldlM_step {t t' : FileTree} (h : t.Within t') {names : List Text}
    {loc loc' : Location} (hwalk : names.foldlM t.step loc = .ok loc') (hend : t'.get? loc' ≠ none) :
    names.foldlM t'.step loc = .ok loc' := by
  induction names generalizing loc with
  | nil => exact hwalk
  | cons name names ih =>
      obtain ⟨next, hstep, hrest⟩ := bind_eq_ok.mp hwalk
      obtain ⟨hdir, hnext, hthere⟩ := step_eq_ok.mp hstep
      have hstill : t'.get? next ≠ none := by
        cases names with
        | nil => rwa [Except.ok.inj hrest]
        | cons name' names =>
            obtain ⟨_, hstep', -⟩ := bind_eq_ok.mp hrest
            rw [h.directory next (step_eq_ok.mp hstep').1]
            exact Option.some_ne_none _
      refine bind_eq_ok.mpr ⟨next, step_eq_ok.mpr ⟨h.directory loc hdir, hnext, ?_⟩, ih hrest⟩
      exact hthere.imp id fun hlen => ⟨hlen.1, hstill⟩

theorem child_eq_ok {t : FileTree} {loc : Location} {name : Text} {node? : Option Node} :
    t.child loc name = .ok node? ↔ name.length ≤ nameLimit ∧ t.get? (loc ++ [name]) = node? := by
  unfold child
  split <;> simp [*]

theorem findParent_eq_ok {t : FileTree} {path : Text} {dir : Location} {last? : Option Text} :
    t.findParent path = .ok (dir, last?) ↔
      checkPath path = .ok () ∧ (Path.names path).dropLast.foldlM t.step (t.start path) = .ok dir ∧
        t.get? dir = some .directory ∧ (Path.names path).getLast? = last? := by
  unfold findParent
  simp only [bind_eq_ok]
  constructor
  · rintro ⟨_, hcheck, dir', hwalk, h⟩
    split at h
    · cases h
    · cases h
    · cases h
      exact ⟨hcheck, hwalk, ‹_›, rfl⟩
  · rintro ⟨hcheck, hwalk, hdir, rfl⟩
    refine ⟨_, hcheck, dir, hwalk, ?_⟩
    rw [hdir]
    rfl

theorem Within.start {t t' : FileTree} (h : t.Within t') (path : Text) : t'.start path = t.start path := by
  rw [FileTree.start, FileTree.start, h.current]

/-- The way to the last name of a path stays as long as the directories do. -/
theorem Within.findParent {t t' : FileTree} (h : t.Within t') {path : Text} {found : Location × Option Text}
    (hparent : t.findParent path = .ok found) : t'.findParent path = .ok found := by
  obtain ⟨hcheck, hwalk, hdir, hlast⟩ := findParent_eq_ok.mp hparent
  have hdir' := h.directory _ hdir
  have hwalk' := h.foldlM_step hwalk (by rw [hdir']; exact Option.some_ne_none _)
  exact findParent_eq_ok.mpr ⟨hcheck, by rwa [h.start], hdir', hlast⟩

theorem writable_eq_ok {t : FileTree} {path : Text} {loc : Location} : t.writable path = .ok loc ↔
    ∃ dir name, t.findParent path = .ok (dir, some name) ∧ isDots name = false ∧ endsInSlash path = false ∧
      name.length ≤ nameLimit ∧ t.get? (dir ++ [name]) ≠ some .directory ∧ dir ++ [name] = loc := by
  unfold writable
  simp only [bind_eq_ok]
  constructor
  · rintro ⟨⟨dir, last?⟩, hparent, h⟩
    cases last? with
    | none => cases h
    | some name =>
        change (if (isDots name || endsInSlash path) = true then _ else _) = _ at h
        split at h
        · cases h
        rename_i hname
        simp only [Bool.or_eq_true, not_or, Bool.not_eq_true] at hname
        obtain ⟨node?, hchild, h⟩ := bind_eq_ok.mp h
        obtain ⟨hlen, rfl⟩ := child_eq_ok.mp hchild
        split at h
        · cases h
        · rename_i hnode
          exact ⟨dir, name, hparent, hname.1, hname.2, hlen, hnode, Except.ok.inj h⟩
  · rintro ⟨dir, name, hparent, hdots, hslash, hlen, hnode, rfl⟩
    refine ⟨_, hparent, ?_⟩
    simp only [hdots, hslash, Bool.or_self, Bool.false_eq_true, if_false, bind_eq_ok]
    refine ⟨_, child_eq_ok.mpr ⟨hlen, rfl⟩, ?_⟩
    split
    · exact absurd ‹_› hnode
    · rfl

theorem find_eq_ok {t : FileTree} {path : Text} {loc : Location} {node : Node} :
    t.find path = .ok (loc, node) ↔
      checkPath path = .ok () ∧ (Path.names path).foldlM t.step (t.start path) = .ok loc ∧
        t.get? loc = some node ∧ (node = .directory ∨ endsInSlash path = false) := by
  unfold find
  simp only [bind_eq_ok]
  constructor
  · rintro ⟨_, hcheck, loc', hwalk, h⟩
    split at h
    · cases h
    · split at h
      · cases h
      · rename_i hfile hslash
        cases h
        exact ⟨hcheck, hwalk, hfile, .inr (Bool.eq_false_of_not_eq_true hslash)⟩
    · cases h
      exact ⟨hcheck, hwalk, ‹_›, .inl rfl⟩
  · rintro ⟨hcheck, hwalk, hnode, hslash⟩
    refine ⟨_, hcheck, loc, hwalk, ?_⟩
    rw [hnode]
    cases node with
    | directory => rfl
    | file content =>
        rcases hslash with h | h
        · cases h
        · simp only [h, Bool.false_eq_true, if_false]
          rfl

theorem Within.find {t t' : FileTree} (h : t.Within t') {path : Text} {loc : Location} {node : Node}
    (hfind : t.find path = .ok (loc, node)) (hnode : t'.get? loc = t.get? loc) :
    t'.find path = .ok (loc, node) := by
  obtain ⟨hcheck, hwalk, hget, hslash⟩ := find_eq_ok.mp hfind
  have hwalk' := h.foldlM_step hwalk (by rw [hnode, hget]; exact Option.some_ne_none _)
  exact find_eq_ok.mpr ⟨hcheck, by rwa [h.start], hnode.trans hget, hslash⟩

theorem read_eq_ok {t : FileTree} {path content : Text} :
    t.read path = .ok content ↔ ∃ loc, t.find path = .ok (loc, .file content) := by
  unfold read
  cases hfind : t.find path with
  | error reason => simp [answer, bind, Except.bind]
  | ok found =>
      obtain ⟨loc, node⟩ := found
      cases node <;> simp [answer, bind, Except.bind, pure, Except.pure, throw, throwThe, MonadExceptOf.throw]

theorem place_of_find {t : FileTree} {path content : Text} {loc : Location}
    (h : t.find path = .ok (loc, .file content)) : t.place path = loc := by
  obtain ⟨-, hwalk, -⟩ := find_eq_ok.mp h
  exact foldlM_step_place hwalk

theorem place_of_writable {t : FileTree} {path : Text} {loc : Location} (h : t.writable path = .ok loc) :
    t.place path = loc := by
  obtain ⟨dir, name, hparent, hdots, -, -, -, rfl⟩ := writable_eq_ok.mp h
  obtain ⟨-, hwalk, -, hlast⟩ := findParent_eq_ok.mp hparent
  have hnames : (Path.names path).dropLast ++ [name] = Path.names path := List.dropLast_append_getLast? name hlast
  rw [place, ← hnames, List.foldl_append, foldlM_step_place hwalk]
  exact below_of_not_isDots hdots dir

/-- A path at which a file can be written. -/
def IsWritable (t : FileTree) (path : Text) : Prop :=
  (t.writable path).isOk = true

instance (t : FileTree) (path : Text) : Decidable (t.IsWritable path) :=
  inferInstanceAs (Decidable (_ = true))

theorem IsWritable.eq_ok {t : FileTree} {path : Text} (h : t.IsWritable path) :
    t.writable path = .ok (t.place path) := by
  unfold IsWritable at h
  cases hpath : t.writable path with
  | error reason => simp [hpath, Except.isOk, Except.toBool] at h
  | ok loc => rw [place_of_writable hpath]

theorem IsWritable.ne_nil {t : FileTree} {path : Text} (h : t.IsWritable path) : path ≠ [] := by
  rintro rfl
  obtain ⟨_, _, hparent, -⟩ := writable_eq_ok.mp h.eq_ok
  obtain ⟨hcheck, -⟩ := findParent_eq_ok.mp hparent
  cases hcheck

/-! ## What stays if the directories stay -/

section
variable {t t' : FileTree} (h : t.SameDirectories t')
include h

theorem SameDirectories.writable {path : Text} {loc : Location} (hpath : t.writable path = .ok loc) :
    t'.writable path = .ok loc := by
  obtain ⟨dir, name, hparent, hdots, hslash, hlen, hnode, hloc⟩ := writable_eq_ok.mp hpath
  exact writable_eq_ok.mpr ⟨dir, name, h.within.findParent hparent, hdots, hslash, hlen,
    fun hd => hnode ((h.directory _).mp hd), hloc⟩

theorem SameDirectories.get?_eq (loc : Location) (hnode : t'.node? loc = t.node? loc) :
    t'.get? loc = t.get? loc := by
  rw [FileTree.get?_eq, FileTree.get?_eq, h.current, hnode]

/-- A file reads the same as long as nothing is written in its place. -/
theorem SameDirectories.read {path content : Text} (hread : t.read path = .ok content)
    (hnode : t'.node? (t.place path) = t.node? (t.place path)) : t'.read path = .ok content := by
  obtain ⟨loc, hfind⟩ := read_eq_ok.mp hread
  rw [place_of_find hfind] at hnode
  exact read_eq_ok.mpr ⟨loc, h.within.find hfind (h.get?_eq loc hnode)⟩

end

/-! ## Edits -/

/-- What is put at a location, or nothing if it is cleared. -/
abbrev Edit := Location × Option Node

def Edit.apply (nodes : Location → Option Node) (e : Edit) : Location → Option Node :=
  Function.update nodes e.1 e.2

/-- The nodes after some edits, the first one first. -/
def edited (nodes : Location → Option Node) (edits : List Edit) : Location → Option Node :=
  edits.foldl Edit.apply nodes

theorem edited_append (nodes : Location → Option Node) (edits edits' : List Edit) :
    edited nodes (edits ++ edits') = edited (edited nodes edits) edits' :=
  List.foldl_append

theorem edited_of_not_mem {edits : List Edit} {loc : Location} (h : loc ∉ edits.map Prod.fst)
    (nodes : Location → Option Node) : edited nodes edits loc = nodes loc := by
  induction edits generalizing nodes with
  | nil => rfl
  | cons e edits ih =>
      rw [List.map_cons, List.mem_cons, not_or] at h
      exact (ih h.2 (e.apply nodes)).trans (Function.update_of_ne h.1 _ _)

/-- Edits of the same locations that put related nodes there keep nodes related. -/
theorem edited_rel {R : Location → Option Node → Option Node → Prop} {edits edits' : List Edit}
    (hedits : List.Forall₂ (fun e e' => e.1 = e'.1 ∧ R e.1 e.2 e'.2) edits edits') {loc : Location}
    {nodes nodes' : Location → Option Node} (h : R loc (nodes loc) (nodes' loc)) :
    R loc (edited nodes edits loc) (edited nodes' edits' loc) := by
  induction hedits generalizing nodes nodes' with
  | nil => exact h
  | @cons e e' _ _ he _ ih =>
      refine ih ?_
      rw [Edit.apply, Edit.apply, Function.update_apply, Function.update_apply, ← he.1]
      split
      · rename_i hloc
        exact hloc ▸ he.2
      · exact h

theorem edited_congr {edits : List Edit} {loc : Location} {nodes nodes' : Location → Option Node}
    (h : nodes loc = nodes' loc) : edited nodes edits loc = edited nodes' edits loc :=
  edited_rel (R := fun _ => Eq) (List.forall₂_same.mpr fun _ _ => ⟨rfl, rfl⟩) h

/-- Only the edits of one list count for a location that no other list has. -/
theorem edited_flatMap {edits : Text → List Edit} {order : List Text} (hnodup : order.Nodup) {f : Text}
    (hf : f ∈ order) {loc : Location} (hloc : ∀ g ∈ order, g ≠ f → loc ∉ (edits g).map Prod.fst)
    (nodes : Location → Option Node) :
    edited nodes (order.flatMap edits) loc = edited nodes (edits f) loc := by
  have hout : ∀ l : List Text, (∀ g ∈ l, g ∈ order ∧ g ≠ f) → loc ∉ (l.flatMap edits).map Prod.fst := by
    intro l hl hmem
    obtain ⟨e, he, rfl⟩ := List.mem_map.mp hmem
    obtain ⟨g, hg, he⟩ := List.mem_flatMap.mp he
    exact hloc g (hl g hg).1 (hl g hg).2 (List.mem_map_of_mem he)
  obtain ⟨before, after, rfl⟩ := List.append_of_mem hf
  obtain ⟨hbefore, hafter⟩ : f ∉ before ∧ f ∉ after := by
    obtain ⟨-, hcons, hdisjoint⟩ := List.nodup_append'.mp hnodup
    exact ⟨fun h => hdisjoint h List.mem_cons_self, (List.nodup_cons.mp hcons).1⟩
  rw [List.flatMap_append, List.flatMap_cons, edited_append, edited_append, edited_of_not_mem, edited_congr]
  · refine edited_of_not_mem (hout before fun g hg => ⟨List.mem_append_left _ hg, ?_⟩) nodes
    exact fun he => hbefore (he ▸ hg)
  · refine hout after fun g hg => ⟨List.mem_append_right _ (List.mem_cons_of_mem _ hg), ?_⟩
    exact fun he => hafter (he ▸ hg)

/-- A computation that comes to one value and makes the same edits in every tree with the directories of this
one. -/
def Does (t : FileTree) {α : Type} (x : StateM FileTree α) (a : α) (edits : List Edit) : Prop :=
  ∀ t', t.SameDirectories t' →
    ∃ t'', x.run t' = (a, t'') ∧ t.SameDirectories t'' ∧ t''.node? = edited t'.node? edits

section
variable {t : FileTree} {α β : Type}

theorem does_pure (a : α) : t.Does (pure a) a [] :=
  fun t' h => ⟨t', rfl, h, rfl⟩

theorem Does.bind {x : StateM FileTree α} {a : α} {edits : List Edit} (hx : t.Does x a edits)
    {f : α → StateM FileTree β} {b : β} {edits' : List Edit} (hf : t.Does (f a) b edits') :
    t.Does (x >>= f) b (edits ++ edits') := by
  intro t' h
  obtain ⟨t₁, hrun, hsame, hnodes⟩ := hx t' h
  obtain ⟨t₂, hrun', hsame', hnodes'⟩ := hf t₁ hsame
  refine ⟨t₂, ?_, hsame', ?_⟩
  · rw [StateT.run_bind, hrun]
    exact hrun'
  · rw [hnodes', hnodes, edited_append]

theorem does_workingDirectory : t.Does Disk.workingDirectory t.workingDirectory [] := by
  intro t' h
  refine ⟨t', ?_, h, rfl⟩
  rw [FileTree.workingDirectory, ← h.current]
  rfl

/-- Where no directory is, a file can be put or cleared. -/
theorem sameDirectories_of_node? {t' : FileTree} {loc : Location} {node? : Option Node}
    (hdir : t.get? loc ≠ some .directory) (hcurrent : t'.current = t.current)
    (hnodes : t'.node? = Function.update t.node? loc node?) (hnode : node? ≠ some .directory) :
    t.SameDirectories t' := by
  refine ⟨hcurrent, fun l => ?_⟩
  rw [get?_eq, get?_eq, hcurrent, hnodes]
  by_cases hl : l = loc
  · subst hl
    rw [get?_eq] at hdir
    split at hdir
    · exact absurd rfl hdir
    · rename_i hout
      simp [hout, hnode, hdir]
  · rw [Function.update_of_ne hl]

section
variable {path : Text} {loc : Location} (hpath : t.writable path = .ok loc)
include hpath

theorem get?_of_writable : t.get? loc ≠ some .directory ∧ t.get? loc = t.node? loc := by
  obtain ⟨_, _, _, _, _, _, hnode, rfl⟩ := writable_eq_ok.mp hpath
  refine ⟨hnode, ?_⟩
  rw [get?_eq] at hnode ⊢
  split at hnode
  · exact absurd rfl hnode
  · rw [if_neg ‹_›]

theorem removable_of_writable :
    t.removable path = if t.node? loc = none then .error .notFound else .ok loc := by
  obtain ⟨hdir, hget⟩ := get?_of_writable hpath
  obtain ⟨dir, name, hparent, hdots, hslash, hlen, -, rfl⟩ := writable_eq_ok.mp hpath
  simp only [isDots, Bool.or_eq_false_iff, decide_eq_false_iff_not] at hdots
  have hchild : t.child dir name = .ok (t.get? (dir ++ [name])) := child_eq_ok.mpr ⟨hlen, rfl⟩
  rw [removable, hparent]
  simp only [bind, Except.bind, hchild, if_neg hdots.1, if_neg hdots.2, hslash]
  cases hnode : t.node? (dir ++ [name]) with
  | none => rw [hget, hnode]; rfl
  | some node =>
      cases node with
      | file content => rw [hget, hnode]; rfl
      | directory => exact absurd (hget.trans hnode) hdir

theorem node?_set_of_writable (node : Node) : (t.set loc node).node? = Function.update t.node? loc (some node) :=
  node?_set t (fun _ hname => isName_of_mem_place (place_of_writable hpath ▸ hname)) node

theorem does_write (content : Text) :
    t.Does (Disk.write path content) (.ok ()) [(loc, some (.file content))] := by
  intro t' h
  have hpath' := h.writable hpath
  have hnodes := node?_set_of_writable hpath' (.file content)
  refine ⟨t'.set loc (.file content), ?_, h.trans ?_, hnodes⟩
  · change change .openFile path (t'.writable path) _ t' = _
    rw [hpath']
    rfl
  · exact sameDirectories_of_node? (get?_of_writable hpath').1 (current_set t' loc _) hnodes (by simp)

theorem does_discard : t.Does (Disk.discard path) (.ok ()) [(loc, none)] := by
  intro t' h
  have hpath' := h.writable hpath
  have hdelete : (Disk.delete path : StateM FileTree _).run t' =
      change .remove path (t'.removable path) t'.erase t' := rfl
  rw [removable_of_writable hpath'] at hdelete
  have hrun : (Disk.discard path : StateM FileTree _).run t' =
      (.ok (), if t'.node? loc = none then t' else t'.erase loc) := by
    rw [Disk.discard, StateT.run_bind, hdelete]
    split <;> rfl
  have hnodes : (if t'.node? loc = none then t' else t'.erase loc).node? = Function.update t'.node? loc none := by
    split
    · rename_i hnone
      rw [← hnone, Function.update_eq_self]
    · exact node?_erase t' loc
  refine ⟨_, hrun, h.trans ?_, hnodes⟩
  refine sameDirectories_of_node? (get?_of_writable hpath').1 ?_ hnodes (by simp)
  split <;> rfl

end

end

end TwoPass.FileTree
