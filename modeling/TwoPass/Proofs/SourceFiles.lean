import Mathlib
import TwoPass.Command.Sources
import TwoPass.Disk.Tree
import TwoPass.Proofs.FileTrees
import TwoPass.Proofs.OutputNames
import TwoPass.Proofs.Patterns

/-!
The source files of a directory. Its path is the front of a pattern, so what is found are the sources
right inside of it if no name on the normal way to it holds a special character. Any such character can
lead elsewhere.
-/
namespace TwoPass

/-! ## Sorted texts -/

namespace Text

theorem le_total (s t : Text) : (le s t || le t s) = true := by
  induction s generalizing t with
  | nil => simp [le]
  | cons a s ih =>
      cases t with
      | nil => simp [le]
      | cons b t =>
          have hst := ih t
          by_cases hab : a = b
          · subst hab
            simpa [le] using hst
          · rcases UInt8.lt_or_lt_of_ne hab with h | h <;> simp [le, h]

theorem le_trans (s t u : Text) (hst : le s t = true) (htu : le t u = true) : le s u = true := by
  induction s generalizing t u with
  | nil => simp [le]
  | cons a s ih =>
      cases t with
      | nil => simp [le] at hst
      | cons b t =>
          cases u with
          | nil => simp [le] at htu
          | cons c u =>
              simp only [le, Bool.or_eq_true, Bool.and_eq_true, decide_eq_true_eq] at hst htu ⊢
              rcases hst with hab | ⟨rfl, hst⟩
              · rcases htu with hbc | ⟨rfl, -⟩
                · exact Or.inl (UInt8.lt_trans hab hbc)
                · exact Or.inl hab
              · rcases htu with hbc | ⟨rfl, htu⟩
                · exact Or.inl hbc
                · exact Or.inr ⟨rfl, ih t u hst htu⟩

theorem flatMap_splitOn (sep : UInt8) (t : Text) : (splitOn sep t).flatMap (· ++ [sep]) = t ++ [sep] := by
  induction t with
  | nil => rfl
  | cons b t ih =>
      rw [splitOn_cons]
      split
      · rename_i hb
        rw [List.flatMap_cons, ih, hb]
        rfl
      · obtain ⟨p, ps, hps⟩ := List.exists_cons_of_ne_nil (splitOn_ne_nil sep t)
        rw [hps] at ih ⊢
        exact congrArg (b :: ·) ih

end Text

namespace Path

/-! ## The names on the way -/

/-- The names that are left of a path are some of its names. -/
theorem parts_sublist (path : Text) : (parts path).Sublist (names path) := by
  have hstep : ∀ rooted done name, (descend rooted done name).reverse.Sublist (done.reverse ++ [name]) := by
    intro rooted done name
    rw [descend.eq_def]
    split
    · exact List.sublist_append_left _ _
    · split
      · split
        · split
          · exact List.nil_sublist _
          · exact List.Sublist.refl _
        · split
          · rw [List.reverse_cons]
          · rw [List.reverse_cons, List.append_assoc]
            exact List.sublist_append_left _ _
      · rw [List.reverse_cons]
  have hrun : ∀ rooted (names done : List Text),
      (names.foldl (descend rooted) done).reverse.Sublist (done.reverse ++ names) := by
    intro rooted names
    induction names with
    | nil => intro done; simp
    | cons name names ih =>
        intro done
        refine (ih (descend rooted done name)).trans ?_
        rw [List.append_cons]
        exact (hstep rooted done name).append_right names
  exact hrun (isRooted path) (names path) []

/-- What is spelled out again is found in a path in the same order, up to a slash behind it. -/
theorem lead_sublist (path : Text) : (lead (isRooted path) (parts path)).Sublist (path ++ [slash]) := by
  have hnames : ∀ t : Text, ((names t).flatMap (· ++ [slash])).Sublist (t ++ [slash]) := by
    intro t
    rw [← Text.flatMap_splitOn]
    exact List.filter_sublist.flatMap _
  have hparts := (parts_sublist path).flatMap (· ++ [slash])
  cases hroot : isRooted path with
  | false => exact hparts.trans (hnames path)
  | true =>
      obtain ⟨rest, rfl⟩ : ∃ rest, path = slash :: rest := by
        cases path with
        | nil => cases hroot
        | cons b rest =>
            obtain rfl : b = slash := by simpa [isRooted] using hroot
            exact ⟨rest, rfl⟩
      have hrest : names (slash :: rest) = names rest := names_append [] rest
      rw [hrest] at hparts
      exact (hparts.trans (hnames rest)).cons_cons slash

theorem normalize_cases (path : Text) :
    parts path = [] ∧ (normalize path = [slash] ∨ normalize path = Text.of ".") ∨
      lead (isRooted path) (parts path) = normalize path ++ [slash] := by
  rw [normalize_eq]
  rcases List.eq_nil_or_concat' (parts path) with hnil | ⟨names, last, hparts⟩
  · rw [hnil]
    refine Or.inl ⟨rfl, ?_⟩
    cases isRooted path
    · exact Or.inr rfl
    · exact Or.inl rfl
  · rw [hparts, spell_concat]
    refine Or.inr ?_
    simp [lead]

theorem length_normalize_le {path : Text} (h : path ≠ []) : (normalize path).length ≤ path.length := by
  rcases normalize_cases path with ⟨-, hpath⟩ | hlead
  · have hone : (normalize path).length = 1 := by rcases hpath with hpath | hpath <;> rw [hpath] <;> rfl
    rw [hone]
    exact List.length_pos_iff_ne_nil.mpr h
  · have hsub := lead_sublist path
    rw [hlead, List.append_sublist_append_right] at hsub
    exact hsub.length_le

theorem mem_of_mem_normalize {path : Text} {b : UInt8} (h : b ∈ normalize path) :
    b = slash ∨ b = '.'.toUInt8 ∨ b ∈ path := by
  rcases normalize_cases path with ⟨-, hpath⟩ | hlead
  · rcases hpath with hpath | hpath
    · rw [hpath] at h
      exact Or.inl (List.mem_singleton.mp h)
    · rw [hpath] at h
      exact Or.inr (Or.inl (List.mem_singleton.mp h))
  · have hsub := lead_sublist path
    rw [hlead, List.append_sublist_append_right] at hsub
    exact Or.inr (Or.inr (hsub.subset h))

/-- The names of a normal path are all that is left of it. Only the current directory has the name of a
dot. -/
theorem names_normalize (path : Text) :
    names (normalize path) = parts path ∨ parts path = [] ∧ names (normalize path) = [Text.of "."] := by
  have hproper : ∀ name ∈ parts path, name ≠ [] ∧ slash ∉ name := fun _ => mem_parts
  rw [normalize_eq]
  rcases List.eq_nil_or_concat' (parts path) with hnil | ⟨done, last, hparts⟩
  · rw [hnil]
    cases isRooted path
    · exact Or.inr ⟨rfl, rfl⟩
    · exact Or.inl rfl
  · rw [hparts] at hproper ⊢
    obtain ⟨hdone, hlast⟩ := List.forall_mem_append.mp hproper
    obtain ⟨hne, hmem⟩ := hlast last List.mem_cons_self
    rw [spell_concat, names_lead _ hdone, names_of_not_mem hne hmem]
    exact Or.inl rfl

theorem isPlain_lead {path : Text} (h : IsPlain (normalize path)) : IsPlain (lead (isRooted path) (parts path)) := by
  have hslash : isMeta slash = false := by decide
  rcases normalize_cases path with ⟨hnil, -⟩ | hlead
  · rw [hnil]
    cases isRooted path <;> decide
  · rw [hlead]
    refine List.forall_mem_append.mpr ⟨h, ?_⟩
    simpa using hslash

theorem isPlain_of_mem_parts {path name : Text} (h : IsPlain (normalize path)) (hname : name ∈ parts path) :
    IsPlain name := by
  intro b hb
  refine isPlain_lead h b (List.mem_append_right _ ?_)
  exact List.mem_flatMap.mpr ⟨name, hname, List.mem_append_left _ hb⟩

theorem ancestorsFrom_prefix {inName : Bool} {t a : Text} (h : a ∈ ancestorsFrom inName t) : a <+: t.reverse := by
  induction t generalizing inName with
  | nil => cases h
  | cons b t ih =>
      have hnext : ∀ inName', a ∈ ancestorsFrom inName' t → a <+: (b :: t).reverse := by
        intro inName' ha
        rw [List.reverse_cons]
        exact (ih ha).trans (List.prefix_append _ _)
      unfold ancestorsFrom at h
      split at h
      · split at h
        · split at h
          · cases h
          · rcases List.mem_cons.mp h with rfl | h
            · rw [List.reverse_cons]
              exact List.prefix_append _ _
            · exact hnext _ h
        · exact hnext _ h
      · exact hnext _ h

/-- The directories above a last name stand in the text in front of it. -/
theorem mem_ancestors_append {front name a : Text} (hmem : slash ∉ name) (h : a ∈ ancestors (front ++ name)) :
    a <+: front := by
  have hskip : ∀ (name rest : Text) (inName : Bool), slash ∉ name →
      ∃ inName', ancestorsFrom inName (name ++ rest) = ancestorsFrom inName' rest := by
    intro name
    induction name with
    | nil => exact fun rest inName _ => ⟨inName, rfl⟩
    | cons b name ih =>
        intro rest inName hmem
        rw [List.mem_cons, not_or] at hmem
        obtain ⟨inName', hnext⟩ := ih rest true hmem.2
        refine ⟨inName', ?_⟩
        rw [List.cons_append, ancestorsFrom, if_neg (Ne.symm hmem.1), hnext]
  obtain ⟨inName', hnext⟩ := hskip name.reverse front.reverse false (by simpa using hmem)
  rw [ancestors, List.reverse_append, hnext] at h
  simpa using ancestorsFrom_prefix h

end Path

/-! ## Where a path and its normal form lead -/

namespace FileTree

section
variable {t : FileTree} {rooted : Bool} {start loc next : Location} {done : List Text}
  (hroot : rooted = true → start = [])
include hroot

/-- A name that cancels the one before leads back to where that one was reached from. -/
theorem walk_descend {name : Text} (hdone : Path.Settled rooted done)
    (hwalk : done.reverse.foldlM t.step start = .ok loc)
    (hstep : t.step loc name = .ok next) : (Path.descend rooted done name).reverse.foldlM t.step start = .ok next := by
  have hpush : (name :: done).reverse.foldlM t.step start = .ok next := by
    rw [List.reverse_cons, List.foldlM_append]
    exact bind_eq_ok.mpr ⟨loc, hwalk, bind_eq_ok.mpr ⟨next, hstep, rfl⟩⟩
  obtain ⟨-, hbelow, -⟩ := step_eq_ok.mp hstep
  rw [Path.descend.eq_def]
  split
  · rename_i hdot
    rw [below, if_pos hdot] at hbelow
    rwa [← hbelow]
  split
  · rename_i hdot hdots
    rw [below, if_neg hdot, if_pos hdots] at hbelow
    split
    · split
      · have hstart : start = loc := Except.ok.inj hwalk
        rw [← hbelow, ← hstart, hroot ‹_›]
        rfl
      · exact hpush
    · rename_i last before
      split
      · exact hpush
      · rename_i hlast
        rw [List.reverse_cons, List.foldlM_append] at hwalk
        obtain ⟨before', hbefore, hlast'⟩ := bind_eq_ok.mp hwalk
        obtain ⟨_, hstep', hend⟩ := bind_eq_ok.mp hlast'
        cases hend
        obtain ⟨-, -, hne⟩ := hdone.proper last List.mem_cons_self
        obtain ⟨-, hloc, -⟩ := step_eq_ok.mp hstep'
        rw [below, if_neg hne, if_neg hlast] at hloc
        rw [hbefore, ← hbelow, ← hloc, List.dropLast_concat]
  · exact hpush

theorem walk_foldl {names : List Text} (hnames : ∀ name ∈ names, name ≠ [] ∧ Path.slash ∉ name)
    (hdone : Path.Settled rooted done) (hwalk : done.reverse.foldlM t.step start = .ok loc)
    (hrest : names.foldlM t.step loc = .ok next) :
    (names.foldl (Path.descend rooted) done).reverse.foldlM t.step start = .ok next := by
  induction names generalizing done loc with
  | nil => rwa [← Except.ok.inj hrest]
  | cons name names ih =>
      obtain ⟨hname, hnames⟩ := List.forall_mem_cons.mp hnames
      obtain ⟨mid, hstep, hrest⟩ := bind_eq_ok.mp hrest
      exact ih hnames (hdone.descend hname) (walk_descend hroot hdone hwalk hstep) hrest

end

theorem checkPath_eq_ok {path : Text} : checkPath path = .ok () ↔ 0 ∉ path ∧ path ≠ [] ∧ path.length < pathLimit := by
  unfold checkPath
  split
  · simp_all
  split
  · simp_all
  split <;> simp_all

/-- A directory is found under the normal form of its path. -/
theorem find_normalize {t : FileTree} {path : Text} {loc : Location} (h : t.find path = .ok (loc, .directory)) :
    t.find (Path.normalize path) = .ok (loc, .directory) := by
  obtain ⟨hcheck, hwalk, hget, -⟩ := find_eq_ok.mp h
  obtain ⟨hzero, hne, hlength⟩ := checkPath_eq_ok.mp hcheck
  have hstart : t.start (Path.normalize path) = t.start path := by
    rw [start, start, Path.isRooted_normalize]
  have hroot : Path.isRooted path = true → t.start path = [] := fun hroot => if_pos hroot
  have hparts : (Path.parts path).foldlM t.step (t.start path) = .ok loc :=
    walk_foldl hroot (fun _ => Path.mem_names) (Path.settled_nil _) rfl hwalk
  refine find_eq_ok.mpr ⟨checkPath_eq_ok.mpr ⟨?_, Path.normalize_ne_nil path, ?_⟩, ?_, hget, Or.inl rfl⟩
  · intro hmem
    rcases Path.mem_of_mem_normalize hmem with hb | hb | hb
    · exact absurd hb (by decide)
    · exact absurd hb (by decide)
    · exact hzero hb
  · exact Nat.lt_of_le_of_lt (Path.length_normalize_le hne) hlength
  · rw [hstart]
    rcases Path.names_normalize path with hnames | ⟨hnil, hnames⟩
    · rwa [hnames]
    · rw [hnil] at hparts
      cases hparts
      rw [hnames]
      exact bind_eq_ok.mpr ⟨_, step_eq_ok.mpr ⟨hget, rfl, Or.inl rfl⟩, rfl⟩

theorem find_dot (t : FileTree) : t.find (Text.of ".") = .ok (t.current, .directory) := by
  have hget : t.get? t.current = some .directory := by rw [get?_eq, if_pos List.prefix_rfl]
  have hstep : t.step t.current (Text.of ".") = .ok t.current :=
    step_eq_ok.mpr ⟨hget, rfl, Or.inl rfl⟩
  exact find_eq_ok.mpr ⟨rfl, bind_eq_ok.mpr ⟨_, hstep, rfl⟩, hget, Or.inl rfl⟩

/-- A directory right below the root is found under its name. -/
theorem find_name {t : FileTree} {name : Text} (hcurrent : t.current = []) (hname : Path.IsName name)
    (hzero : 0 ∉ name) (hlength : name.length ≤ nameLimit) (h : t.node? [name] = some .directory) :
    t.find name = .ok ([name], .directory) := by
  have hget : t.get? [name] = some .directory := by
    rw [get?_eq, hcurrent, if_neg (by simp), h]
  have hroot : t.get? [] = some .directory := by
    rw [get?_eq, if_pos List.nil_prefix]
  have hbelow : below [] name = [name] := by
    rw [below, if_neg hname.ne_dot, if_neg hname.ne_dots]
    rfl
  have hstep : t.step [] name = .ok [name] :=
    step_eq_ok.mpr ⟨hroot, hbelow, Or.inr ⟨hlength, hget ▸ Option.some_ne_none _⟩⟩
  have hcheck : checkPath name = .ok () :=
    checkPath_eq_ok.mpr ⟨hzero, hname.ne_nil, Nat.lt_of_le_of_lt hlength (by decide)⟩
  refine find_eq_ok.mpr ⟨hcheck, ?_, hget, Or.inl rfl⟩
  rw [Path.names_of_not_mem hname.ne_nil hname.not_mem, start, Path.isRooted_of_not_mem hname.not_mem,
    if_neg Bool.false_ne_true, hcurrent]
  exact bind_eq_ok.mpr ⟨_, hstep, rfl⟩

/-! ## Entries -/

theorem children_eq (t : FileTree) (loc : Location) : t.children loc =
    (t.nodes.map Prod.fst).filterMap fun l => if l.dropLast = loc then l.getLast? else none := by
  rw [children, List.filterMap_map]
  rfl

theorem dropLast_eq_and_getLast? {l loc : Location} {name : Text} :
    (if l.dropLast = loc then l.getLast? else none) = some name ↔ l = loc ++ [name] := by
  rw [Option.ite_none_right_eq_some]
  constructor
  · rintro ⟨rfl, hlast⟩
    exact (List.dropLast_append_getLast? name hlast).symm
  · rintro rfl
    exact ⟨List.dropLast_concat, List.getLast?_concat⟩

theorem mem_children {t : FileTree} {loc : Location} {name : Text} :
    name ∈ t.children loc ↔ t.node? (loc ++ [name]) ≠ none := by
  have hnode : t.node? (loc ++ [name]) ≠ none ↔ loc ++ [name] ∈ t.nodes.map Prod.fst := by
    rw [node?, Ne, List.lookup_eq_none_iff, List.mem_map]
    simp only [bne_iff_ne, ne_eq, not_forall, not_not, exists_prop]
    exact exists_congr fun node => and_congr_right fun _ => eq_comm
  rw [hnode, children_eq, List.mem_filterMap]
  simp only [dropLast_eq_and_getLast?, exists_eq_right]

theorem nodup_children (t : FileTree) (loc : Location) : (t.children loc).Nodup := by
  rw [children_eq]
  refine List.Nodup.filterMap ?_ t.nodup
  intro l l' name hl hl'
  rw [dropLast_eq_and_getLast?.mp hl, dropLast_eq_and_getLast?.mp hl']

theorem isName_of_mem_children {t : FileTree} {loc : Location} {name : Text} (h : name ∈ t.children loc) :
    Path.IsName name := by
  rw [children_eq, List.mem_filterMap] at h
  obtain ⟨l, hl, hlast⟩ := h
  exact t.isName l (List.mem_cons_of_mem _ hl) name (dropLast_eq_and_getLast?.mp hlast ▸ List.mem_concat_self)

end FileTree

/-! ## Source files -/

namespace Command

open Disk

theorem filterM_eq_some {α : Type} {f : α → Option Bool} {p : α → Bool} (h : ∀ a, f a = some (p a)) (l : List α) :
    l.filterM f = some (l.filter p) := by
  have haux : ∀ (l done : List α), l.filterAuxM f done = some ((l.filter p).reverse ++ done) := by
    intro l
    induction l with
    | nil => intro done; rfl
    | cons a l ih =>
        intro done
        rw [List.filterAuxM, h a]
        cases hp : p a <;> simp [hp, ih]
  rw [List.filterM, haux]
  simp

section
variable {t : FileTree} {path : Text} {loc : FileTree.Location}

/-- The paths of the source files in a directory. -/
def sourcesIn (t : FileTree) (path : Text) (loc : FileTree.Location) : List Text :=
  (((t.children loc).mergeSort Text.le).filter ((Text.of ".as").isSuffixOf ·)).map (Path.join path)

theorem isName_of_mem_filter {name : Text}
    (h : name ∈ ((t.children loc).mergeSort Text.le).filter ((Text.of ".as").isSuffixOf ·)) : Path.IsName name :=
  FileTree.isName_of_mem_children (List.mem_mergeSort.mp (List.mem_filter.mp h).1)

theorem sourcesIn_normalize : sourcesIn t (Path.normalize path) loc = sourcesIn t path loc :=
  List.map_congr_left fun _ h => Path.join_normalize (isName_of_mem_filter h) path

theorem nodup_sourcesIn : (sourcesIn t path loc).Nodup := by
  refine List.Nodup.map_on ?_ (List.Nodup.filter _ ((List.mergeSort_perm _ _).nodup_iff.mpr (t.nodup_children loc)))
  intro name hname name' hname' h
  exact Path.eq_of_join_eq (isName_of_mem_filter hname) (isName_of_mem_filter hname') h

theorem mem_sourcesIn {f : Text} : f ∈ sourcesIn t path loc ↔
    ∃ name, t.node? (loc ++ [name]) ≠ none ∧ Text.of ".as" <:+ name ∧ f = Path.join path name := by
  rw [sourcesIn, List.mem_map]
  refine exists_congr fun name => ?_
  rw [List.mem_filter, List.mem_mergeSort, FileTree.mem_children, List.isSuffixOf_iff_suffix, and_assoc,
    eq_comm (a := f)]

theorem run_kind (h : t.find path = .ok (loc, .directory)) :
    (Disk.kind path : StateM FileTree _).run t = (.ok .directory, t) := by
  change (t.kind path, t) = _
  rw [FileTree.kind, h]
  rfl

theorem run_namesFitting (h : t.find path = .ok (loc, .directory)) (pattern : Path.Pattern) :
    (namesFitting pattern path : StateM FileTree _).run t =
      ((((t.children loc).mergeSort Text.le).filterM pattern.fits?).map (·.map (Path.join path)), t) := by
  rw [namesFitting, StateT.run_bind, run_kind h]
  change ((((t.list path).mergeSort Text.le).filterM pattern.fits?).map (·.map (Path.join path)), t) = _
  rw [FileTree.list, h]

/-- What is found in one directory is searched by the next pattern. -/
theorem run_pathsFitting_cons {pattern : Path.Pattern} {found : List Text}
    (h : (namesFitting pattern path : StateM FileTree _).run t = (some found, t)) (patterns : List Path.Pattern) :
    (pathsFitting [path] (pattern :: patterns) : StateM FileTree _).run t =
      (pathsFitting found patterns : StateM FileTree _).run t := by
  have hall : ([path].mapM (namesFitting pattern) : StateM FileTree _).run t = ([some found], t) := by
    rw [List.mapM_cons, StateT.run_bind, h]
    rfl
  rw [pathsFitting, StateT.run_bind, hall]
  change (pathsFitting [found].flatten patterns : StateM FileTree _).run t = _
  rw [List.flatten_singleton]

theorem run_pathsFitting_none {pattern : Path.Pattern}
    (h : (namesFitting pattern path : StateM FileTree _).run t = (none, t)) (patterns : List Path.Pattern) :
    (pathsFitting [path] (pattern :: patterns) : StateM FileTree _).run t = (none, t) := by
  rw [pathsFitting, StateT.run_bind, List.mapM_cons, StateT.run_bind, h]
  rfl

theorem run_pathsFitting (h : t.find path = .ok (loc, .directory)) :
    (pathsFitting [path] [Path.Pattern.ofText Path.Pattern.sources] : StateM FileTree _).run t =
      (some (sourcesIn t path loc), t) := by
  refine run_pathsFitting_cons ?_ []
  rw [run_namesFitting h, filterM_eq_some Path.Pattern.fits?_sources]
  rfl

theorem run_sourcesAt (h : t.find path = .ok (loc, .directory)) {files : List Text}
    (hglob : (glob (Path.join path Path.Pattern.sources) : StateM FileTree _).run t = (.ok files, t)) :
    (sourcesAt path : StateM FileTree _).run t =
      (if files = [] then .error (.noSources path) else .ok (files.mergeSort Text.le), t) := by
  rw [sourcesAt, StateT.run_bind, run_kind h]
  change (glob (Path.join path Path.Pattern.sources) >>= _ : StateM FileTree _).run t = _
  rw [StateT.run_bind, hglob]
  cases files <;> rfl

theorem run_sourcesAt_error (h : t.find path = .ok (loc, .directory)) {f : PathFault}
    (hglob : (glob (Path.join path Path.Pattern.sources) : StateM FileTree _).run t = (.error f, t)) :
    (sourcesAt path : StateM FileTree _).run t = (.error f, t) := by
  rw [sourcesAt, StateT.run_bind, run_kind h]
  change (glob (Path.join path Path.Pattern.sources) >>= _ : StateM FileTree _).run t = _
  rw [StateT.run_bind, hglob]
  rfl

theorem names_pattern (path : Text) :
    Path.names (Path.join path Path.Pattern.sources) = Path.parts path ++ [Path.Pattern.sources] := by
  have hname : Path.IsName Path.Pattern.sources := Path.isName_of_length (by decide) (by decide)
  rw [Path.join_name hname, Path.names_lead _ fun _ => Path.mem_parts,
    Path.names_of_not_mem hname.ne_nil hname.not_mem]

theorem isRooted_pattern (path : Text) :
    Path.isRooted (Path.join path Path.Pattern.sources) = Path.isRooted path := by
  have hname : Path.IsName Path.Pattern.sources := Path.isName_of_length (by decide) (by decide)
  rw [Path.join_name hname]
  exact Path.isRooted_lead _ (fun _ => Path.mem_parts) (by decide)

variable (hplain : Path.IsPlain (Path.normalize path))
include hplain

/-- The names in front of the last one are taken as they are. -/
theorem run_glob (h : t.find path = .ok (loc, .directory)) :
    (glob (Path.join path Path.Pattern.sources) : StateM FileTree _).run t =
      (.ok (sourcesIn t (Path.normalize path) loc), t) := by
  have hname : Path.IsName Path.Pattern.sources := Path.isName_of_length (by decide) (by decide)
  have hlead := Path.isPlain_lead hplain
  have hjoin := Path.join_name hname path
  have hrefused : (Path.join path Path.Pattern.sources :: Path.ancestors (Path.join path Path.Pattern.sources)).any
      Path.Pattern.isRefused = false := by
    rw [List.any_eq_false, hjoin]
    refine List.forall_mem_cons.mpr ⟨?_, fun a ha => ?_⟩
    · rw [Path.Pattern.isRefused_append_sources hlead]
      exact Bool.false_ne_true
    · have hfront := Path.mem_ancestors_append hname.not_mem ha
      rw [Path.Pattern.isRefused_of_isPlain fun b hb => hlead b (hfront.subset hb)]
      exact Bool.false_ne_true
  have htaken : (Path.parts path ++ [Path.Pattern.sources]).takeWhile (!·.any Path.isMeta) = Path.parts path := by
    rw [List.takeWhile_append_of_pos]
    · exact List.append_nil _
    · intro name hmem
      rw [Bool.not_eq_true', List.any_eq_false]
      intro b hb
      rw [Path.isPlain_of_mem_parts hplain hmem b hb]
      exact Bool.false_ne_true
  have hbase : ∀ body : Text, (if (if Path.isRooted path = true then Path.slash :: body else body).isEmpty = true
      then Text.of "." else if Path.isRooted path = true then Path.slash :: body else body) =
      if Path.isRooted path = true then Path.slash :: body else if body.isEmpty = true then Text.of "." else body := by
    intro body
    cases Path.isRooted path <;> rfl
  unfold glob
  rw [hrefused, if_neg Bool.false_ne_true]
  dsimp only
  rw [names_pattern, isRooted_pattern, htaken, List.drop_left, List.map_singleton, hbase, StateT.run_bind]
  change ((pathsFitting [Path.normalize path] _ : StateM FileTree _).run t >>= _) = _
  rw [run_pathsFitting (FileTree.find_normalize h)]
  rfl

/-- The source files of a directory, whose path may be written in any way. In every tree, if no name on the
normal way to it holds a special character, they are exactly the entries right inside of it that end in the
extension, each once and in the order of their paths. It is a fault that there are none. -/
theorem sourcesAt_lists_entries (h : t.find path = .ok (loc, .directory)) :
    ∃ files : List Text,
      files.Pairwise (fun f g => Text.le f g = true) ∧ files.Nodup ∧
      (∀ f, f ∈ files ↔
        ∃ name, t.node? (loc ++ [name]) ≠ none ∧ Text.of ".as" <:+ name ∧ f = Path.join path name) ∧
      (sourcesAt path : StateM FileTree _).run t =
        (if files = [] then .error (.noSources path) else .ok files, t) := by
  refine ⟨(sourcesIn t path loc).mergeSort Text.le, List.pairwise_mergeSort Text.le_trans Text.le_total _,
    (List.mergeSort_perm _ _).nodup_iff.mpr nodup_sourcesIn, fun f => ?_, ?_⟩
  · rw [List.mem_mergeSort, mem_sourcesIn]
  · have hnil : (sourcesIn t path loc).mergeSort Text.le = [] ↔ sourcesIn t path loc = [] := by
      rw [← List.length_eq_zero_iff, List.length_mergeSort, List.length_eq_zero_iff]
    have hglob := run_glob hplain h
    rw [sourcesIn_normalize] at hglob
    rw [run_sourcesAt h hglob]
    simp only [hnil]

end

/-- A directory with two sources, a file of another kind and a directory named like a source. -/
def mixedTree : FileTree where
  nodes := [([Text.of "w"], .directory), ([Text.of "w", Text.of "d"], .directory),
    ([Text.of "w", Text.of "d", Text.of "b.as"], .file []), ([Text.of "w", Text.of "d", Text.of "x.txt"], .file []),
    ([Text.of "w", Text.of "d", Text.of "a.as"], .file []), ([Text.of "w", Text.of "d", Text.of "c.as"], .directory)]
  current := [Text.of "w"]

theorem mixedTree_listed :
    mixedTree.find (Text.of "./d/..//d/") = .ok ([Text.of "w", Text.of "d"], .directory) ∧
      Path.IsPlain (Path.normalize (Text.of "./d/..//d/")) ∧
      ∃ files : List Text, files.Pairwise (fun f g => Text.le f g = true) ∧ files.Nodup ∧
        Text.of "d/a.as" ∈ files ∧
        (∀ f ∈ files, ∃ name, mixedTree.node? [Text.of "w", Text.of "d", name] ≠ none ∧ Text.of ".as" <:+ name ∧
          f = Path.join (Text.of "./d/..//d/") name) ∧
        (sourcesAt (Text.of "./d/..//d/") : StateM FileTree _).run mixedTree = (.ok files, mixedTree) := by
  have hfind : mixedTree.find (Text.of "./d/..//d/") = .ok ([Text.of "w", Text.of "d"], .directory) := by
    decide +kernel
  have hplain : Path.IsPlain (Path.normalize (Text.of "./d/..//d/")) := by decide
  obtain ⟨files, hsorted, hnodup, hmem, hrun⟩ := sourcesAt_lists_entries hplain hfind
  have hsource : Text.of "d/a.as" ∈ files :=
    (hmem _).mpr ⟨Text.of "a.as", by decide, by decide, by decide⟩
  rw [if_neg (List.ne_nil_of_mem hsource)] at hrun
  exact ⟨hfind, hplain, files, hsorted, hnodup, hsource, fun f => (hmem f).mp, hrun⟩

/-! ## Special characters -/

section
variable {t : FileTree} {name other : Text}

theorem filterM_of_ne_true {α : Type} {f : α → Option Bool} {l : List α} (h : ∀ a ∈ l, f a ≠ some true) :
    l.filterM f = none ∨ l.filterM f = some [] := by
  have haux : ∀ (l done : List α), (∀ a ∈ l, f a ≠ some true) →
      l.filterAuxM f done = none ∨ l.filterAuxM f done = some done := by
    intro l
    induction l with
    | nil => exact fun done _ => Or.inr rfl
    | cons a l ih =>
        intro done h
        obtain ⟨ha, hl⟩ := List.forall_mem_cons.mp h
        rw [List.filterAuxM]
        cases hfa : f a with
        | none => exact Or.inl rfl
        | some b =>
            cases b with
            | true => exact absurd hfa ha
            | false => exact ih done hl
  rw [List.filterM]
  rcases haux l [] h with hnone | hsome
  · exact Or.inl (by rw [hnone]; rfl)
  · exact Or.inr (by rw [hsome]; rfl)

/-- A path that leads to no directory has no entries. -/
theorem exists_sourcesIn (t : FileTree) (path : Text) :
    ∃ files, (namesFitting (Path.Pattern.ofText Path.Pattern.sources) path : StateM FileTree _).run t =
        (some files, t) ∧
      ∀ loc, t.find path = .ok (loc, .directory) → files = sourcesIn t path loc := by
  cases hfind : t.find path with
  | error reason =>
      have hkind : (Disk.kind path : StateM FileTree _).run t = (.error ⟨.stat, path, reason⟩, t) := by
        change (t.kind path, t) = _
        rw [FileTree.kind, hfind]
        rfl
      refine ⟨[], ?_, fun loc h => by cases h⟩
      rw [namesFitting, StateT.run_bind, hkind]
      rfl
  | ok found =>
      obtain ⟨loc, node⟩ := found
      cases node with
      | file content =>
          have hkind : (Disk.kind path : StateM FileTree _).run t = (.ok .file, t) := by
            change (t.kind path, t) = _
            rw [FileTree.kind, hfind]
            rfl
          refine ⟨[], ?_, fun loc h => by cases h⟩
          rw [namesFitting, StateT.run_bind, hkind]
          rfl
      | directory =>
          refine ⟨sourcesIn t path loc, ?_, fun loc h => by cases h; rfl⟩
          rw [run_namesFitting hfind, filterM_eq_some Path.Pattern.fits?_sources]
          rfl

/-- The sources of all directories among some paths are found. -/
theorem run_pathsFitting_sources (t : FileTree) (paths : List Text) :
    ∃ files, (pathsFitting paths [Path.Pattern.ofText Path.Pattern.sources] : StateM FileTree _).run t =
        (some files, t) ∧
      ∀ path ∈ paths, ∀ loc, t.find path = .ok (loc, .directory) → sourcesIn t path loc ⊆ files := by
  have hall : ∃ lists : List (List Text),
      (paths.mapM (namesFitting (Path.Pattern.ofText Path.Pattern.sources)) : StateM FileTree _).run t =
        (lists.map some, t) ∧
      ∀ path ∈ paths, ∀ loc, t.find path = .ok (loc, .directory) → sourcesIn t path loc ∈ lists := by
    induction paths with
    | nil => exact ⟨[], rfl, fun path h => absurd h List.not_mem_nil⟩
    | cons path paths ih =>
        obtain ⟨files, hrun, hfiles⟩ := exists_sourcesIn t path
        obtain ⟨lists, hruns, hlists⟩ := ih
        refine ⟨files :: lists, ?_, List.forall_mem_cons.mpr ⟨fun loc h => ?_, fun path hpath loc h => ?_⟩⟩
        · rw [List.mapM_cons, StateT.run_bind, hrun]
          change (List.mapM _ paths >>= _ : StateM FileTree _).run t = _
          rw [StateT.run_bind, hruns]
          rfl
        · rw [← hfiles loc h]
          exact List.mem_cons_self
        · exact List.mem_cons_of_mem _ (hlists path hpath loc h)
  obtain ⟨lists, hrun, hlists⟩ := hall
  refine ⟨lists.flatten, ?_, fun path hpath loc h => ?_⟩
  · have hid : ∀ lists : List (List Text), (lists.map some).mapM id = some lists := by
      intro lists
      induction lists with
      | nil => rfl
      | cons files lists ih => rw [List.map_cons, List.mapM_cons, ih]; rfl
    rw [pathsFitting, StateT.run_bind, hrun]
    dsimp only [bind, pure]
    rw [hid]
    rfl
  · exact fun f hf => List.mem_flatten_of_mem (hlists path hpath loc h) hf

/-- A name with a special character is looked up below the current directory, unless it is refused. -/
theorem run_sourcesAt_special (hname : Path.IsName name) (hspecial : ¬ Path.IsPlain name)
    (h : t.find name = .ok ([name], .directory)) {found : Option (List Text)}
    (hfound : (pathsFitting [Text.of "."]
      [Path.Pattern.ofText name, Path.Pattern.ofText Path.Pattern.sources] : StateM FileTree _).run t = (found, t)) :
    (sourcesAt name : StateM FileTree _).run t = (.error .badPattern, t) ∨
      (found = some [] ∧ (sourcesAt name : StateM FileTree _).run t = (.error (.noSources name), t)) ∨
      ∃ files ≠ [], found = some files ∧
        (sourcesAt name : StateM FileTree _).run t = (.ok (files.mergeSort Text.le), t) := by
  have hparts : Path.parts name = [name] := Path.parts_of_isName hname
  have htaken : (Path.parts name ++ [Path.Pattern.sources]).takeWhile (!·.any Path.isMeta) = [] := by
    have hany : name.any Path.isMeta = true := by
      simpa [Path.IsPlain] using hspecial
    rw [hparts, List.cons_append, List.takeWhile_cons_of_neg (by simp [hany])]
  have hglob : (glob (Path.join name Path.Pattern.sources) : StateM FileTree _).run t = (.error .badPattern, t) ∨
      (glob (Path.join name Path.Pattern.sources) : StateM FileTree _).run t =
        (found.elim (.error .badPattern) .ok, t) := by
    unfold glob
    split
    · exact Or.inl rfl
    · right
      dsimp only
      rw [names_pattern, isRooted_pattern, Path.isRooted_of_not_mem hname.not_mem, htaken, hparts, StateT.run_bind]
      change ((pathsFitting [Text.of "."] [Path.Pattern.ofText name, Path.Pattern.ofText Path.Pattern.sources] :
        StateM FileTree _).run t >>= _) = _
      rw [hfound]
      cases found <;> rfl
  rcases hglob with hglob | hglob
  · exact Or.inl (run_sourcesAt_error h hglob)
  · cases found with
    | none => exact Or.inl (run_sourcesAt_error h hglob)
    | some files =>
        have hrun := run_sourcesAt h hglob
        by_cases hfiles : files = []
        · rw [if_pos hfiles] at hrun
          exact Or.inr (Or.inl ⟨congrArg some hfiles, hrun⟩)
        · rw [if_neg hfiles] at hrun
          exact Or.inr (Or.inr ⟨files, hfiles, rfl, hrun⟩)

/-- Two directories below the root, of which the second holds a source. They may be the same. -/
def neighbours (name other : Text) : FileTree :=
  ((FileTree.set {} [name] .directory).set [other] .directory).set [other, Text.of "a.as"] (.file [])

theorem current_neighbours (name other : Text) : (neighbours name other).current = [] := by
  rw [neighbours, FileTree.current_set, FileTree.current_set, FileTree.current_set]

theorem node?_neighbours (hname : Path.IsName name) (hother : Path.IsName other) (loc : FileTree.Location) :
    (neighbours name other).node? loc =
      if loc = [other, Text.of "a.as"] then some (.file [])
      else if loc = [other] ∨ loc = [name] then some .directory else none := by
  have hsource : ∀ n ∈ [other, Text.of "a.as"], Path.IsName n := by simpa [hother] using by decide
  rw [neighbours, FileTree.node?_set _ hsource, FileTree.node?_set _ (by simpa using hother),
    FileTree.node?_set _ (by simpa using hname), Function.update_apply, Function.update_apply, Function.update_apply]
  split
  · rfl
  · split
    · simp [*]
    · simp [*]
      rfl

theorem mem_children_neighbours (hname : Path.IsName name) (hother : Path.IsName other) {d : Text} :
    d ∈ (neighbours name other).children [] ↔ d = other ∨ d = name := by
  rw [FileTree.mem_children, node?_neighbours hname hother]
  by_cases h : d = other <;> simp [h]

theorem find_neighbours (hname : Path.IsName name) (hother : Path.IsName other) {d : Text} (hd : d = other ∨ d = name)
    (hzero : 0 ∉ d) (hlength : d.length ≤ FileTree.nameLimit) :
    (neighbours name other).find d = .ok ([d], .directory) := by
  have hnode : (neighbours name other).node? [d] = some .directory := by
    rw [node?_neighbours hname hother]
    simp [hd]
  exact FileTree.find_name (current_neighbours name other) (hd.elim (· ▸ hother) (· ▸ hname)) hzero hlength hnode

theorem source_neighbours (hname : Path.IsName name) (hother : Path.IsName other) :
    (neighbours name other).node? [other, Text.of "a.as"] ≠ none := by
  rw [node?_neighbours hname hother, if_pos rfl]
  exact Option.some_ne_none _

/-- The names that are found below the root are those that fit. -/
theorem run_namesFitting_root (h : t.current = []) (pattern : Path.Pattern) :
    (namesFitting pattern (Text.of ".") : StateM FileTree _).run t =
      ((((t.children []).mergeSort Text.le).filterM pattern.fits?).map (·.map (Path.join (Text.of "."))), t) :=
  run_namesFitting (h ▸ t.find_dot) pattern

end

/-- In some tree a directory has this name, and what is found under it are not the sources right inside. -/
def Misread (name : Text) : Prop :=
  ∃ t : FileTree, t.find name = .ok ([name], .directory) ∧
    ¬ ∃ files : List Text,
      (∀ f, f ∈ files ↔
        ∃ entry, t.node? [name, entry] ≠ none ∧ Text.of ".as" <:+ entry ∧ f = Path.join name entry) ∧
      (sourcesAt name : StateM FileTree _).run t =
        (if files = [] then .error (.noSources name) else .ok files, t)

section
variable {name : Text} (hname : Path.IsName name) (hzero : 0 ∉ name) (hlength : name.length ≤ FileTree.nameLimit)
  (hspecial : ¬ Path.IsPlain name)
include hname hzero hlength hspecial

/-- The source in a directory is missed if the name does not fit itself. -/
theorem misread_of_not_fits (h : (Path.Pattern.ofText name).fits? name ≠ some true) : Misread name := by
  have hfind := find_neighbours hname hname (Or.inr rfl) hzero hlength
  have hroot := run_namesFitting_root (current_neighbours name name) (Path.Pattern.ofText name)
  have hnone : ∀ d ∈ ((neighbours name name).children []).mergeSort Text.le,
      (Path.Pattern.ofText name).fits? d ≠ some true := by
    intro d hd
    rw [List.mem_mergeSort, mem_children_neighbours hname hname, or_self] at hd
    rwa [hd]
  have hmissed : ∃ f, (sourcesAt name : StateM FileTree _).run (neighbours name name) =
      (.error f, neighbours name name) := by
    rcases filterM_of_ne_true hnone with hfilter | hfilter
    · rw [hfilter] at hroot
      rcases run_sourcesAt_special hname hspecial hfind (run_pathsFitting_none hroot _) with
        hrun | ⟨hsome, -⟩ | ⟨files, -, hsome, -⟩
      · exact ⟨_, hrun⟩
      · cases hsome
      · cases hsome
    · rw [hfilter] at hroot
      rcases run_sourcesAt_special hname hspecial hfind (run_pathsFitting_cons hroot _) with
        hrun | ⟨-, hrun⟩ | ⟨files, hne, hsome, -⟩
      · exact ⟨_, hrun⟩
      · exact ⟨_, hrun⟩
      · exact absurd (Option.some.inj hsome).symm hne
  obtain ⟨f, hmissed⟩ := hmissed
  refine ⟨_, hfind, ?_⟩
  rintro ⟨files, hfiles, hrun⟩
  have hmem : Path.join name (Text.of "a.as") ∈ files :=
    (hfiles _).mpr ⟨Text.of "a.as", source_neighbours hname hname, by decide, rfl⟩
  rw [if_neg (List.ne_nil_of_mem hmem), hmissed] at hrun
  cases hrun

/-- The source in another directory is found in place of none if its name fits. -/
theorem misread_of_fits {other : Text} (hother : Path.IsName other) (hzero' : 0 ∉ other)
    (hlength' : other.length ≤ FileTree.nameLimit) (hne : name ≠ other)
    (hwell : ∀ chunk ∈ Path.Pattern.ofText name, chunk.pieces ≠ none)
    (h : (Path.Pattern.ofText name).fits? other = some true) : Misread name := by
  have hfind := find_neighbours hname hother (Or.inr rfl) hzero hlength
  have hfind' := find_neighbours hname hother (Or.inl rfl) hzero' hlength'
  have hroot := run_namesFitting_root (current_neighbours name other) (Path.Pattern.ofText name)
  have hfits : ∀ d, (Path.Pattern.ofText name).fits? d = some (((Path.Pattern.ofText name).fits? d).getD false) := by
    intro d
    obtain ⟨b, hd⟩ := Option.ne_none_iff_exists'.mp (Path.Pattern.fits?_ne_none hwell d)
    rw [hd]
    rfl
  rw [filterM_eq_some hfits] at hroot
  have hdot : Path.join (Text.of ".") other = other := Path.join_name hother (Text.of ".")
  obtain ⟨found, hrun, hfound⟩ := run_pathsFitting_sources (neighbours name other)
    (((((neighbours name other).children []).mergeSort Text.le).filter fun d =>
      ((Path.Pattern.ofText name).fits? d).getD false).map (Path.join (Text.of ".")))
  have hmem : Path.join other (Text.of "a.as") ∈ found := by
    refine hfound other (List.mem_map.mpr ⟨other, List.mem_filter.mpr ⟨?_, by rw [h]; rfl⟩, hdot⟩) [other] hfind' ?_
    · rw [List.mem_mergeSort, mem_children_neighbours hname hother]
      exact Or.inl rfl
    · exact mem_sourcesIn.mpr ⟨Text.of "a.as", source_neighbours hname hother, by decide, rfl⟩
  refine ⟨_, hfind, ?_⟩
  rintro ⟨files, hfiles, hlisted⟩
  have hnil : files = [] := by
    refine List.eq_nil_iff_forall_not_mem.mpr fun f hf => ?_
    obtain ⟨entry, hentry, -⟩ := (hfiles f).mp hf
    rw [node?_neighbours hname hother] at hentry
    simp [hne] at hentry
  rw [if_pos hnil] at hlisted
  rcases run_sourcesAt_special hname hspecial hfind ((run_pathsFitting_cons hroot _).trans hrun) with
    hrun | ⟨hsome, -⟩ | ⟨_, -, -, hrun⟩
  · rw [hrun] at hlisted
    cases hlisted
  · rw [Option.some.inj hsome] at hmem
    exact absurd hmem List.not_mem_nil
  · rw [hrun] at hlisted
    cases hlisted

end

/-- No special character can be left out of the condition, whatever plain bytes are around it. -/
theorem misread_of_isMeta {front back : Text} {c : UInt8} (hf : Path.IsPlain front) (hb : Path.IsPlain back)
    (hc : Path.isMeta c = true) (hname : Path.IsName (front ++ c :: back)) (hzero : 0 ∉ front ++ c :: back)
    (hlength : (front ++ c :: back).length ≤ FileTree.nameLimit) : Misread (front ++ c :: back) := by
  have hspecial : ¬ Path.IsPlain (front ++ c :: back) := by
    intro hplain
    rw [hplain c (List.mem_append_right _ List.mem_cons_self)] at hc
    cases hc
  rcases Path.isMeta_eq_true.mp hc with hother | rfl | rfl
  · -- A letter in place of the character gives another name that fits.
    have hmem : ∀ b ∈ front ++ 'x'.toUInt8 :: back, b = 'x'.toUInt8 ∨ b ∈ front ++ c :: back := by
      intro b hb
      simp only [List.mem_append, List.mem_cons] at hb ⊢
      tauto
    have hletter : 'x'.toUInt8 ∈ front ++ 'x'.toUInt8 :: back := List.mem_append_right _ List.mem_cons_self
    have hname' : Path.IsName (front ++ 'x'.toUInt8 :: back) := by
      refine ⟨List.ne_nil_of_mem hletter, fun hslash => ?_, fun he => ?_, fun he => ?_⟩
      · exact (hmem _ hslash).elim (by decide) hname.not_mem
      · exact absurd (he ▸ hletter) (by decide)
      · exact absurd (he ▸ hletter) (by decide)
    refine misread_of_fits hname hzero hlength hspecial hname' (fun h => (hmem _ h).elim (by decide) hzero)
      (by simpa using hlength) (fun he => ?_) (Path.Pattern.pieces_of_other hf hb hother)
      (Path.Pattern.fits?_other hf hb hother (by decide))
    rw [(List.cons.inj (List.append_cancel_left he)).1] at hc
    exact absurd hc (by decide)
  · exact misread_of_not_fits hname hzero hlength hspecial (Path.Pattern.fits?_class hf hb)
  · exact misread_of_not_fits hname hzero hlength hspecial (Path.Pattern.fits?_escape hf hb)

/-- A directory with special characters in its name, and one that this name fits. -/
def classTree : FileTree where
  nodes := [([Text.of "d1"], .directory), ([Text.of "d1", Text.of "b.as"], .file []),
    ([Text.of "d[1]"], .directory), ([Text.of "d[1]", Text.of "a.as"], .file [])]

/-- A directory whose name is a malformed pattern. -/
def openTree : FileTree where
  nodes := [([Text.of "d["], .directory), ([Text.of "d[", Text.of "a.as"], .file [])]

/-- The source of the neighbour is found in place of the one right inside of the directory, and a malformed
pattern in place of a source. -/
theorem special_names_misread :
    classTree.find (Text.of "d[1]") = .ok ([Text.of "d[1]"], .directory) ∧
      classTree.children [Text.of "d[1]"] = [Text.of "a.as"] ∧
      (sourcesAt (Text.of "d[1]") : StateM FileTree _).run classTree = (.ok [Text.of "d1/b.as"], classTree) ∧
      openTree.find (Text.of "d[") = .ok ([Text.of "d["], .directory) ∧
      openTree.children [Text.of "d["] = [Text.of "a.as"] ∧
      (sourcesAt (Text.of "d[") : StateM FileTree _).run openTree = (.error .badPattern, openTree) := by
  have hfind : classTree.find (Text.of "d[1]") = .ok ([Text.of "d[1]"], .directory) := by decide +kernel
  have hroot : (namesFitting (Path.Pattern.ofText (Text.of "d[1]")) (Text.of ".") : StateM FileTree _).run classTree =
      (some [Text.of "d1"], classTree) := by
    have hsort : (classTree.children []).mergeSort Text.le = [Text.of "d1", Text.of "d[1]"] :=
      List.mergeSort_of_pairwise (by decide)
    rw [run_namesFitting (show classTree.find (Text.of ".") = .ok ([], .directory) by decide +kernel), hsort]
    rfl
  have hnext : (namesFitting (Path.Pattern.ofText (Text.of "*.as")) (Text.of "d1") : StateM FileTree _).run classTree =
      (some [Text.of "d1/b.as"], classTree) := by
    have hsort : (classTree.children [Text.of "d1"]).mergeSort Text.le = [Text.of "b.as"] :=
      List.mergeSort_of_pairwise (by decide)
    rw [run_namesFitting (show classTree.find (Text.of "d1") = .ok ([Text.of "d1"], .directory) by decide +kernel),
      hsort]
    rfl
  have hglob : (glob (Path.join (Text.of "d[1]") (Text.of "*.as")) : StateM FileTree _).run classTree =
      (.ok [Text.of "d1/b.as"], classTree) := by
    change ((pathsFitting [Text.of "."] [Path.Pattern.ofText (Text.of "d[1]"), Path.Pattern.ofText (Text.of "*.as")] >>=
      _ : StateM FileTree _)).run classTree = _
    rw [StateT.run_bind, run_pathsFitting_cons hroot, run_pathsFitting_cons hnext]
    rfl
  refine ⟨hfind, by decide, ?_, by decide +kernel, by decide, rfl⟩
  rw [run_sourcesAt hfind hglob, List.mergeSort_singleton]
  rfl

end Command

end TwoPass
