import TwoPass.Proofs.Paths
import TwoPass.Settings.Basic

/-!
Whether the output of one directory of source files keeps apart. Extensions are compared with each other
as they are, so one of them may end in another, and then two files of different names meet.
-/
namespace TwoPass

namespace Path

/-- A path right inside of a directory. -/
def IsInside (dir path : Text) : Prop :=
  ∃ name, IsName name ∧ path = join dir name

theorem eq_of_join_eq {a b dir dir' : Text} (ha : IsName a) (hb : IsName b) (h : join dir a = join dir' b) :
    a = b := by
  rw [← fileName_join ha dir, h, fileName_join hb dir']

/-- Every text without slashes is a name, unless it is too short for one. -/
theorem isName_of_length {t : Text} (hmem : slash ∉ t) (hlen : 3 ≤ t.length) : IsName t := by
  refine ⟨?_, hmem, ?_, ?_⟩ <;> rintro rfl <;> exact absurd hlen (by decide)

theorem splitExtension_append (stem : Text) {rest : Text} (h : '.'.toUInt8 ∉ rest) :
    splitExtension (stem ++ '.'.toUInt8 :: rest) = (stem, '.'.toUInt8 :: rest) := by
  have hrest : ∀ b ∈ rest.reverse, (b != '.'.toUInt8) = true :=
    Text.forall_ne_iff.mpr fun hb => h (List.mem_reverse.mp hb)
  have hdrop : (stem ++ '.'.toUInt8 :: rest).reverse.dropWhile (· != '.'.toUInt8) =
      '.'.toUInt8 :: stem.reverse := by
    rw [List.reverse_append, List.reverse_cons, List.append_assoc, List.dropWhile_append_of_pos hrest]
    rfl
  rw [splitExtension, hdrop]
  simp

/-! ## Texts that are no names -/

theorem exists_parts_of_isName {dir : Text} (h : IsName (fileName (normalize dir))) :
    ∃ done last, parts dir = done ++ [last] ∧ IsName last := by
  rw [normalize_eq] at h
  rcases List.eq_nil_or_concat' (parts dir) with hnil | ⟨done, last, hparts⟩
  · rw [hnil] at h
    cases hroot : isRooted dir with
    | true => exact absurd List.mem_cons_self (hroot ▸ h).not_mem
    | false => exact absurd rfl (hroot ▸ h).ne_dot
  · obtain ⟨hne, hmem⟩ := mem_parts (hparts ▸ List.mem_concat_self)
    rw [hparts, spell_concat, fileName_lead _ _ hmem hne] at h
    exact ⟨done, last, hparts, h⟩

theorem names_of_not_isName {stem : Text} (hmem : slash ∉ stem) (h : ¬ IsName stem) :
    names stem = [] ∨ names stem = [Text.of "."] ∨ names stem = [Text.of ".."] := by
  by_cases hne : stem = []
  · exact Or.inl (hne ▸ rfl)
  rw [names_of_not_mem hne hmem]
  by_cases hdot : stem = Text.of "."
  · exact Or.inr (Or.inl (hdot ▸ rfl))
  by_cases hdots : stem = Text.of ".."
  · exact Or.inr (Or.inr (hdots ▸ rfl))
  exact absurd ⟨hne, hmem, hdot, hdots⟩ h

section
variable (rooted : Bool) {done : List Text} (h : ∀ name ∈ done, name ≠ [] ∧ slash ∉ name)
include h

theorem count_lead : (lead rooted done).count slash = (if rooted then 1 else 0) + done.length := by
  have hcount : (done.flatMap (· ++ [slash])).count slash = done.length := by
    induction done with
    | nil => rfl
    | cons name done ih =>
        obtain ⟨⟨-, hmem⟩, hdone⟩ := List.forall_mem_cons.mp h
        rw [List.flatMap_cons, List.count_append, List.count_append, ih hdone, List.count_eq_zero.mpr hmem]
        simp [Nat.add_comm]
  rw [lead, List.count_append, hcount]
  cases rooted <;> rfl

theorem count_spell_le : (spell rooted done).count slash ≤ (if rooted then 1 else 0) + (done.length - 1) := by
  rcases List.eq_nil_or_concat' done with rfl | ⟨names, last, rfl⟩
  · cases rooted <;> decide
  · obtain ⟨hnames, hlast⟩ := List.forall_mem_append.mp h
    have hmem : slash ∉ last := (hlast last List.mem_cons_self).2
    rw [spell_concat, List.count_append, count_lead rooted hnames, List.count_eq_zero.mpr hmem]
    simp

end

/-- Behind a directory with a name of its own, such a text leads to the directory or to the one above. -/
theorem count_join_lt {dir stem : Text} (hdir : dir ≠ []) (hown : IsName (fileName (normalize dir)))
    (hmem : slash ∉ stem) (h : ¬ IsName stem) :
    (join dir stem).count slash < (lead (isRooted dir) (parts dir)).count slash := by
  obtain ⟨done, last, hparts, hlast⟩ := exists_parts_of_isName hown
  have hproper : ∀ name ∈ done ++ [last], name ≠ [] ∧ slash ∉ name := fun name hname => mem_parts (hparts ▸ hname)
  have hkept : ((names stem).foldl (descend (isRooted dir)) (done ++ [last]).reverse).reverse = done ++ [last] ∨
      ((names stem).foldl (descend (isRooted dir)) (done ++ [last]).reverse).reverse = done := by
    rcases names_of_not_isName hmem h with hn | hn | hn
    · rw [hn]
      exact Or.inl (List.reverse_reverse _)
    · rw [hn]
      exact Or.inl (List.reverse_reverse _)
    · right
      rw [hn, List.reverse_append, List.foldl_cons, List.foldl_nil, List.reverse_singleton, List.singleton_append,
        descend_dots_of_ne hlast.ne_dots, List.reverse_reverse]
  rw [join_eq hdir, hparts, count_lead _ hproper, List.length_append, List.length_singleton]
  rcases hkept with hkept | hkept
  · have hle := count_spell_le (isRooted dir) hproper
    rw [List.length_append, List.length_singleton] at hle
    rw [hkept]
    omega
  · have hle := count_spell_le (isRooted dir) (List.forall_mem_append.mp hproper).1
    rw [hkept]
    omega

end Path

def OutputPaths.all (paths : OutputPaths) : List Text :=
  [paths.object, paths.entries, paths.externals, paths.expanded, paths.debug]

namespace Settings

open TwoPass.Path

def sourceExt : Text := Text.of ".as"

/-- The source file of a directory with the given name before its extension. -/
def sourcePath (dir stem : Text) : Text :=
  join dir (stem ++ sourceExt)

/-- The extensions of all output files. -/
def outputExts (s : Settings) : List Text :=
  s.extensions.map (·.2)

/-- The directory for the output of the sources in a directory. -/
def home (s : Settings) (dir : Text) : Text :=
  if s.outputDirectory = [] then dir else s.outputDirectory

/-- The output files of one source file in a directory. -/
def outputsOf (s : Settings) (dir stem : Text) : List Text :=
  (s.outputPaths (sourcePath dir stem)).all

/-- The output files of some source files are different files, and none of them is a source file. -/
def KeepsApart (s : Settings) (dir : Text) (stems : List Text) : Prop :=
  (stems.flatMap (s.outputsOf dir)).Nodup ∧
    ∀ path ∈ stems.flatMap (s.outputsOf dir), path ∉ stems.map (sourcePath dir)

/-! ## Settings without faults -/

theorem extensionFault?_eq_none {seen exts : List (Text × Text)} (h : extensionFault? seen exts = none) :
    (∀ ext ∈ exts.map (·.2), isExtension ext = true ∧ ext ∉ seen.map (·.2)) ∧ (exts.map (·.2)).Nodup := by
  induction exts generalizing seen with
  | nil => simp
  | cons ext exts ih =>
      rw [extensionFault?] at h
      split at h
      · cases h
      rename_i hext
      split at h
      · cases h
      rename_i hfind
      have hnew : ext.2 ∉ seen.map (·.2) := by
        intro hm
        obtain ⟨e, he, heq⟩ := List.mem_map.mp hm
        exact List.find?_eq_none.mp hfind e he (by simpa using heq)
      obtain ⟨hexts, hnodup⟩ := ih h
      refine ⟨List.forall_mem_cons.mpr ⟨⟨by simpa using hext, hnew⟩, fun e he => ?_⟩,
        List.nodup_cons.mpr ⟨fun he => ?_, hnodup⟩⟩
      · exact ⟨(hexts e he).1, fun hm => (hexts e he).2 (List.mem_cons_of_mem _ hm)⟩
      · exact (hexts _ he).2 List.mem_cons_self

theorem fault?_eq_none {s : Settings} (h : s.fault? = none) :
    (∀ ext ∈ s.outputExts, isExtension ext = true) ∧ s.outputExts.Nodup := by
  rw [fault?] at h
  split at h
  · cases h
  split at h
  · cases h
  rename_i hexts
  obtain ⟨hall, hnodup⟩ := extensionFault?_eq_none hexts
  exact ⟨fun ext hext => (hall ext hext).1, hnodup⟩

theorem isExtension_iff {ext : Text} : isExtension ext = true ↔
    (2 ≤ ext.length ∧ ext.head? = some '.'.toUInt8) ∧ slash ∉ ext ∧ '\\'.toUInt8 ∉ ext := by
  simp [isExtension, slash, and_assoc]

/-! ## Where the output goes -/

theorem isName_source {stem : Text} (hmem : slash ∉ stem) : IsName (stem ++ sourceExt) := by
  refine isName_of_length ?_ ?_
  · rw [List.mem_append]
    exact not_or.mpr ⟨hmem, by decide⟩
  · rw [List.length_append]
    exact Nat.le_add_left 3 _

theorem isName_output {stem ext : Text} (hstem : IsName stem) (hext : isExtension ext = true) :
    IsName (stem ++ ext) := by
  obtain ⟨⟨hlen, -⟩, hmem, -⟩ := isExtension_iff.mp hext
  refine isName_of_length ?_ ?_
  · rw [List.mem_append]
    exact not_or.mpr ⟨hstem.not_mem, hmem⟩
  · have hpos := List.length_pos_iff.mpr hstem.ne_nil
    rw [List.length_append]
    omega

theorem outputStem_source (s : Settings) (dir : Text) {stem : Text} (hmem : slash ∉ stem) :
    s.outputStem (sourcePath dir stem) = join (s.home (normalize dir)) stem := by
  have hname := isName_source hmem
  have hsplit : splitExtension (stem ++ sourceExt) = (stem, sourceExt) :=
    splitExtension_append stem (show '.'.toUInt8 ∉ Text.of "as" by decide)
  simp [outputStem, sourcePath, home, fileName_join hname, parent_join hname, hsplit]

theorem home_normalize_ne_nil (s : Settings) (dir : Text) : s.home (normalize dir) ≠ [] := by
  unfold home
  split
  · exact normalize_ne_nil dir
  · assumption

theorem normalize_home (s : Settings) (dir : Text) :
    normalize (s.home (normalize dir)) = normalize (s.home dir) := by
  unfold home
  split
  · exact normalize_normalize dir
  · rfl

theorem outputsOf_eq (s : Settings) (dir : Text) {stem : Text} (hmem : slash ∉ stem) :
    s.outputsOf dir stem = s.outputExts.map (join (s.home (normalize dir)) stem ++ ·) := by
  rw [← outputStem_source s dir hmem]
  rfl

theorem join_home (s : Settings) (dir : Text) {name : Text} (h : IsName name) :
    join (s.home (normalize dir)) name = join (s.home dir) name := by
  unfold home
  split
  · exact join_normalize h dir
  · rfl

section
variable {s : Settings} (hs : ∀ ext ∈ s.outputExts, isExtension ext = true) {dir stem : Text} (hstem : IsName stem)
include hs hstem

theorem mem_outputsOf {path : Text} : path ∈ s.outputsOf dir stem ↔
    ∃ ext ∈ s.outputExts, path = join (s.home dir) (stem ++ ext) := by
  rw [outputsOf_eq s dir hstem.not_mem, List.mem_map]
  refine exists_congr fun ext => and_congr_right fun hext => ?_
  rw [join_home s dir hstem, join_append hstem _ (isName_output hstem (hs ext hext))]
  exact eq_comm

theorem isInside_of_mem {path : Text} (h : path ∈ s.outputsOf dir stem) : IsInside (s.home dir) path := by
  obtain ⟨ext, hext, rfl⟩ := (mem_outputsOf hs hstem).mp h
  exact ⟨_, isName_output hstem (hs ext hext), rfl⟩

end

theorem not_isInside_of_mem {s : Settings} (hs : ∀ ext ∈ s.outputExts, isExtension ext = true) {dir stem : Text}
    (hown : IsName (fileName (normalize (s.home dir)))) (hmem : slash ∉ stem) (hstem : ¬ IsName stem) {path : Text}
    (h : path ∈ s.outputsOf dir stem) : ¬ IsInside (s.home dir) path := by
  rw [outputsOf_eq s dir hmem] at h
  obtain ⟨ext, hext, rfl⟩ := List.mem_map.mp h
  obtain ⟨-, hslash, -⟩ := isExtension_iff.mp (hs ext hext)
  rintro ⟨name, hname, heq⟩
  rw [← join_home s dir hname, join_name hname] at heq
  have hcount := congrArg (List.count slash) heq
  rw [List.count_append, List.count_append, List.count_eq_zero.mpr hslash,
    List.count_eq_zero.mpr hname.not_mem] at hcount
  have hlt := count_join_lt (s.home_normalize_ne_nil dir) (by rwa [normalize_home]) hmem hstem
  omega

/-! ## Extensions that end in one another -/

/-- No text of a list ends in another one of it. -/
def SuffixFree (texts : List Text) : Prop :=
  texts.Pairwise fun a b => ¬ a <:+ b ∧ ¬ b <:+ a

/-- A text without such endings says where a name before it stops. -/
theorem SuffixFree.append_inj {texts : List Text} (h : SuffixFree texts) {stem stem' a b : Text} (ha : a ∈ texts)
    (hb : b ∈ texts) (heq : stem ++ a = stem' ++ b) : stem = stem' ∧ a = b := by
  have hab : a = b := by
    by_contra hne
    have : Std.Symm fun a b : Text => ¬ a <:+ b ∧ ¬ b <:+ a := ⟨fun _ _ hr => hr.symm⟩
    obtain ⟨hsuffix, hsuffix'⟩ := List.Pairwise.forall h ha hb hne
    have hboth : b <:+ stem ++ a := heq ▸ List.suffix_append stem' b
    rcases List.suffix_or_suffix_of_suffix (List.suffix_append stem a) hboth with hs | hs
    · exact hsuffix hs
    · exact hsuffix' hs
  exact ⟨List.append_cancel_right (hab ▸ heq), hab⟩

section
variable {s : Settings} (hs : ∀ ext ∈ s.outputExts, isExtension ext = true)
include hs

theorem keepsApart_of_suffixFree (hnodup : s.outputExts.Nodup) (h : SuffixFree (sourceExt :: s.outputExts))
    (dir : Text) {stems : List Text} (hstems : stems.Nodup) (hnames : ∀ stem ∈ stems, IsName stem) :
    s.KeepsApart dir stems := by
  obtain ⟨hsource, hexts⟩ := List.pairwise_cons.mp h
  refine ⟨List.nodup_flatMap.mpr ⟨fun stem hstem => ?_, ?_⟩, fun path hpath hin => ?_⟩
  · rw [outputsOf_eq s dir (hnames stem hstem).not_mem]
    exact hnodup.map fun _ _ => List.append_cancel_left
  · refine hstems.pairwise_of_forall_ne fun stem hstem stem' hstem' hne path hpath hpath' => ?_
    obtain ⟨ext, hext, rfl⟩ := (mem_outputsOf hs (hnames stem hstem)).mp hpath
    obtain ⟨ext', hext', heq⟩ := (mem_outputsOf hs (hnames stem' hstem')).mp hpath'
    have hnames := eq_of_join_eq (isName_output (hnames stem hstem) (hs ext hext))
      (isName_output (hnames stem' hstem') (hs ext' hext')) heq
    exact hne (SuffixFree.append_inj hexts hext hext' hnames).1
  · obtain ⟨stem, hstem, hpath⟩ := List.mem_flatMap.mp hpath
    obtain ⟨ext, hext, rfl⟩ := (mem_outputsOf hs (hnames stem hstem)).mp hpath
    obtain ⟨other, hother, heq⟩ := List.mem_map.mp hin
    have hnames := eq_of_join_eq (isName_source (hnames other hother).not_mem)
      (isName_output (hnames stem hstem) (hs ext hext)) heq
    obtain ⟨-, rfl⟩ := SuffixFree.append_inj h List.mem_cons_self (List.mem_cons_of_mem _ hext) hnames
    exact (hsource _ hext).1 (List.suffix_refl _)

variable (h : ∀ dir stems, stems.Nodup → (∀ stem ∈ stems, IsName stem) → s.KeepsApart dir stems)
include h

theorem append_ne_source {stem other ext : Text} (hstem : IsName stem) (hother : IsName other)
    (hext : ext ∈ s.outputExts) : stem ++ ext ≠ other ++ sourceExt := by
  intro heq
  have hhome : s.home (s.home []) = s.home [] := by unfold home; split <;> rfl
  have hnames : ∀ name ∈ [stem, other].dedup, IsName name := by simp [hstem, hother]
  refine (h (s.home []) _ (List.nodup_dedup _) hnames).2 (join (s.home []) (stem ++ ext)) ?_ ?_
  · refine List.mem_flatMap.mpr ⟨stem, by simp, (mem_outputsOf hs hstem).mpr ⟨ext, hext, ?_⟩⟩
    rw [hhome]
  · exact List.mem_map.mpr ⟨other, by simp, by rw [sourcePath, heq]⟩

theorem append_ne_append {stem other ext ext' : Text} (hstem : IsName stem) (hother : IsName other)
    (hne : stem ≠ other) (hext : ext ∈ s.outputExts) (hext' : ext' ∈ s.outputExts) :
    stem ++ ext ≠ other ++ ext' := by
  intro heq
  have hnames : ∀ name ∈ [stem, other], IsName name := by simp [hstem, hother]
  obtain ⟨-, hdisjoint⟩ := List.nodup_flatMap.mp (h [] [stem, other] (by simpa using hne) hnames).1
  obtain ⟨hd, -⟩ := List.pairwise_cons.mp hdisjoint
  refine hd other List.mem_cons_self ((mem_outputsOf hs hstem).mpr ⟨ext, hext, rfl⟩) ?_
  exact (mem_outputsOf hs hother).mpr ⟨ext', hext', by rw [heq]⟩

/-- The two files that meet are `x` and `x` with the rest of the longer extension behind it. -/
theorem suffixFree_of_keepsApart (hnodup : s.outputExts.Nodup) : SuffixFree (sourceExt :: s.outputExts) := by
  have hname : ∀ rest : Text, slash ∉ rest → IsName (Text.of "x" ++ rest) := by
    intro rest hrest
    refine ⟨List.cons_ne_nil _ _, ?_, ?_, ?_⟩
    · rw [List.mem_append]
      exact not_or.mpr ⟨by decide, hrest⟩
    · exact fun he => absurd (List.cons.inj he).1 (by decide)
    · exact fun he => absurd (List.cons.inj he).1 (by decide)
  have hfront : ∀ {front ext : Text}, front ++ ext ∈ s.outputExts → slash ∉ front := by
    intro front ext hext hmem
    exact (isExtension_iff.mp (hs _ hext)).2.1 (List.mem_append_left ext hmem)
  have hx : IsName (Text.of "x") := hname [] List.not_mem_nil
  have hexts : ∀ a ∈ s.outputExts, ∀ b ∈ s.outputExts, a ≠ b → ¬ a <:+ b := by
    rintro a ha b hb hne ⟨front, rfl⟩
    have hfne : Text.of "x" ≠ Text.of "x" ++ front := by
      intro he
      exact hne (by simpa using (List.append_cancel_left ((List.append_nil _).trans he)).symm)
    exact append_ne_append hs h hx (hname front (hfront hb)) hfne hb ha (List.append_assoc _ _ _).symm
  refine List.pairwise_cons.mpr ⟨fun ext hext => ⟨?_, ?_⟩, ?_⟩
  · rintro ⟨front, rfl⟩
    exact append_ne_source hs h hx (hname front (hfront hext)) hext (List.append_assoc _ _ _).symm
  · rintro ⟨front, heq⟩
    have hmem : slash ∉ front := fun hm =>
      absurd (heq ▸ List.mem_append_left ext hm : slash ∈ sourceExt) (by decide)
    exact append_ne_source hs h (hname front hmem) hx hext (by rw [List.append_assoc, heq])
  · exact hnodup.pairwise_of_forall_ne fun a ha b hb hne => ⟨hexts a ha b hb hne, hexts b hb a ha hne.symm⟩

end

/-- When the output of a directory keeps apart, for settings that are accepted. The output of a source file
with a plain name before its extension stands right inside of the output directory, and the output of any
other one does not if that directory has a name of its own. Source files with plain names keep apart from
each other, whatever they are, just if no extension ends in another one or in that of the sources. -/
theorem keepsApart_iff (s : Settings) (hs : s.fault? = none) :
    (∀ dir stem, IsName stem → ∀ path ∈ s.outputsOf dir stem, IsInside (s.home dir) path) ∧
      (∀ dir stem, slash ∉ stem → ¬ IsName stem → IsName (fileName (normalize (s.home dir))) →
        ∀ path ∈ s.outputsOf dir stem, ¬ IsInside (s.home dir) path) ∧
      ((∀ dir stems, stems.Nodup → (∀ stem ∈ stems, IsName stem) → s.KeepsApart dir stems) ↔
        SuffixFree (sourceExt :: s.outputExts)) := by
  obtain ⟨hexts, hnodup⟩ := fault?_eq_none hs
  refine ⟨fun dir stem hstem path => isInside_of_mem hexts hstem, ?_, ?_, ?_⟩
  · intro dir stem hmem hstem hown path hpath
    exact not_isInside_of_mem hexts hown hmem hstem hpath
  · exact fun h => suffixFree_of_keepsApart hexts h hnodup
  · exact fun h dir stems => keepsApart_of_suffixFree hexts hnodup h dir

/-- The settings that hold if nothing else is said, with the output in a directory of its own. -/
def plainSettings : Settings :=
  { outputDirectory := Text.of "out" }

theorem plainSettings_keepApart :
    plainSettings.fault? = none ∧
      plainSettings.KeepsApart (Text.of "d") [Text.of "a", Text.of "a.x", Text.of "..."] ∧
      (∀ path ∈ plainSettings.outputsOf (Text.of "d") (Text.of "..."), IsInside (Text.of "out") path) ∧
      ∀ path ∈ plainSettings.outputsOf (Text.of "d") [], ¬ IsInside (Text.of "out") path := by
  have hfault : plainSettings.fault? = none := by decide
  have hfree : SuffixFree (sourceExt :: plainSettings.outputExts) := by
    unfold SuffixFree
    decide
  have hname : ∀ stem ∈ [Text.of "a", Text.of "a.x", Text.of "..."], IsName stem := by
    simp only [List.forall_mem_cons, List.not_mem_nil, false_imp_iff, implies_true, and_true]
    refine ⟨⟨?_, ?_, ?_, ?_⟩, ⟨?_, ?_, ?_, ?_⟩, ⟨?_, ?_, ?_, ?_⟩⟩ <;> decide
  have hout : IsName (fileName (normalize (Text.of "out"))) := by
    refine ⟨?_, ?_, ?_, ?_⟩ <;> decide
  obtain ⟨hinside, houtside, hiff⟩ := keepsApart_iff plainSettings hfault
  refine ⟨hfault, hiff.mpr hfree _ _ (by decide) hname, ?_, ?_⟩
  · exact hinside _ _ (hname _ (by decide))
  · exact houtside _ _ List.not_mem_nil (fun h => h.ne_nil rfl) hout

/-- One extension ends in another. -/
def nestedSettings : Settings :=
  { objectExt := Text.of ".x.ob", entriesExt := Text.of ".ob" }

/-- Output with the extension of the sources. -/
def sourceSettings : Settings :=
  { objectExt := Text.of ".as" }

/-- Settings that are accepted and do not keep the output apart: the object file of `d/.as` stands beside the
output directory, the files of `d/.as` and `d/..as` are the same ones, the object file of `d/a.as` is the file
of entries of `d/a.x.as`, and the object file of `d/a.as` is that source itself. -/
theorem accepted_settings_clash :
    (plainSettings.fault? = none ∧
        (plainSettings.outputPaths (Text.of "d/.as")).object = Text.of "out.ob" ∧
        ¬ IsInside (Text.of "out") (Text.of "out.ob") ∧
        plainSettings.outputPaths (Text.of "d/.as") = plainSettings.outputPaths (Text.of "d/..as")) ∧
      (nestedSettings.fault? = none ∧
        (nestedSettings.outputPaths (Text.of "d/a.as")).object =
          (nestedSettings.outputPaths (Text.of "d/a.x.as")).entries) ∧
      (sourceSettings.fault? = none ∧
        (sourceSettings.outputPaths (Text.of "d/a.as")).object = Text.of "d/a.as") := by
  refine ⟨⟨by decide, by decide, ?_, by decide⟩, by decide, by decide⟩
  rintro ⟨name, hname, heq⟩
  have hparent := parent_join hname (Text.of "out")
  rw [← heq] at hparent
  exact absurd hparent (by decide)

end Settings

end TwoPass
