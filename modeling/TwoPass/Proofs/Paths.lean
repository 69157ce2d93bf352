import TwoPass.Path.Basic
import TwoPass.Proofs.Tokens

/-!
What a normal path is made of. The dots of a path are settled name by name, and what is left is spelled
out again, so a plain name behind a path stays the last name of it.
-/
namespace TwoPass.Path

/-! ## Names -/

theorem names_append (a b : Text) : names (a ++ slash :: b) = names a ++ names b := by
  rw [names, Text.splitOn_append_sep, List.filter_append, names, names]

theorem names_nil : names [] = [] := rfl

theorem names_of_not_mem {name : Text} (hne : name ≠ []) (h : slash ∉ name) : names name = [name] := by
  simp [names, Text.splitOn_of_not_mem h, hne]

theorem mem_names {name path : Text} (h : name ∈ names path) : name ≠ [] ∧ slash ∉ name := by
  obtain ⟨hs, hne⟩ := List.mem_filter.mp h
  exact ⟨by simpa using hne, (Text.mem_splitOn hs).1⟩

theorem isRooted_append {a : Text} (h : a ≠ []) (b : Text) : isRooted (a ++ b) = isRooted a := by
  simp [isRooted, List.head?_append_of_ne_nil a h]

/-! ## Settled names -/

/-- Names that stay as they are when their dots are settled, the last name first. -/
structure Settled (rooted : Bool) (done : List Text) : Prop where
  stays : done.reverse.foldl (descend rooted) [] = done
  proper : ∀ name ∈ done, name ≠ [] ∧ slash ∉ name ∧ name ≠ Text.of "."

theorem descend_of_ne {name : Text} (hdot : name ≠ Text.of ".") (hdots : name ≠ Text.of "..") (rooted : Bool)
    (done : List Text) : descend rooted done name = name :: done := by
  rw [descend.eq_def, if_neg hdot, if_neg hdots]

theorem descend_dots_of_ne {last : Text} (h : last ≠ Text.of "..") (rooted : Bool) (done : List Text) :
    descend rooted (last :: done) (Text.of "..") = done := by
  rw [descend.eq_def, if_neg (by decide), if_pos rfl]
  exact if_neg h

theorem settled_nil (rooted : Bool) : Settled rooted [] :=
  ⟨rfl, fun _ h => absurd h List.not_mem_nil⟩

/-- A name that is put on top stays there. -/
theorem Settled.push {rooted : Bool} {done : List Text} (h : Settled rooted done) {name : Text}
    (hname : name ≠ [] ∧ slash ∉ name ∧ name ≠ Text.of ".") (htop : descend rooted done name = name :: done) :
    Settled rooted (name :: done) := by
  refine ⟨?_, List.forall_mem_cons.mpr ⟨hname, h.proper⟩⟩
  rw [List.reverse_cons, List.foldl_append, h.stays]
  exact htop

theorem Settled.pop {rooted : Bool} {done : List Text} {last : Text} (h : Settled rooted (last :: done))
    (hlast : last ≠ Text.of "..") : Settled rooted done := by
  obtain ⟨hmem, hproper⟩ := List.forall_mem_cons.mp h.proper
  have hstays := h.stays
  rw [List.reverse_cons, List.foldl_append, List.foldl_cons, List.foldl_nil,
    descend_of_ne hmem.2.2 hlast] at hstays
  exact ⟨(List.cons.inj hstays).2, hproper⟩

theorem Settled.descend {rooted : Bool} {done : List Text} (h : Settled rooted done) {name : Text}
    (hname : name ≠ [] ∧ slash ∉ name) : Settled rooted (descend rooted done name) := by
  by_cases hdot : name = Text.of "."
  · rwa [Path.descend.eq_def, if_pos hdot]
  by_cases hdots : name = Text.of ".."
  · cases done with
    | nil =>
        cases rooted with
        | true => rwa [Path.descend.eq_def, if_neg hdot, if_pos hdots]
        | false =>
            have htop : Path.descend false [] name = [name] := by
              rw [Path.descend.eq_def, if_neg hdot, if_pos hdots]
              rfl
            rw [htop]
            exact h.push ⟨hname.1, hname.2, hdot⟩ htop
    | cons last done =>
        by_cases hlast : last = Text.of ".."
        · have htop : Path.descend rooted (last :: done) name = name :: last :: done := by
            rw [Path.descend.eq_def, if_neg hdot, if_pos hdots]
            exact if_pos hlast
          rw [htop]
          exact h.push ⟨hname.1, hname.2, hdot⟩ htop
        · rw [hdots, descend_dots_of_ne hlast]
          exact h.pop hlast
  · have htop := descend_of_ne hdot hdots rooted done
    rw [htop]
    exact h.push ⟨hname.1, hname.2, hdot⟩ htop

theorem settled_foldl {rooted : Bool} {names : List Text} (hnames : ∀ name ∈ names, name ≠ [] ∧ slash ∉ name)
    {done : List Text} (h : Settled rooted done) : Settled rooted (names.foldl (descend rooted) done) := by
  induction names generalizing done with
  | nil => exact h
  | cons name names ih =>
      obtain ⟨hname, hnames⟩ := List.forall_mem_cons.mp hnames
      exact ih hnames (h.descend hname)

/-- The names that are left of a path. -/
def parts (path : Text) : List Text :=
  ((names path).foldl (descend (isRooted path)) []).reverse

theorem settled_parts (path : Text) : Settled (isRooted path) (parts path).reverse := by
  rw [parts, List.reverse_reverse]
  exact settled_foldl (fun _ => mem_names) (settled_nil _)

theorem mem_parts {path name : Text} (h : name ∈ parts path) : name ≠ [] ∧ slash ∉ name := by
  obtain ⟨hne, hmem, -⟩ := (settled_parts path).proper name (List.mem_reverse.mpr h)
  exact ⟨hne, hmem⟩

/-! ## Normal paths -/

/-- The text in front of the last name of a path. -/
def lead (rooted : Bool) (names : List Text) : Text :=
  (if rooted then [slash] else []) ++ names.flatMap (· ++ [slash])

/-- The normal path of some names. -/
def spell (rooted : Bool) (names : List Text) : Text :=
  match names.getLast? with
  | none => if rooted then [slash] else Text.of "."
  | some last => lead rooted names.dropLast ++ last

theorem spell_concat (rooted : Bool) (names : List Text) (last : Text) :
    spell rooted (names ++ [last]) = lead rooted names ++ last := by
  simp [spell]

theorem joinWith_concat (names : List Text) (last : Text) :
    Text.joinWith [slash] (names ++ [last]) = names.flatMap (· ++ [slash]) ++ last := by
  induction names with
  | nil => simp [Text.joinWith]
  | cons name names ih =>
      have hne : names ++ [last] ≠ [] := List.append_ne_nil_of_right_ne_nil names (List.cons_ne_nil last [])
      obtain ⟨next, rest, hrest⟩ := List.exists_cons_of_ne_nil hne
      rw [hrest] at ih
      rw [List.cons_append, hrest, List.flatMap_cons, List.append_assoc, List.append_assoc, ← ih]
      simp [Text.joinWith]

theorem normalize_eq (path : Text) : normalize path = spell (isRooted path) (parts path) := by
  change (if isRooted path then slash :: Text.joinWith [slash] (parts path)
    else if (Text.joinWith [slash] (parts path)).isEmpty then Text.of "."
    else Text.joinWith [slash] (parts path)) = _
  rcases List.eq_nil_or_concat' (parts path) with hnil | ⟨names, last, hparts⟩
  · rw [hnil]
    rfl
  · have hlast : last ≠ [] := (mem_parts (hparts ▸ List.mem_concat_self)).1
    rw [hparts, spell_concat, joinWith_concat, lead]
    cases isRooted path <;> simp [hlast]

section
variable (rooted : Bool) {done : List Text} (h : ∀ name ∈ done, name ≠ [] ∧ slash ∉ name)
include h

theorem names_lead (rest : Text) : names (lead rooted done ++ rest) = done ++ names rest := by
  have hnames : names (done.flatMap (· ++ [slash]) ++ rest) = done ++ names rest := by
    induction done with
    | nil => rfl
    | cons name done ih =>
        obtain ⟨hname, hdone⟩ := List.forall_mem_cons.mp h
        rw [List.flatMap_cons, List.append_assoc, List.append_assoc, List.singleton_append, names_append, ih hdone,
          names_of_not_mem hname.1 hname.2]
        rfl
  cases rooted with
  | false => exact hnames
  | true => exact (names_append [] _).trans hnames

theorem isRooted_lead {rest : Text} (hrest : isRooted rest = false) :
    isRooted (lead rooted done ++ rest) = rooted := by
  cases rooted with
  | true => rfl
  | false =>
      cases done with
      | nil => exact hrest
      | cons name done =>
          obtain ⟨⟨hne, hmem⟩, -⟩ := List.forall_mem_cons.mp h
          obtain ⟨b, name, rfl⟩ := List.exists_cons_of_ne_nil hne
          have hb : b ≠ slash := fun he => hmem (he ▸ List.mem_cons_self)
          simp [lead, isRooted, hb]

end

theorem isRooted_of_not_mem {t : Text} (h : slash ∉ t) : isRooted t = false := by
  cases t with
  | nil => rfl
  | cons b t =>
      have hb : b ≠ slash := fun he => h (he ▸ List.mem_cons_self)
      simp [isRooted, hb]

/-- A path that spells settled names keeps them. -/
theorem parts_eq {path : Text} {done : List Text} (hnames : names path = done)
    (h : Settled (isRooted path) done.reverse) : parts path = done := by
  have hstays := h.stays
  rw [List.reverse_reverse] at hstays
  rw [parts, hnames, hstays, List.reverse_reverse]

section
variable {rooted : Bool} {done : List Text} (h : Settled rooted done.reverse)
include h

theorem Settled.names_proper : ∀ name ∈ done, name ≠ [] ∧ slash ∉ name := by
  intro name hname
  obtain ⟨hne, hmem, -⟩ := h.proper name (List.mem_reverse.mpr hname)
  exact ⟨hne, hmem⟩

theorem Settled.lead : isRooted (lead rooted done) = rooted ∧ parts (lead rooted done) = done := by
  have hroot := isRooted_lead rooted h.names_proper (show isRooted [] = false from rfl)
  have hnames := names_lead rooted h.names_proper []
  rw [List.append_nil] at hroot hnames
  rw [names_nil, List.append_nil] at hnames
  exact ⟨hroot, parts_eq hnames (hroot.symm ▸ h)⟩

theorem Settled.spell : isRooted (spell rooted done) = rooted ∧ parts (spell rooted done) = done := by
  rcases List.eq_nil_or_concat' done with rfl | ⟨names, last, rfl⟩
  · cases rooted <;> exact ⟨rfl, rfl⟩
  · obtain ⟨hproper, hlast⟩ := List.forall_mem_append.mp h.names_proper
    obtain ⟨hne, hmem⟩ := hlast last List.mem_cons_self
    rw [spell_concat]
    have hroot := isRooted_lead rooted hproper (isRooted_of_not_mem hmem)
    refine ⟨hroot, parts_eq ?_ (hroot.symm ▸ h)⟩
    rw [names_lead rooted hproper, names_of_not_mem hne hmem]

end

theorem isRooted_normalize (path : Text) : isRooted (normalize path) = isRooted path := by
  rw [normalize_eq]
  exact (settled_parts path).spell.1

theorem parts_normalize (path : Text) : parts (normalize path) = parts path := by
  rw [normalize_eq]
  exact (settled_parts path).spell.2

theorem normalize_normalize (path : Text) : normalize (normalize path) = normalize path := by
  rw [normalize_eq (normalize path), isRooted_normalize, parts_normalize, ← normalize_eq]

theorem normalize_ne_nil (path : Text) : normalize path ≠ [] := by
  rw [normalize_eq]
  rcases List.eq_nil_or_concat' (parts path) with hnil | ⟨names, last, hparts⟩
  · rw [hnil]
    cases isRooted path <;> decide
  · rw [hparts, spell_concat]
    exact List.append_ne_nil_of_right_ne_nil _ (mem_parts (hparts ▸ List.mem_concat_self)).1

/-- In front of a last name there is nothing, or a slash ends it. -/
theorem lead_cases (rooted : Bool) (done : List Text) :
    lead rooted done = [] ∨ ∃ front, lead rooted done = front ++ [slash] := by
  rcases List.eq_nil_or_concat' done with rfl | ⟨names, last, rfl⟩
  · cases rooted with
    | true => exact Or.inr ⟨[], rfl⟩
    | false => exact Or.inl rfl
  · exact Or.inr ⟨lead rooted names ++ last, by simp [lead]⟩

section
variable (rooted : Bool) (done : List Text) {name : Text} (hmem : slash ∉ name)
include hmem

/-- Read backwards, a last name ends at the slash in front of it. -/
theorem cut_lead : (lead rooted done ++ name).reverse.takeWhile (· != slash) = name.reverse ∧
    (lead rooted done ++ name).reverse.dropWhile (· != slash) = (lead rooted done).reverse := by
  have hname : ∀ b ∈ name.reverse, (b != slash) = true :=
    Text.forall_ne_iff.mpr fun hb => hmem (List.mem_reverse.mp hb)
  rw [List.reverse_append, List.takeWhile_append_of_pos hname, List.dropWhile_append_of_pos hname]
  rcases lead_cases rooted done with hlead | ⟨front, hlead⟩ <;> simp [hlead]

theorem fileName_lead (hne : name ≠ []) : fileName (lead rooted done ++ name) = name := by
  obtain ⟨front, last, rfl⟩ := (List.eq_nil_or_concat' name).resolve_left hne
  have hlast : last ≠ slash := fun he => hmem (he ▸ List.mem_concat_self)
  have htrim : (lead rooted done ++ (front ++ [last])).reverse.dropWhile (· = slash) =
      (lead rooted done ++ (front ++ [last])).reverse := by
    simp [hlast]
  simp only [fileName, htrim, (cut_lead rooted done hmem).1, List.reverse_reverse]
  simp

end

/-! ## Joined paths -/

theorem join_of_ne_nil {dir : Text} (h : dir ≠ []) (b : Text) : join dir b = normalize (dir ++ slash :: b) := by
  simp [join, h]

theorem parts_append {dir : Text} (h : dir ≠ []) (b : Text) :
    parts (dir ++ slash :: b) = ((names b).foldl (descend (isRooted dir)) (parts dir).reverse).reverse := by
  rw [parts, names_append, isRooted_append h, List.foldl_append, parts, List.reverse_reverse]

theorem join_eq {dir : Text} (h : dir ≠ []) (b : Text) : join dir b =
    spell (isRooted dir) ((names b).foldl (descend (isRooted dir)) (parts dir).reverse).reverse := by
  rw [join_of_ne_nil h, normalize_eq, isRooted_append h, parts_append h]

section
variable {name : Text} (h : IsName name) (dir : Text)
include h

omit dir in
theorem parts_of_isName : parts name = [name] := by
  rw [parts, names_of_not_mem h.ne_nil h.not_mem, List.foldl_cons, descend_of_ne h.ne_dot h.ne_dots]
  rfl

theorem join_name : join dir name = lead (isRooted dir) (parts dir) ++ name := by
  have hnames : names name = [name] := names_of_not_mem h.ne_nil h.not_mem
  by_cases hdir : dir = []
  · subst hdir
    have hjoin : join [] name = normalize name := by simp [join, h.ne_nil]
    rw [hjoin, normalize_eq, parts_of_isName h, isRooted_of_not_mem h.not_mem]
    exact spell_concat false [] name
  · rw [join_eq hdir, hnames, List.foldl_cons, List.foldl_nil, descend_of_ne h.ne_dot h.ne_dots,
      List.reverse_cons, List.reverse_reverse, spell_concat]

theorem fileName_join : fileName (join dir name) = name := by
  rw [join_name h]
  exact fileName_lead _ _ h.not_mem h.ne_nil

theorem parent_join : parent (join dir name) = normalize dir := by
  obtain ⟨hroot, hparts⟩ := (settled_parts dir).lead
  rw [join_name h, parent, (cut_lead _ _ h.not_mem).2, List.reverse_reverse, normalize_eq, hroot, hparts,
    ← normalize_eq]

theorem join_normalize : join (normalize dir) name = join dir name := by
  rw [join_name h, join_name h, isRooted_normalize, parts_normalize]

theorem join_append {ext : Text} (hext : IsName (name ++ ext)) :
    join dir name ++ ext = join dir (name ++ ext) := by
  rw [join_name h, join_name hext, List.append_assoc]

end

end TwoPass.Path
