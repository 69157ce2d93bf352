import TwoPass.Report.Excerpt
import TwoPass.Proofs.Blocks
import TwoPass.Proofs.ExpandedSource
import TwoPass.Proofs.Places

/-!
Diagnostics and the lines of the source file. Columns count in the lines that were assembled, while a
report shows the lines as they were written. The two differ only in lines that macro calls stand in,
and a listing marks these.
-/
namespace TwoPass

/-! ## Marked lines -/

namespace Report.Listing

theorem index?_eq_some {n : Int} {i : Nat} : index? n = some i ↔ 1 ≤ n ∧ (n - 1).toNat = i := by
  unfold index?
  split <;> simp_all

/-- A different text stands under the number of a line. -/
def Differs (lines : Array Text) (i : Nat) (l : Line) : Prop :=
  index? l.number = some i ∧ ∃ text, lines[i]? = some text ∧ l.text ≠ text

section
variable {lines : Array Text} {changed : Array Bool} {i : Nat} {l : Line}

theorem mark_of_differs (h : Differs lines i l) : mark lines changed l = changed.setIfInBounds i true := by
  obtain ⟨hi, text, htext, hne⟩ := h
  simp only [mark, hi, htext, if_neg hne]

theorem mark_of_not_differs (h : ∀ i, ¬ Differs lines i l) : mark lines changed l = changed := by
  unfold mark
  split
  · rfl
  · rename_i i hi
    split
    · rfl
    · rename_i text htext
      exact if_pos (not_not.mp fun hne => h i ⟨hi, text, htext, hne⟩)

theorem Differs.index_lt (h : Differs lines i l) : i < lines.size := by
  obtain ⟨-, text, htext, -⟩ := h
  exact (Array.getElem?_eq_some_iff.mp htext).1

theorem Differs.index_eq {j : Nat} (h : Differs lines i l) (h' : Differs lines j l) : i = j :=
  Option.some.inj (h.1.symm.trans h'.1)

theorem mark_spec (hsize : changed.size = lines.size) (l : Line) :
    (mark lines changed l).size = lines.size ∧
      ((mark lines changed l)[i]? = some true ↔ changed[i]? = some true ∨ Differs lines i l) := by
  by_cases h : ∃ j, Differs lines j l
  · obtain ⟨j, hj⟩ := h
    rw [mark_of_differs hj, Array.size_setIfInBounds]
    refine ⟨hsize, ?_⟩
    by_cases hij : j = i
    · subst hij
      simp [hj, hsize, hj.index_lt]
    · have hno : ¬ Differs lines i l := fun hi => hij (hj.index_eq hi)
      simp [hij, hno]
  · rw [not_exists] at h
    rw [mark_of_not_differs h]
    simp [hsize, h]

theorem foldl_mark (hsize : changed.size = lines.size) (expanded : List Line) :
    (expanded.foldl (mark lines) changed)[i]? = some true ↔
      changed[i]? = some true ∨ ∃ l ∈ expanded, Differs lines i l := by
  induction expanded generalizing changed with
  | nil => simp
  | cons l expanded ih =>
      obtain ⟨hnext, hmark⟩ := mark_spec hsize l
      rw [List.foldl_cons, ih hnext, hmark, List.exists_mem_cons_iff, or_assoc]

end

/-- A line is marked if what was assembled under its number is not what was written. -/
theorem isChanged_ofLines {raw expanded : List Line} {n : Int} :
    (ofLines raw expanded).isChanged n = true ↔
      ∃ l ∈ expanded, l.number = n ∧ 1 ≤ n ∧ ∃ line, raw[(n - 1).toNat]? = some line ∧ l.text ≠ line.text := by
  have hchanged : (ofLines raw expanded).isChanged n = true ↔
      ∃ i, index? n = some i ∧ (ofLines raw expanded).changed[i]? = some true := by
    unfold isChanged
    cases index? n with
    | none => simp
    | some i => cases hc : (ofLines raw expanded).changed[i]? <;> simp [hc]
  have hfold : ∀ i : Nat, (ofLines raw expanded).changed[i]? = some true ↔
      ∃ l ∈ expanded, Differs (raw.map (·.text)).toArray i l := by
    intro i
    refine (foldl_mark (by simp) expanded).trans (or_iff_right ?_)
    intro h
    rw [Array.getElem?_replicate] at h
    split at h <;> cases h
  rw [hchanged]
  simp only [hfold, Differs, index?_eq_some]
  constructor
  · rintro ⟨i, ⟨hn, rfl⟩, l, hl, ⟨hl₁, hi⟩, text, htext, hne⟩
    simp only [List.getElem?_toArray, List.getElem?_map, Option.map_eq_some_iff] at htext
    obtain ⟨line, hline, rfl⟩ := htext
    exact ⟨l, hl, by omega, hn, line, hline, hne⟩
  · rintro ⟨l, hl, rfl, hn, line, hline, hne⟩
    exact ⟨_, ⟨hn, rfl⟩, l, hl, ⟨hn, rfl⟩, line.text,
      by rw [List.getElem?_toArray, List.getElem?_map, hline, Option.map_some], hne⟩

end Report.Listing

/-! ## Line numbers -/

/-- The number of a line in a source text is its place. -/
theorem Line.getElem?_of_mem {text : Text} {raw : List Line} (h : ofText? text = some raw) {line : Line}
    (hl : line ∈ raw) : 1 ≤ line.number ∧ raw[(line.number - 1).toNat]? = some line := by
  obtain ⟨-, rfl⟩ := ofText?_eq_some.mp h
  obtain ⟨i, hi⟩ := List.mem_iff_getElem?.mp hl
  have hline := hi
  rw [numbered, List.getElem?_mapIdx, Option.map_eq_some_iff] at hline
  obtain ⟨piece, -, rfl⟩ := hline
  exact ⟨by dsimp only; omega, by simpa using hi⟩

namespace Macro

theorem Library.number_expandLine {lib : Library} {line l : Line} (h : l ∈ lib.expandLine line) :
    l.number = line.number := by
  unfold expandLine at h
  dsimp only at h
  split at h
  · rw [List.mem_singleton.mp h]
  · obtain ⟨t, -, rfl⟩ := List.mem_map.mp h
    rfl

variable {lines : List Line} {limit : Int}

theorem number_expandAll {out : List Line} (h : expandAll lines limit = .ok out) {l : Line} (hl : l ∈ out) :
    ∃ line ∈ lines, l.number = line.number := by
  obtain ⟨segments, hd⟩ := exists_divided lines
  rcases hd.expandAll limit with ⟨-, he⟩ | ⟨-, e, b, -, he, -, -⟩
  · rw [h] at he
    cases he
    obtain ⟨line, hline, hl⟩ := List.mem_flatMap.mp hl
    exact ⟨line, hd.mem_of_outside line hline, Library.number_expandLine hl⟩
  · rw [h] at he
    cases he

/-! ## Headers -/

theorem exists_headerSpan (line : Line) : ∃ t : Token, t.StandsIn line ∧ t.position = headerSpan line := by
  let inner := line.text.dropWhile Text.isBlank
  obtain ⟨lead, hlead⟩ : inner <:+ line.text := List.dropWhile_suffix _
  obtain ⟨trail, htrail⟩ : (inner.reverse.dropWhile Text.isBlank).reverse <+: inner := by
    rw [← List.reverse_suffix, List.reverse_reverse]
    exact List.dropWhile_suffix _
  refine ⟨⟨headerSpan line, (inner.reverse.dropWhile Text.isBlank).reverse⟩, ⟨lead, trail, ?_, ?_⟩, rfl⟩
  · rw [htrail, hlead]
  · have hlength := congrArg List.length hlead
    rw [List.length_append] at hlength
    have hcolumn : (line.text.length - inner.length + 1 : Int) = lead.length + 1 := by omega
    exact congrArg (fun column : Int => Span.mk line.number column _) hcolumn

theorem pointsInto_of_structural {d : Diagnostic} (hk : d.kind = .structural) {line : Line}
    (hp : d.position? = some (headerSpan line)) : d.PointsInto line := by
  obtain ⟨t, ht, he⟩ := exists_headerSpan line
  refine Diagnostic.pointsInto_of_silent ht (he ▸ hp) ?_
  cases d with
  | tooManyMacros => rfl
  | macroHeader => rfl
  | missingEndm => rfl
  | context => rfl
  | _ => cases hk

theorem pointsInto_expandAll {d : Diagnostic} (h : expandAll lines limit = .error d) :
    ∃ line ∈ lines, d.PointsInto line := by
  obtain ⟨segments, hd⟩ := exists_divided lines
  rcases hd.expandAll limit with ⟨-, he⟩ | ⟨-, e, b, hb, he, hk, hp⟩
  · rw [h] at he
    cases he
  · rw [h] at he
    cases he
    exact ⟨b.header, (hd.header_mem b hb).1, pointsInto_of_structural hk hp⟩

end Macro

/-! ## The source as it was written -/

/-- A diagnostic of a source that was written as `raw` and assembled as `expanded`. It points at a line
of the source, and unless that line was replaced by others at a part of it. A text that the diagnostic
repeats is that part. -/
def Diagnostic.ShowsIn (raw expanded : List Line) (d : Diagnostic) : Prop :=
  ∃ p, d.position? = some p ∧ 1 ≤ p.line ∧ p.line ≤ raw.length ∧
    ((Report.Listing.ofLines raw expanded).isChanged p.line = true ∨
      ∃ line, raw[(p.line - 1).toNat]? = some line ∧ 1 ≤ p.column ∧ 0 ≤ p.size ∧
        p.column - 1 + p.size ≤ line.text.length ∧
        ∀ text, d.quoted? = some text → (line.text.drop (p.column - 1).toNat).take p.size.toNat = text)

theorem Token.StandsIn.extract {t : Token} {line : Line} (h : t.StandsIn line) :
    t.position.line = line.number ∧ 1 ≤ t.position.column ∧ 0 ≤ t.position.size ∧
      t.position.column - 1 + t.position.size ≤ line.text.length ∧
      (line.text.drop (t.position.column - 1).toNat).take t.position.size.toNat = t.value := by
  obtain ⟨before, after, htext, hposition⟩ := h
  have hlength := congrArg List.length htext
  rw [List.length_append, List.length_append] at hlength
  rw [hposition]
  refine ⟨rfl, by dsimp only; omega, by dsimp only; omega, by dsimp only; omega, ?_⟩
  simp [htext]

/-- What points into a line that stands under the number of a line of the source is shown there. -/
theorem Diagnostic.PointsInto.showsIn {text : Text} {raw expanded : List Line} (hraw : Line.ofText? text = some raw)
    {d : Diagnostic} {l line : Line} (h : d.PointsInto l) (hline : line ∈ raw) (hn : l.number = line.number)
    (hl : l.text = line.text ∨ l ∈ expanded) : d.ShowsIn raw expanded := by
  obtain ⟨t, ht, hp, hq⟩ := h
  obtain ⟨hnumber, hcolumn, hsize, hend, htext⟩ := ht.extract
  obtain ⟨hfirst, hget⟩ := Line.getElem?_of_mem hraw hline
  have hlt := (List.getElem?_eq_some_iff.mp hget).1
  refine ⟨t.position, hp, by omega, by omega, ?_⟩
  rw [hnumber, hn]
  by_cases he : l.text = line.text
  · rw [he] at hend htext
    exact Or.inr ⟨line, hget, hcolumn, hsize, hend, fun text hs => htext.trans (hq text hs).symm⟩
  · exact Or.inl (Report.Listing.isChanged_ofLines.mpr ⟨l, hl.resolve_left he, hn, hfirst, line, hget, he⟩)

namespace Assembly

/-- Diagnostics point at the text they are about. Where a source cannot be expanded, the fault points
into a line of it. Otherwise all errors but the one about the size of the image, and all warnings, point
into a line of the source or at a line that a macro call stands in. -/
theorem diagnostics_show_text {text : Text} {raw : List Line} (hraw : Line.ofText? text = some raw) (limit : Int) :
    (∀ d, ofText text limit = .error d → d.ShowsIn raw []) ∧
      ∀ expanded a, ofText text limit = .ok (expanded, a) →
        (∀ d ∈ a.errors, d = .oversizedImage Memory.room (Layout.ofLines expanded).size ∨ d.ShowsIn raw expanded) ∧
        ∀ d ∈ a.program.warnings, d.ShowsIn raw expanded := by
  constructor
  · intro d h
    have hexpand : Macro.expandAll raw limit = .error d := by
      unfold ofText expandText at h
      rw [hraw] at h
      dsimp only at h
      split at h
      · cases h
        assumption
      · cases h
    obtain ⟨line, hline, hd⟩ := Macro.pointsInto_expandAll hexpand
    exact hd.showsIn hraw hline rfl (Or.inl rfl)
  · intro expanded a h
    obtain ⟨_, hraw', hexpand, rfl⟩ := ofText_eq_ok.mp h
    cases hraw.symm.trans hraw'
    have hshow : ∀ d : Diagnostic, (∃ l ∈ expanded, d.PointsInto l) → d.ShowsIn raw expanded := by
      rintro d ⟨l, hl, hd⟩
      obtain ⟨line, hline, hn⟩ := Macro.number_expandAll hexpand hl
      exact hd.showsIn hraw hline hn (Or.inr hl)
    exact ⟨fun d hd => (pointsInto_of_error hd).imp_right (hshow d), fun d hd => hshow d (pointsInto_of_warning hd)⟩

/-- A name that is not defined, in a line that is indented, and a call of a macro with a body at fault. -/
def farText : Text :=
  Text.of "MACRO bump x\ninc %x%, %x%\nENDM\n  mov  Y, r1 ; far\nbump r1\n"

def farLines : List Line :=
  [⟨1, Text.of "MACRO bump x"⟩, ⟨2, Text.of "inc %x%, %x%"⟩, ⟨3, Text.of "ENDM"⟩,
    ⟨4, Text.of "  mov  Y, r1 ; far"⟩, ⟨5, Text.of "bump r1"⟩]

def farExpanded : List Line :=
  [⟨4, Text.of "  mov  Y, r1 ; far"⟩, ⟨5, Text.of "inc r1, r1"⟩]

theorem farText_shown :
    Line.ofText? farText = some farLines ∧ ofText farText 0 = .ok (farExpanded, ofLines farExpanded) ∧
      (ofLines farExpanded).errors = [.unknownLabel ⟨4, 8, 1⟩ (Text.of "Y"), .argumentCount ⟨5, 1, 3⟩ 1 2] ∧
      ∀ d ∈ (ofLines farExpanded).errors, d.ShowsIn farLines farExpanded := by
  have hraw : Line.ofText? farText = some farLines := by decide +kernel
  have hexpand : Macro.expandAll farLines 0 = .ok farExpanded := by decide +kernel
  have herrors : (ofLines farExpanded).errors =
      [.unknownLabel ⟨4, 8, 1⟩ (Text.of "Y"), .argumentCount ⟨5, 1, 3⟩ 1 2] := by decide +kernel
  have hok : ofText farText 0 = .ok (farExpanded, ofLines farExpanded) :=
    ofText_eq_ok.mpr ⟨farLines, hraw, hexpand, rfl⟩
  have hshow := ((diagnostics_show_text hraw 0).2 _ _ hok).1
  rw [herrors] at hshow
  refine ⟨hraw, hok, herrors, ?_⟩
  rw [herrors]
  intro d hd
  refine (hshow d hd).resolve_left ?_
  rintro rfl
  simp at hd

end Assembly

end TwoPass
