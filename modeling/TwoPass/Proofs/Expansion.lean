import TwoPass.Proofs.BothPasses
import TwoPass.Proofs.Parsing

/-!
Macro expansion. What a call puts into a source is made of bytes of the source, and a source without
errors has neither blocks nor calls, so expanding it changes nothing.
-/
namespace TwoPass

/-! ## Keywords -/

namespace Text

/-- All ways to write a word. -/
def spellings (ways : UInt8 → List Text) (word : Text) : List Text :=
  word.foldr (fun letter ts => (ways letter).flatMap fun way => ts.map (way ++ ·)) [[]]

theorem spells_iff {ways : UInt8 → List Text} {word t : Text} :
    spells ways word t = true ↔ t ∈ spellings ways word := by
  induction word generalizing t with
  | nil => simp [spells, spellings]
  | cons letter word ih =>
      have hstep : spellings ways (letter :: word) =
          (ways letter).flatMap fun way => (spellings ways word).map (way ++ ·) := rfl
      simp only [spells, hstep, List.any_eq_true, Bool.and_eq_true, List.isPrefixOf_iff_prefix, ih,
        List.mem_flatMap, List.mem_map]
      apply exists_congr
      intro way
      apply and_congr_right
      intro _
      constructor
      · rintro ⟨hp, hs⟩
        exact ⟨_, hs, (List.prefix_iff_eq_append.mp hp)⟩
      · rintro ⟨u, hu, rfl⟩
        exact ⟨List.prefix_append way u, by rwa [List.drop_left]⟩

end Text

namespace Macro

/-- The keyword of a block is a name, but not that of an operation. -/
theorem isValid_of_opensBlock {t : Text} (h : opensBlock t = true) :
    Name.isValid t.word.1 = true ∧ Opcode.parse? t.word.1 = none := by
  have hall : ∀ w ∈ Text.spellings Text.foldings Name.blockOpening,
      Name.isValid w = true ∧ Opcode.parse? w = none := by decide +kernel
  exact hall _ (Text.spells_iff.mp h)

/-! ## Bytes -/

section
variable {b : UInt8}

theorem not_mem_fillOnto {bindings : List (Text × Text)} (hb : b ≠ ('%').toUInt8)
    (hv : ∀ pair ∈ bindings, b ∉ pair.2) {done : Array Text} {pieces : List Text}
    (hd : ∀ t ∈ done, b ∉ t) (hp : ∀ t ∈ pieces, b ∉ t) : b ∉ fillOnto bindings done pieces := by
  have hpush : ∀ {done : Array Text} {t : Text}, (∀ t ∈ done, b ∉ t) → b ∉ t → ∀ u ∈ done.push t, b ∉ u := by
    intro done t hd ht u hu
    exact (Array.mem_push.mp hu).elim (hd u) fun he => he ▸ ht
  fun_induction fillOnto bindings done pieces with
  | case1 done => simpa using hd
  | case2 done plain => simpa using And.intro hd (hp plain List.mem_cons_self)
  | case3 done plain name next rest value hvalue ih =>
      obtain ⟨before, after, hsplit, -⟩ := List.lookup_eq_some_iff.mp hvalue
      have hmem : (name, value) ∈ bindings := hsplit ▸ List.mem_append_right _ List.mem_cons_self
      refine ih (hpush (hpush hd (hp plain List.mem_cons_self)) (hv _ hmem)) fun t ht => ?_
      exact hp t (List.mem_cons_of_mem _ (List.mem_cons_of_mem _ ht))
  | case4 done plain name rest h ih =>
      have hpercent : b ∉ [('%').toUInt8] := fun hm => hb (List.mem_singleton.mp hm)
      refine ih (hpush (hpush hd (hp plain List.mem_cons_self)) hpercent) fun t ht => ?_
      exact hp t (List.mem_cons_of_mem _ ht)

theorem not_mem_substitute {bindings : List (Text × Text)} (hb : b ≠ ('%').toUInt8)
    (hv : ∀ pair ∈ bindings, b ∉ pair.2) {t : Text} (ht : b ∉ t) : b ∉ substitute bindings t :=
  not_mem_fillOnto hb hv (fun t hm => absurd hm (Array.not_mem_empty t)) fun _ hp hm =>
    ht ((Text.mem_splitOn hp).2 b hm)

theorem not_mem_bind {params args : List Text} (h : ∀ arg ∈ args, b ∉ arg) :
    ∀ pair ∈ bind params args, b ∉ pair.2 := by
  fun_induction bind params args with
  | case1 args => exact fun pair hm => absurd hm List.not_mem_nil
  | case2 p params ih => exact List.forall_mem_cons.mpr ⟨List.not_mem_nil, ih h⟩
  | case3 p params arg args ih =>
      obtain ⟨harg, hargs⟩ := List.forall_mem_cons.mp h
      exact List.forall_mem_cons.mpr ⟨harg, ih hargs⟩

theorem not_mem_listItems {t : Text} (h : b ∉ t) : ∀ item ∈ listItems t, b ∉ item := by
  unfold listItems
  split
  · exact fun item hm => absurd hm List.not_mem_nil
  · intro item hm hb
    obtain ⟨piece, hp, rfl⟩ := List.mem_map.mp hm
    exact h (Text.mem_of_mem_trim ((Text.mem_splitOn hp).2 b (Text.mem_of_mem_trim hb)))

end

/-! ## Blocks and calls -/

namespace Library

/-- The bodies of all definitions have a property. -/
def Bodies (P : Text → Prop) (lib : Library) : Prop :=
  ∀ d ∈ lib.definitions, ∀ t ∈ d.body, P t

theorem bodies_add {P : Text → Prop} {lib : Library} {d : Definition} (h : lib.Bodies P)
    (hd : ∀ t ∈ d.body, P t) : (lib.add d).Bodies P := by
  intro d' hm
  rcases List.mem_append.mp hm with hm | hm
  · exact h d' hm
  · rw [List.mem_singleton.mp hm]
    exact hd

theorem body_openBlock {lib : Library} {line : Line} {d : Definition} (h : lib.openBlock line = .ok d) :
    d.body = #[] := by
  unfold openBlock at h
  dsimp only at h
  split at h
  · cases h
  · split at h <;> cases h
    rfl

/-- Reading a file only moves lines into bodies. -/
theorem scanFrom_forall {P : Text → Prop} {lib : Library} {kept : Array Line} {block : Option Definition}
    {lines : List Line} (hlib : lib.Bodies P) (hkept : ∀ line ∈ kept, P line.text)
    (hblock : ∀ d ∈ block, ∀ t ∈ d.body, P t) (hlines : ∀ line ∈ lines, P line.text) {lib' kept'}
    (h : lib.scanFrom kept block lines = (lib', .ok kept')) :
    lib'.Bodies P ∧ ∀ line ∈ kept', P line.text := by
  have hnone : ∀ d ∈ (none : Option Definition), ∀ t ∈ d.body, P t := fun d hd => by cases hd
  fun_induction scanFrom lib kept block lines with
  | case1 lib kept =>
      cases h
      exact ⟨hlib, by simpa using hkept⟩
  | case2 lib kept d => cases h
  | case3 lib kept line lines d hc ih =>
      exact ih (bodies_add hlib (hblock d rfl)) hkept hnone (List.forall_mem_cons.mp hlines).2 h
  | case4 lib kept line lines d hc ih =>
      obtain ⟨hline, hlines⟩ := List.forall_mem_cons.mp hlines
      refine ih hlib hkept ?_ hlines h
      rintro d' ⟨⟩ t ht
      exact (Array.mem_push.mp ht).elim (hblock d rfl t) fun he => he ▸ hline
  | case5 lib kept line lines ho d hd ih =>
      refine ih hlib hkept ?_ (List.forall_mem_cons.mp hlines).2 h
      rintro d' ⟨⟩ t ht
      rw [body_openBlock hd] at ht
      exact absurd ht (Array.not_mem_empty t)
  | case6 lib kept line lines ho e he => cases h
  | case7 lib kept line lines ho ih =>
      obtain ⟨hline, hlines⟩ := List.forall_mem_cons.mp hlines
      refine ih hlib (fun line' hm => ?_) hnone hlines h
      exact (Array.mem_push.mp hm).elim (hkept line') fun he => he ▸ hline

theorem not_mem_expandLine {b : UInt8} (hb : b ≠ ('%').toUInt8) {lib : Library} (hlib : lib.Bodies (b ∉ ·))
    {line : Line} (hline : b ∉ line.text) : ∀ line' ∈ lib.expandLine line, b ∉ line'.text := by
  have hrest : b ∉ line.text.word.2 := by
    obtain ⟨blanks, -, htext, -⟩ := line.text.word_spec
    intro hm
    rw [htext] at hline
    exact hline (List.mem_append_right _ (List.mem_append_right _ hm))
  unfold expandLine
  dsimp only
  split
  · intro line' hm
    rwa [List.mem_singleton.mp hm]
  · rename_i d hd
    intro line' hm
    obtain ⟨t, ht, rfl⟩ := List.mem_map.mp hm
    have hbody := hlib d (List.mem_of_find?_eq_some hd) t (Array.mem_toList_iff.mp ht)
    exact not_mem_substitute hb (not_mem_bind (not_mem_listItems hrest)) hbody

/-- Without blocks all lines are kept. -/
theorem scanFrom_of_plain {lines : List Line} (h : ∀ line ∈ lines, opensBlock line.text = false)
    (lib : Library) (kept : Array Line) : lib.scanFrom kept none lines = (lib, .ok (kept.toList ++ lines)) := by
  induction lines generalizing kept with
  | nil => simp [scanFrom]
  | cons line lines ih =>
      obtain ⟨hline, hlines⟩ := List.forall_mem_cons.mp h
      rw [scanFrom, hline]
      simpa using ih hlines (kept.push line)

theorem expand_empty (limit : Int) (lines : List Line) : (empty limit).expand lines = lines := by
  have hline : (empty limit).expandLine = fun line => [line] := funext fun line => rfl
  rw [expand, hline, List.flatMap_singleton']

end Library

theorem expandAll_of_plain {lines : List Line} (h : ∀ line ∈ lines, opensBlock line.text = false) (limit : Int) :
    expandAll lines limit = .ok lines := by
  rw [expandAll, Library.scan, Library.scanFrom_of_plain h]
  exact congrArg Except.ok (Library.expand_empty limit lines)

/-- Every byte of an expanded source but the percent sign comes from the source. -/
theorem not_mem_expandAll {b : UInt8} (hb : b ≠ ('%').toUInt8) {lines out : List Line} {limit : Int}
    (h : ∀ line ∈ lines, b ∉ line.text) (he : expandAll lines limit = .ok out) :
    ∀ line ∈ out, b ∉ line.text := by
  unfold expandAll at he
  split at he
  · rename_i lib kept hscan
    cases he
    have hempty : (Library.empty limit).Bodies (b ∉ ·) := fun d hd => absurd hd List.not_mem_nil
    obtain ⟨hlib, hkept⟩ := Library.scanFrom_forall hempty (fun line hm => absurd hm (Array.not_mem_empty line))
      (fun d hd => by cases hd) h hscan
    intro line hm
    obtain ⟨call, hcall, hline⟩ := List.mem_flatMap.mp hm
    exact Library.not_mem_expandLine hb hlib (hkept call hcall) line hline
  · cases he

end Macro

/-! ## Sources without errors -/

namespace Assembly

/-- A line that opens a block is not read as code without errors. -/
theorem opensBlock_of_no_errors {lines : List Line} (h : (ofLines lines).errors = []) {line : Line}
    (hline : line ∈ lines) : Macro.opensBlock line.text = false := by
  by_contra ho
  obtain ⟨hv, hnone⟩ := Macro.isValid_of_opensBlock (Bool.of_not_eq_false ho)
  obtain ⟨s, hs, -, ha⟩ := Line.parse_of_word hv
  have hmem : s ∈ Statement.ofLines lines := List.mem_filterMap.mpr ⟨line, hline, by rw [Line.statement?, hs]⟩
  obtain ⟨p, hp, rfl⟩ := Placed.exists_of_mem hmem
  obtain ⟨-, -, -, hfaults, -⟩ := (errors_ofLines_eq_nil lines).mp h
  obtain ⟨r, hr⟩ := Placed.encoded_of_faults (hfaults p hp)
  obtain ⟨o, ops, ho, -⟩ := Placed.encoded_instruction hr ha
  rw [hnone] at ho
  cases ho

theorem expandAll_of_no_errors {lines : List Line} (h : (ofLines lines).errors = []) (limit : Int) :
    Macro.expandAll lines limit = .ok lines :=
  Macro.expandAll_of_plain (fun _ => opensBlock_of_no_errors h) limit

end Assembly

end TwoPass
