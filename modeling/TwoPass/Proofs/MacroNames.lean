import TwoPass.Proofs.Blocks
import TwoPass.Proofs.ExpandedSource

/-!
Macros do not get in the way of assembly. The name of a macro is never a word that assembly has a
meaning for, so a line that is read as anything but an unknown instruction is no call.
-/
namespace TwoPass

/-- A line that is read as something else than an instruction under an unknown mnemonic. -/
def Line.IsKnown (line : Line) : Prop :=
  ∃ parsed, line.parse = .ok parsed ∧ ∀ s, parsed = .statement s → s.action ≠ .instruction none

theorem Name.parse?_of_not_reserved {t : Text} (h : isReserved t = false) : Opcode.parse? t = none := by
  simp only [isReserved, Bool.or_eq_false_iff] at h
  simpa using h.1.1.1.1

namespace Macro.Library

/-- The libraries that reading one file after the other leads to, whether or not a file can be read. -/
inductive Reachable : Library → Prop
  | empty (limit : Int) : Reachable (empty limit)
  | scan {lib} (h : Reachable lib) (lines : List Line) : Reachable (lib.scan lines).1

/-- Reading a file keeps what holds of every definition when it is opened and as its body grows. -/
theorem scanFrom_definitions {P : Definition → Prop}
    (hopen : ∀ {lib : Library} {line d}, lib.openBlock line = .ok d → P d)
    (hpush : ∀ {d : Definition} {t : Text}, P d → P { d with body := d.body.push t })
    {lib : Library} {kept : Array Line} {block : Option Definition} {lines : List Line}
    (hlib : ∀ d ∈ lib.definitions, P d) (hblock : ∀ d ∈ block, P d) :
    ∀ d ∈ (lib.scanFrom kept block lines).1.definitions, P d := by
  fun_induction scanFrom lib kept block lines with
  | case1 lib kept => exact hlib
  | case2 lib kept d => exact hlib
  | case3 lib kept line lines d hc ih =>
      refine ih (fun d' hd' => ?_) fun d' hd' => by cases hd'
      rcases List.mem_append.mp hd' with hd' | hd'
      · exact hlib d' hd'
      · rw [List.mem_singleton.mp hd']
        exact hblock d rfl
  | case4 lib kept line lines d hc ih =>
      refine ih hlib ?_
      rintro d' ⟨⟩
      exact hpush (hblock d rfl)
  | case5 lib kept line lines ho d hd ih =>
      refine ih hlib ?_
      rintro d' ⟨⟩
      exact hopen hd
  | case6 lib kept line lines ho e he => exact hlib
  | case7 lib kept line lines ho ih => exact ih hlib fun d' hd' => by cases hd'

theorem Reachable.names {lib : Library} (h : Reachable lib) :
    ∀ d ∈ lib.definitions, Name.isValid d.name = true ∧ Name.isReserved d.name = false := by
  induction h with
  | empty limit => exact fun d hd => absurd hd List.not_mem_nil
  | scan h lines ih =>
      refine scanFrom_definitions ?_ (fun hd => hd) ih fun d hd => by cases hd
      intro lib line d hd
      obtain ⟨-, hs, -, rfl⟩ := openBlock_eq_ok (b := ⟨line, [], none⟩).mp hd
      exact ⟨hs.isValid, hs.notReserved⟩

theorem expandLine_of_isKnown {lib : Library}
    (hlib : ∀ d ∈ lib.definitions, Name.isValid d.name = true ∧ Name.isReserved d.name = false) {line : Line}
    (h : line.IsKnown) : lib.expandLine line = [line] := by
  unfold expandLine
  dsimp only
  cases hf : lib.find? line.text.word.1 with
  | none => rfl
  | some d =>
      have hname : d.name = line.text.word.1 := by simpa using List.find?_some hf
      obtain ⟨hv, hr⟩ := hlib d (List.mem_of_find?_eq_some hf)
      rw [hname] at hv hr
      -- a line under the name of a macro is an instruction that assembly does not know
      obtain ⟨s, hs, -, ha⟩ := Line.parse_of_word hv
      obtain ⟨parsed, hp, hknown⟩ := h
      rw [Name.parse?_of_not_reserved hr] at ha
      exact absurd ha (hknown s (Except.ok.inj (hp.symm.trans hs)))

end Macro.Library

/-- A line that is read as assembly stays as it is among any lines, whatever files were read for macros.
Lines that are assembled without errors are their own expansion, so a source that consists of them is
assembled as they are. -/
theorem Macro.assembly_unchanged :
    (∀ lib, Library.Reachable lib → ∀ line : Line, line.IsKnown → ∀ before after,
      lib.expand (before ++ line :: after) = lib.expand before ++ line :: lib.expand after) ∧
    ∀ lines : List Line, (Assembly.ofLines lines).errors = [] → ∀ limit,
      expandAll lines limit = .ok lines ∧
        ∀ text, Line.ofText? text = some lines →
          Assembly.ofText text limit = .ok (lines, Assembly.ofLines lines) := by
  constructor
  · intro lib hlib line hline before after
    have hsame := Library.expandLine_of_isKnown hlib.names hline
    simp [Library.expand, hsame]
  · intro lines herrors limit
    have hexpand := Assembly.expandAll_of_no_errors herrors limit
    exact ⟨hexpand, fun text htext => Assembly.ofText_eq_ok.mpr ⟨lines, htext, hexpand, rfl⟩⟩

/-- Two files: the second repeats a block of the first behind a block of its own. -/
def Macro.twiceRead : Library :=
  (((Library.empty 0).scan [⟨1, Text.of "MACRO bump"⟩, ⟨2, Text.of "ENDM"⟩]).1.scan
    [⟨1, Text.of "MACRO drop"⟩, ⟨2, Text.of "endm"⟩, ⟨3, Text.of "MACRO bump"⟩]).1

/-- A label may have the name of a macro. -/
def Macro.labelText : Text :=
  Text.of " bump: inc r1 ; drop"

def Macro.labelStatement : Statement :=
  { line := 1
    label := some ⟨⟨1, 2, 4⟩, Text.of "bump"⟩
    action := .instruction (some .inc)
    keyword := ⟨⟨1, 8, 3⟩, Text.of "inc"⟩
    args := ⟨⟨1, 12, 2⟩, Text.of "r1"⟩ }

theorem Macro.labelText_unchanged :
    Library.Reachable twiceRead ∧ twiceRead.definitions.map (·.name) = [Text.of "bump", Text.of "drop"] ∧
      (⟨1, labelText⟩ : Line).parse = .ok (.statement labelStatement) ∧
      twiceRead.expand [⟨6, Text.of "drop"⟩, ⟨1, labelText⟩] = [⟨1, labelText⟩] ∧
      (Assembly.ofLines [⟨1, labelText⟩]).errors = [] ∧
      Assembly.ofText labelText 3 = .ok ([⟨1, labelText⟩], Assembly.ofLines [⟨1, labelText⟩]) := by
  have hreach : Library.Reachable twiceRead := .scan (.scan (.empty 0) _) _
  have hparse : (⟨1, labelText⟩ : Line).parse = .ok (.statement labelStatement) := by decide +kernel
  have hknown : (⟨1, labelText⟩ : Line).IsKnown := by
    refine ⟨_, hparse, ?_⟩
    rintro s ⟨⟩
    decide
  have herrors : (Assembly.ofLines [⟨1, labelText⟩]).errors = [] := by decide +kernel
  have hcall : twiceRead.expand [⟨6, Text.of "drop"⟩] = [] := by decide +kernel
  obtain ⟨hline, hlines⟩ := assembly_unchanged
  have hsame := hline _ hreach _ hknown [⟨6, Text.of "drop"⟩] []
  rw [hcall] at hsame
  exact ⟨hreach, by decide +kernel, hparse, hsame, herrors, (hlines _ herrors 3).2 _ (by decide +kernel)⟩

end TwoPass
