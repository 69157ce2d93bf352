import TwoPass.Proofs.Expansion
import TwoPass.Proofs.ReadingStreams
import TwoPass.Proofs.Spacing

/-!
The expanded source is a source. It is read back to the lines that were written, but for one carriage
return at the end of each, which no reading of a line sees.
-/
namespace TwoPass

namespace Line

/-- A carriage return at the end of a line does not show in what the line says. -/
theorem reading_dropReturn (number number' : Int) (t : Text) :
    (⟨number, dropReturn t⟩ : Line).reading = (⟨number', t⟩ : Line).reading := by
  unfold dropReturn
  split
  · rename_i hlast
    obtain ⟨s, rfl⟩ := List.getLast?_eq_some_iff.mp hlast
    have hreturn : Text.IsWhite ['\r'.toUInt8] := Text.isWhite_encodeChar (c := '\r') (by decide)
    rw [List.dropLast_concat]
    exact (reading_pad Text.isWhite_nil hreturn number' number s).symm
  · exact reading_congr rfl rfl

/-- The lines that the texts between line feeds stand for. -/
def numbered (texts : List Text) : List Line :=
  texts.mapIdx fun i t => ⟨i + 1, dropReturn t⟩

theorem map_numbered {β : Type} {f g : Line → β} (h : ∀ number (l : Line), f ⟨number, dropReturn l.text⟩ = g l)
    (lines : List Line) : (numbered (lines.map (·.text))).map f = lines.map g := by
  refine List.ext_getElem (by simp [numbered]) fun i h₁ h₂ => ?_
  simp only [numbered, List.getElem_map, List.getElem_mapIdx]
  exact h _ _

theorem ofText?_eq_some {t : Text} {lines : List Line} :
    ofText? t = some lines ↔ (∀ piece ∈ chunks t, piece.length < sizeLimit) ∧ numbered (chunks t) = lines := by
  simp [ofText?, numbered]

theorem holds_expanded {lines : List Line} (hfree : ∀ l ∈ lines, '\n'.toUInt8 ∉ l.text) :
    List.Forall₂ Stream.Holds (Stream.expanded lines) (lines.map (·.text)) := by
  rw [Stream.expanded, List.forall₂_map_left_iff, List.forall₂_map_right_iff, List.forall₂_same]
  exact fun l hl => ⟨rfl, hfree l hl⟩

theorem ofText?_expanded {lines : List Line} (hfree : ∀ l ∈ lines, '\n'.toUInt8 ∉ l.text)
    (hsize : ∀ l ∈ lines, l.text.length < sizeLimit) :
    ofText? (Stream.expanded lines).text = some (numbered (lines.map (·.text))) := by
  rw [ofText?_eq_some, Stream.chunks_text (holds_expanded hfree)]
  exact ⟨List.forall_mem_map.mpr hsize, rfl⟩

/-- No line of a source text holds a line feed. -/
theorem newline_not_mem {text : Text} {lines : List Line} (h : ofText? text = some lines) :
    ∀ l ∈ lines, '\n'.toUInt8 ∉ l.text := by
  obtain ⟨-, rfl⟩ := ofText?_eq_some.mp h
  have hchunk : ∀ piece ∈ chunks text, '\n'.toUInt8 ∉ piece := by
    intro piece hp
    have hmem : piece ∈ text.splitOn '\n'.toUInt8 := by
      unfold chunks at hp
      dsimp only at hp
      split at hp
      · exact List.mem_of_mem_dropLast hp
      · exact hp
    exact (Text.mem_splitOn hmem).1
  intro l hl
  obtain ⟨i, hi, rfl⟩ := List.mem_mapIdx.mp hl
  have hpiece := hchunk _ (List.getElem_mem hi)
  dsimp only
  unfold dropReturn
  split
  · exact fun hm => hpiece (List.mem_of_mem_dropLast hm)
  · exact hpiece

end Line

namespace Assembly

theorem ofText_eq_ok {text : Text} {limit : Int} {lines : List Line} {a : Assembly} :
    ofText text limit = .ok (lines, a) ↔
      ∃ raw, Line.ofText? text = some raw ∧ Macro.expandAll raw limit = .ok lines ∧ ofLines lines = a := by
  unfold ofText expandText
  cases hr : Line.ofText? text with
  | none => simp
  | some raw =>
      cases he : Macro.expandAll raw limit with
      | error d => simp [he]
      | ok out => simp +contextual [he, Prod.ext_iff]

/-- No line of an expanded source holds a line feed. -/
theorem newline_not_mem_expandText {text : Text} {limit : Int} {lines : List Line}
    (h : expandText text limit = .ok lines) : ∀ l ∈ lines, '\n'.toUInt8 ∉ l.text := by
  unfold expandText at h
  split at h
  · cases h
  · rename_i raw hraw
    exact Macro.not_mem_expandAll (by decide) (Line.newline_not_mem hraw) h

/-- The expanded source is as good as the source. It is assembled without errors under any limit, to
the same program but for places, and its lines are those that were written, but for one carriage
return at the end of each. -/
theorem expanded_assembles (text : Text) (limit : Int) (lines : List Line) (a : Assembly)
    (h : ofText text limit = .ok (lines, a)) (herrors : a.errors = [])
    (hsize : ∀ l ∈ lines, l.text.length < Line.sizeLimit) (limit' : Int) :
    ∃ lines' a', ofText (Stream.expanded lines).text limit' = .ok (lines', a') ∧ a'.errors = [] ∧
      a'.program.instructions = a.program.instructions ∧ a'.program.data = a.program.data ∧
      a'.program.externals = a.program.externals ∧
      a'.program.symbols.unplaced = a.program.symbols.unplaced ∧
      a'.program.warnings.map Diagnostic.unplaced = a.program.warnings.map .unplaced ∧
      lines'.map (·.text) = lines.map fun l => Line.dropReturn l.text := by
  obtain ⟨raw, hraw, hexpand, rfl⟩ := ofText_eq_ok.mp h
  have hfree := Macro.not_mem_expandAll (by decide) (Line.newline_not_mem hraw) hexpand
  have hread := Line.ofText?_expanded hfree hsize
  have hreading := Line.map_numbered (fun number l => Line.reading_dropReturn number l.number l.text) lines
  have herrors' : (ofLines (Line.numbered (lines.map (·.text)))).errors = [] := by
    have hmap := errors_congr hreading
    rw [herrors] at hmap
    exact List.map_eq_nil_iff.mp hmap
  have hexpand' := expandAll_of_no_errors herrors' limit'
  obtain ⟨hcode, hdata, hsymbols, huses, hwarnings⟩ := Program.mk.inj (program_congr hreading)
  exact ⟨_, _, ofText_eq_ok.mpr ⟨_, hread, hexpand', rfl⟩, herrors', hcode, hdata, huses, hsymbols, hwarnings,
    Line.map_numbered (fun _ _ => rfl) lines⟩

/-- A source with a call of a macro whose body keeps a carriage return, and with a label that is ignored. -/
def callSource : Text :=
  Text.of "MACRO bump x\n A: inc %x%\r\r\nENDM\nB:\nbump r1\n"

def callLines : List Line :=
  [⟨4, Text.of "B:"⟩, ⟨5, Text.of " A: inc r1\r"⟩]

theorem callSource_expanded :
    ofText callSource 64 = .ok (callLines, ofLines callLines) ∧ (ofLines callLines).errors = [] ∧
      ∃ lines' a', ofText (Stream.expanded callLines).text 1 = .ok (lines', a') ∧ a'.errors = [] ∧
        a'.program.instructions = [28689] ∧ a'.program.warnings.length = 1 ∧
        lines'.map (·.text) = [Text.of "B:", Text.of " A: inc r1"] := by
  have hexpand : expandText callSource 64 = .ok callLines := by decide +kernel
  have hsource : ofText callSource 64 = .ok (callLines, ofLines callLines) := by rw [ofText, hexpand]
  have herrors : (ofLines callLines).errors = [] := by decide +kernel
  obtain ⟨lines', a', h, herrors', hcode, -, -, -, hwarnings, htexts⟩ :=
    expanded_assembles callSource 64 callLines _ hsource herrors (by decide +kernel) 1
  refine ⟨hsource, herrors, lines', a', h, herrors', ?_, ?_, ?_⟩
  · rw [hcode]
    decide +kernel
  · have hlength := congrArg List.length hwarnings
    rw [List.length_map, List.length_map] at hlength
    rw [hlength]
    decide +kernel
  · rw [htexts]
    decide +kernel

end Assembly

end TwoPass
