import TwoPass.Proofs.FirstPass
import TwoPass.Proofs.SecondPass

/-!
Both passes together. Whether the second pass runs depends on the size of the image alone, and if it
runs the program is read off the statements.
-/
namespace TwoPass

/-- The image of a program fits into memory behind the load address. -/
def Statement.Fits (ss : List Statement) : Prop :=
  Memory.base + codeTotal ss + (dataAll ss).length ≤ Memory.size

namespace Layout

theorem Holds.fits {l ss} (h : Holds l ss) : l.size ≤ Memory.room ↔ Statement.Fits ss := by
  rw [h.size, Statement.Fits]
  simp only [Memory.room, Memory.size, Memory.base]
  omega

theorem finalSymbols_eq_ok {lines table} :
    (ofLines lines).finalSymbols = .ok table ↔
      Statement.Fits (Statement.ofLines lines) ∧ finalTable (Statement.ofLines lines) = table := by
  have h := holds_ofLines lines
  rw [h.finalSymbols, ← h.fits]
  by_cases hs : (ofLines lines).size ≤ Memory.room <;> simp [hs]

theorem finalSymbols_eq_error {lines} (h : ¬ Statement.Fits (Statement.ofLines lines)) :
    (ofLines lines).finalSymbols = .error (.oversizedImage Memory.room (ofLines lines).size) := by
  have hl := holds_ofLines lines
  rw [hl.finalSymbols, if_neg fun hs => h (hl.fits.mp hs)]

end Layout

namespace Assembly

/-- The program of a source whose image fits. -/
theorem program_ofLines {lines} (h : Statement.Fits (Statement.ofLines lines)) :
    (ofLines lines).program =
      { instructions := (Placed.list (Statement.ofLines lines)).flatMap
          (Placed.codeWords (Layout.finalTable (Statement.ofLines lines)))
        data := Statement.dataAll (Statement.ofLines lines)
        symbols := (Layout.finalTable (Statement.ofLines lines)).mark
          (Statement.exports (Layout.finalTable (Statement.ofLines lines)) (Statement.ofLines lines))
        externals := (Placed.list (Statement.ofLines lines)).flatMap
          (Placed.uses (Layout.finalTable (Statement.ofLines lines)))
        warnings := (Layout.ofLines lines).warnings.toList } := by
  have hl := Layout.holds_ofLines lines
  have hf := Layout.finalSymbols_eq_ok.mpr ⟨h, rfl⟩
  obtain ⟨e, he, hh⟩ := Emission.holds_ofStatements (Layout.finalTable (Statement.ofLines lines))
    (Statement.ofLines lines)
  simp only [ofLines, hf, hl.statements, he, hl.data, hh.instructions, hh.symbols, hh.externals]

/-- The debug table of a source whose image fits. -/
theorem debug_ofLines {lines} (h : Statement.Fits (Statement.ofLines lines)) :
    (ofLines lines).debug =
      { lines := (Placed.list (Statement.ofLines lines)).filterMap Placed.debugLine?
        labels := (ofLines lines).program.symbols.labels } := by
  have hl := Layout.holds_ofLines lines
  have hf := Layout.finalSymbols_eq_ok.mpr ⟨h, rfl⟩
  obtain ⟨e, he, hh⟩ := Emission.holds_ofStatements (Layout.finalTable (Statement.ofLines lines))
    (Statement.ofLines lines)
  simp only [ofLines, hf, hl.statements, he, hh.lines]

theorem errors_ofLines {lines} (h : Statement.Fits (Statement.ofLines lines)) :
    (ofLines lines).errors = (Layout.ofLines lines).errors.toList ++
      (Placed.list (Statement.ofLines lines)).flatMap
        (Placed.faults (Layout.finalTable (Statement.ofLines lines))) := by
  have hl := Layout.holds_ofLines lines
  have hf := Layout.finalSymbols_eq_ok.mpr ⟨h, rfl⟩
  obtain ⟨e, he, hh⟩ := Emission.holds_ofStatements (Layout.finalTable (Statement.ofLines lines))
    (Statement.ofLines lines)
  simp only [ofLines, hf, hl.statements, he, Array.toList_append, hh.errors]

/-- A source whose image does not fit gets one more error and no second pass. -/
theorem errors_ofLines_of_not_fits {lines} (h : ¬ Statement.Fits (Statement.ofLines lines)) :
    (ofLines lines).errors = (Layout.ofLines lines).errors.toList ++
      [.oversizedImage Memory.room (Layout.ofLines lines).size] := by
  simp only [ofLines, Layout.finalSymbols_eq_error h, Array.toList_push]

theorem program_ofLines_of_not_fits {lines} (h : ¬ Statement.Fits (Statement.ofLines lines)) :
    (ofLines lines).program =
      { symbols := (Layout.ofLines lines).symbols, warnings := (Layout.ofLines lines).warnings.toList } := by
  simp only [ofLines, Layout.finalSymbols_eq_error h]

/-- No error is found if neither pass finds one and the image fits. -/
theorem errors_ofLines_eq_nil (lines : List Line) :
    (ofLines lines).errors = [] ↔
      (∀ line ∈ lines, ∃ parsed, line.parse = .ok parsed) ∧
        (∀ s ∈ Statement.ofLines lines, s.ownFaults = []) ∧
        (Statement.definedNames (Statement.ofLines lines)).Nodup ∧
        (∀ p ∈ Placed.list (Statement.ofLines lines),
          p.faults (Layout.finalTable (Statement.ofLines lines)) = []) ∧
        Statement.Fits (Statement.ofLines lines) := by
  by_cases h : Statement.Fits (Statement.ofLines lines)
  · rw [errors_ofLines h, List.append_eq_nil_iff, Array.toList_eq_nil_iff, Layout.errors_ofLines_eq_nil,
      List.flatMap_eq_nil_iff]
    tauto
  · rw [errors_ofLines_of_not_fits h]
    simp [h]

end Assembly

end TwoPass
