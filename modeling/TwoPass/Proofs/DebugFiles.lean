import TwoPass.Output.DebugFile
import TwoPass.Proofs.DebugTables
import TwoPass.Proofs.ReadingStreams

/-!
Debug tables in files. A table is read back from its file, as long as no label holds a line feed, and
the labels of a source do not.
-/
namespace TwoPass

namespace DebugTable

open TwoPass.Stream (Holds fields)

/-! ## Rows -/

theorem of_space : Text.of " " = [' '.toUInt8] := by decide

theorem of_newline : Text.of "\n" = ['\n'.toUInt8] := by decide

def lineFields (entry : Word × Int) : Text :=
  fields (Text.of "line") (fields (Text.ofNat entry.1.toNat) (Text.ofInt entry.2))

def labelFields (entry : Word × Text) : Text :=
  fields (Text.of "label") (fields (Text.ofNat entry.1.toNat) entry.2)

theorem not_mem_fields {a b : Text} (ha : '\n'.toUInt8 ∉ a) (hb : '\n'.toUInt8 ∉ b) :
    '\n'.toUInt8 ∉ fields a b :=
  (Stream.holds_row ha hb).2

theorem holds_lineRow (entry : Word × Int) : Holds (lineRow entry) (lineFields entry) := by
  have htag : Text.of "line " = Text.of "line" ++ [' '.toUInt8] := by decide
  refine ⟨by simp [lineRow, lineFields, fields, htag, of_space, of_newline], ?_⟩
  have hvalue : '\n'.toUInt8 ∉ Text.ofInt entry.2 := by
    cases entry.2 with
    | ofNat n => exact Stream.not_mem_ofNat (by decide) n
    | negSucc n =>
        rw [Text.ofInt, List.mem_cons]
        exact not_or.mpr ⟨by decide, Stream.not_mem_ofNat (by decide) _⟩
  exact not_mem_fields (by decide) (not_mem_fields (Stream.not_mem_ofNat (by decide) _) hvalue)

theorem holds_labelRow {entry : Word × Text} (h : '\n'.toUInt8 ∉ entry.2) :
    Holds (labelRow entry) (labelFields entry) := by
  have htag : Text.of "label " = Text.of "label" ++ [' '.toUInt8] := by decide
  refine ⟨by simp [labelRow, labelFields, fields, htag, of_space, of_newline], ?_⟩
  exact not_mem_fields (by decide) (not_mem_fields (Stream.not_mem_ofNat (by decide) _) h)

theorem addRow_fields (d : DebugTable) {tag : Text} (htag : ' '.toUInt8 ∉ tag) (address : Word) (value : Text) :
    d.addRow (fields tag (fields (Text.ofNat address.toNat) value)) =
      if tag = Text.of "line" then value.toInt?.map fun n => { d with lines := (address, n) :: d.lines }
      else if tag = Text.of "label" then some { d with labels := (address, value) :: d.labels }
      else none := by
  rw [addRow, Stream.cut?_fields htag]
  simp only [Stream.cut?_fields (Stream.not_mem_ofNat (by decide) address.toNat),
    Numeral.toNat?_eq_some.mpr (Numeral.isDigits_ofNat address.toNat), UInt16.ofNat_toNat, Option.bind_eq_bind,
    Option.bind_some, Option.pure_def]
  split
  · rw [Option.map_eq_bind]
    rfl
  · rfl

/-- Rows are read back from the last to the first. -/
theorem foldlM_lineFields (d : DebugTable) (entries : List (Word × Int)) :
    (entries.map lineFields).reverse.foldlM addRow d = some { d with lines := entries ++ d.lines } := by
  induction entries with
  | nil => rfl
  | cons entry entries ih =>
      rw [List.map_cons, List.reverse_cons, List.foldlM_append, ih]
      simp [lineFields, addRow_fields _ (show ' '.toUInt8 ∉ Text.of "line" by decide), Numeral.toInt?_ofInt]

theorem foldlM_labelFields (d : DebugTable) (entries : List (Word × Text)) :
    (entries.map labelFields).reverse.foldlM addRow d = some { d with labels := entries ++ d.labels } := by
  induction entries with
  | nil => rfl
  | cons entry entries ih =>
      have htag : Text.of "label" ≠ Text.of "line" := by decide
      rw [List.map_cons, List.reverse_cons, List.foldlM_append, ih]
      simp [labelFields, addRow_fields _ (show ' '.toUInt8 ∉ Text.of "label" by decide), htag]

/-! ## Files -/

/-- The rows of a file are the fields of the entries. -/
theorem splitOn_rows {d : DebugTable} (h : ∀ entry ∈ d.labels, '\n'.toUInt8 ∉ entry.2) :
    Text.splitOn '\n'.toUInt8 (d.lines.flatMap lineRow ++ d.labels.flatMap labelRow) =
      d.lines.map lineFields ++ d.labels.map labelFields ++ [[]] := by
  have hrows : List.Forall₂ Holds (d.lines.map lineRow ++ d.labels.map labelRow)
      (d.lines.map lineFields ++ d.labels.map labelFields) := by
    refine List.rel_append ?_ ?_
    · rw [List.forall₂_map_left_iff, List.forall₂_map_right_iff, List.forall₂_same]
      exact fun entry _ => holds_lineRow entry
    · rw [List.forall₂_map_left_iff, List.forall₂_map_right_iff, List.forall₂_same]
      exact fun entry he => holds_labelRow (h entry he)
  have hsplit := Stream.splitOn_text hrows
  rwa [Stream.text, List.flatten_append, ← List.flatMap_def, ← List.flatMap_def] at hsplit

/-- What is written is read back. The size in front of the path lets it hold any byte. -/
theorem ofFile?_toFile {d : DebugTable} (h : ∀ entry ∈ d.labels, '\n'.toUInt8 ∉ entry.2) :
    ofFile? d.toFile = some d := by
  have hfile : d.toFile = heading ++ (Text.ofNat d.source.length ++ '\n'.toUInt8 :: (d.source ++
      '\n'.toUInt8 :: (d.lines.flatMap lineRow ++ d.labels.flatMap labelRow))) := by
    simp [toFile, of_newline]
  have hheading : heading.isPrefixOf d.toFile = true := by
    rw [hfile, List.isPrefixOf_iff_prefix]
    exact List.prefix_append _ _
  have hrows : ∀ rest : Text, (d.source ++ '\n'.toUInt8 :: rest).drop (d.source.length + 1) = rest := by
    simp [List.drop_append]
  rw [ofFile?, if_pos hheading, hfile, List.drop_left, Text.cut?_append (Stream.not_mem_ofNat (by decide) _)]
  simp only [Numeral.toNat?_eq_some.mpr (Numeral.isDigits_ofNat _), hrows, splitOn_rows h, List.dropLast_concat,
    List.take_left, List.reverse_append, List.foldlM_append, foldlM_labelFields, foldlM_lineFields,
    Option.bind_eq_bind, Option.bind_some, List.append_nil]

end DebugTable

/-- The debug table of a source is read back under whatever path it was written. -/
theorem Assembly.ofFile?_debug {lines : List Line} (h : (ofLines lines).errors = []) (source : Text) :
    DebugTable.ofFile? { (ofLines lines).debug with source }.toFile = some { (ofLines lines).debug with source } := by
  obtain ⟨-, -, -, -, hfits⟩ := (errors_ofLines_eq_nil lines).mp h
  refine DebugTable.ofFile?_toFile fun entry he => ?_
  rw [labels_debug h] at he
  obtain ⟨s, hs, rfl⟩ := List.mem_map.mp ((List.mergeSort_perm _ _).mem_iff.mp (SymbolTable.mem_of_mem_eraseReps he))
  exact Name.not_mem_of_isValid (name_of_mem hfits (List.mem_filter.mp hs).1).1 (by decide)

end TwoPass
