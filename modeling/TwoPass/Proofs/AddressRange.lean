import TwoPass.Proofs.Labels
import TwoPass.Proofs.ListingWords

/-!
How far addresses are exact. The size of an image is checked, but a label may stand right behind the last
word of it, and behind an image that fills the memory there is no address left.
-/
namespace TwoPass.Assembly

/-- The offset into the image that a label stands for: the code before its statement or, if the statement
places data, all code and the data before it. -/
def StandsAt (lines : List Line) (s : Symbol) (offset : Nat) : Prop :=
  ∃ (before : List Statement) (t : Statement) (after : List Statement) (label : Token),
    Statement.ofLines lines = before ++ t :: after ∧ t.label = some label ∧ label.value = s.name ∧
      (s.kind = .code ∧ t.isData = false ∧ offset = Statement.codeTotal before ∨
        s.kind = .data ∧ t.isData = true ∧
          offset = Statement.codeTotal (Statement.ofLines lines) + (Statement.dataAll before).length)

section
variable {lines : List Line} (hfits : Statement.Fits (Statement.ofLines lines))
include hfits

theorem size_program : (ofLines lines).program.size =
    Statement.codeTotal (Statement.ofLines lines) + (Statement.dataAll (Statement.ofLines lines)).length := by
  rw [program_ofLines hfits, Program.size, Placed.length_code]

theorem StandsAt.le_size {s : Symbol} {offset : Nat} (h : StandsAt lines s offset) :
    offset ≤ (ofLines lines).program.size := by
  rw [size_program hfits]
  obtain ⟨before, t, after, label, hss, -, -, ⟨-, -, rfl⟩ | ⟨-, -, rfl⟩⟩ := h
  · rw [hss, Statement.codeTotal_append]
    omega
  · rw [hss, Statement.dataAll_append, List.length_append]
    omega

/-- The address of a label is its offset behind the load address, cut to a word. -/
theorem standsAt_of_mem {s : Symbol} (hs : s ∈ (ofLines lines).program.symbols.symbols)
    (hk : s.kind ≠ .external) :
    ∃ offset, StandsAt lines s offset ∧ s.address = .ofNat (Memory.base + offset) := by
  obtain ⟨before, t, after, d, hss, -, hd, hsd⟩ := definition_of_mem hfits hs
  rcases Placed.find?_definitions hd with ⟨label, hl, hv, rfl⟩ | ⟨-, token, -, -, rfl⟩
  · have hkind : s.kind = if t.isData then .data else .code := by
      rw [hsd, Symbol.mark_kind, Symbol.relocate_kind, Placed.labelSymbol_kind]
    refine ⟨_, ⟨before, t, after, label, hss, hl, hv, ?_⟩,
      by rw [hsd, Symbol.mark_address, Placed.address_labelSymbol]⟩
    cases ht : t.isData <;> simp [Placed.offset, hkind, ht]
  · rw [hsd] at hk
    exact absurd rfl hk

end

/-- In a source without errors the address of a label is exact, unless the image fills the memory up to
its last word and the label stands behind that word. The address is then 0, as if the label were
defined elsewhere, and that is the only way to an address below the load address. -/
theorem address_exact_iff (lines : List Line) (h : (ofLines lines).errors = []) (s : Symbol)
    (hs : s ∈ (ofLines lines).program.symbols.symbols) (hk : s.kind ≠ .external) :
    ∃ offset, StandsAt lines s offset ∧ offset ≤ (ofLines lines).program.size ∧
      (s.address.toNat = Memory.base + offset ↔
        ¬ (offset = (ofLines lines).program.size ∧ (ofLines lines).program.endAddress = Memory.size)) ∧
      (s.address = 0 ↔
        offset = (ofLines lines).program.size ∧ (ofLines lines).program.endAddress = Memory.size) ∧
      (s.address ≠ 0 ↔ Memory.base ≤ s.address.toNat) := by
  obtain ⟨-, -, -, -, hfits⟩ := (errors_ofLines_eq_nil lines).mp h
  obtain ⟨offset, hstands, haddress⟩ := standsAt_of_mem hfits hs hk
  have hle := hstands.le_size hfits
  have hend : (ofLines lines).program.endAddress ≤ Memory.size := by
    rw [Program.endAddress, size_program hfits, ← Nat.add_assoc]
    exact hfits
  refine ⟨offset, hstands, hle, ?_⟩
  unfold Program.endAddress at hend ⊢
  by_cases hlast : Memory.base + offset < Memory.size
  · have hexact : s.address.toNat = Memory.base + offset := by rw [haddress, toNat_ofNat_of_lt hlast]
    have hpos : s.address ≠ 0 := by
      intro hzero
      have hnone : s.address.toNat = 0 := by rw [hzero]; rfl
      have hbase : Memory.base = 100 := rfl
      omega
    simp only [hexact, hpos, true_iff, false_iff, ne_eq, not_false_eq_true]
    omega
  · have hfull : Memory.base + offset = Memory.size := by omega
    have hzero : s.address = 0 := by
      rw [haddress, hfull]
      rfl
    have hnone : (0 : Word).toNat = 0 := rfl
    have hbase : Memory.base = 100 := rfl
    have hsize : Memory.size = 65536 := rfl
    simp only [hzero, hnone, true_iff, ne_eq, not_true_eq_false, false_iff]
    omega

/-- Labels behind the last word of an image that leaves room. -/
def closingLabels : List Line :=
  [⟨1, Text.of "A: stop"⟩, ⟨2, Text.of "Z: .mat [0][0]"⟩, ⟨3, Text.of "E: .entry A"⟩]

theorem closingLabels_exact :
    (ofLines closingLabels).errors = [] ∧
      ∃ s ∈ (ofLines closingLabels).program.symbols.symbols, s.name = Text.of "Z" ∧ s.kind ≠ .external ∧
        ∃ offset, StandsAt closingLabels s offset ∧ offset ≤ 1 ∧ s.address.toNat = 100 + offset := by
  have herrors : (ofLines closingLabels).errors = [] := by decide +kernel
  have hmem : (⟨Text.of "Z", 101, .data, false, ⟨2, 1, 1⟩⟩ : Symbol) ∈
      (ofLines closingLabels).program.symbols.symbols := by decide +kernel
  obtain ⟨offset, hstands, hle, hexact, -⟩ := address_exact_iff closingLabels herrors _ hmem (by decide)
  have hroom : (ofLines closingLabels).program.endAddress ≠ Memory.size := by decide +kernel
  exact ⟨herrors, _, hmem, rfl, by decide, offset, hstands, hle, hexact.mpr fun hfull => hroom hfull.2⟩

/-- A matrix that takes all the room there is, and an exported label behind it. -/
def fullMemory : List Line :=
  [⟨1, Text.of ".mat [12][5453]"⟩, ⟨2, Text.of "L: .mat [0][0]"⟩, ⟨3, Text.of ".entry L"⟩]

def wideMatrix : Statement :=
  ⟨1, none, .directive .mat, ⟨⟨1, 2, 3⟩, Text.of "mat"⟩, ⟨⟨1, 6, 10⟩, Text.of "[12][5453]"⟩⟩

def lastLabel : Statement :=
  ⟨2, some ⟨⟨2, 1, 1⟩, Text.of "L"⟩, .directive .mat, ⟨⟨2, 5, 3⟩, Text.of "mat"⟩, ⟨⟨2, 9, 6⟩, Text.of "[0][0]"⟩⟩

def lastEntry : Statement :=
  ⟨3, none, .directive .entry, ⟨⟨3, 2, 5⟩, Text.of "entry"⟩, ⟨⟨3, 8, 1⟩, Text.of "L"⟩⟩

theorem parse_fullMemory : fullMemory.map Line.parse =
    [.ok (.statement wideMatrix), .ok (.statement lastLabel), .ok (.statement lastEntry)] := by
  decide +kernel

theorem ofLines_fullMemory : Statement.ofLines fullMemory = [wideMatrix, lastLabel, lastEntry] := by
  decide +kernel

/-- The cells of the matrix are counted, not written out. -/
theorem contents_wideMatrix :
    (Data.contents .mat wideMatrix.args).faults = [] ∧
      (Data.contents .mat wideMatrix.args).words.length = 65436 := by
  have limits : 12 ≤ 32767 ∧ 5453 ≤ 32767 := by decide
  have cells : 12 * 5453 ≤ Memory.size := by decide
  have filled : ([] : List Int16).length ≤ 12 * 5453 := by decide
  have hargs : wideMatrix.args.value = Listing.Body.args (.mat 12 5453 [] limits cells filled) := by
    rw [Listing.Body.args]
    decide +kernel
  rw [Listing.contents_mat _ limits cells filled hargs, Listing.Body.dataWords]
  exact ⟨rfl, List.length_replicate⟩

theorem length_wideMatrix : wideMatrix.dataWords.length = 65436 :=
  contents_wideMatrix.2

theorem dataWords_lastLabel : lastLabel.dataWords = [] := by
  decide +kernel

theorem dataWords_lastEntry : lastEntry.dataWords = [] := rfl

theorem codeTotal_fullMemory : Statement.codeTotal (Statement.ofLines fullMemory) = 0 := by
  rw [ofLines_fullMemory]
  rfl

theorem fits_fullMemory : Statement.Fits (Statement.ofLines fullMemory) := by
  rw [Statement.Fits, codeTotal_fullMemory, ofLines_fullMemory]
  simp [length_wideMatrix, dataWords_lastLabel, dataWords_lastEntry, Memory.base, Memory.size]

theorem definitions_fullMemory : Statement.definitions (Statement.ofLines fullMemory) =
    [{ name := Text.of "L", address := .ofNat 65436, kind := .data, position := ⟨2, 1, 1⟩ }] := by
  rw [ofLines_fullMemory]
  simp [Statement.definitions, Placed.list, Placed.listFrom, length_wideMatrix, Placed.definitions]
  decide +kernel

/-- The two moves take the label over the end of the memory. -/
theorem find?_fullMemory : (Layout.finalTable (Statement.ofLines fullMemory)).find? (Text.of "L") =
    some { name := Text.of "L", address := 0, kind := .data, position := ⟨2, 1, 1⟩ } := by
  rw [Layout.find?_finalTable, definitions_fullMemory, codeTotal_fullMemory]
  decide +kernel

theorem entryFault?_lastEntry :
    lastEntry.entryFault? (Layout.finalTable (Statement.ofLines fullMemory)) = none :=
  (Statement.entryFault?_eq_none rfl).mpr ⟨by decide, _, find?_fullMemory, by decide⟩

theorem errors_fullMemory : (ofLines fullMemory).errors = [] := by
  refine (errors_ofLines_eq_nil fullMemory).mpr ⟨?_, ?_, ?_, ?_, fits_fullMemory⟩
  · intro line hline
    have hparse := List.mem_map_of_mem (f := Line.parse) hline
    rw [parse_fullMemory] at hparse
    simp only [List.mem_cons, List.not_mem_nil, or_false] at hparse
    rcases hparse with hp | hp | hp <;> exact ⟨_, hp⟩
  · rw [ofLines_fullMemory]
    refine List.forall_mem_cons.mpr ⟨contents_wideMatrix.1, ?_⟩
    decide +kernel
  · rw [ofLines_fullMemory]
    decide +kernel
  · intro p hp
    have hs : p.statement ∈ [wideMatrix, lastLabel, lastEntry] := ofLines_fullMemory ▸ Placed.statement_mem hp
    simp only [List.mem_cons, List.not_mem_nil, or_false] at hs
    rcases hs with hs | hs | hs
    · rw [Placed.faults, Placed.encoded_directive (by rw [hs]; rfl), hs]
      rfl
    · rw [Placed.faults, Placed.encoded_directive (by rw [hs]; rfl), hs]
      rfl
    · rw [Placed.faults, Placed.encoded_directive (by rw [hs]; rfl), hs]
      exact congrArg Option.toList entryFault?_lastEntry

/-- The source is assembled without errors, and its label is published with the address 0. -/
theorem fullMemory_wraps :
    (ofLines fullMemory).errors = [] ∧
      ∃ s ∈ (ofLines fullMemory).program.symbols.entries, s.kind ≠ .external ∧ StandsAt fullMemory s 65436 ∧
        s.address.toNat ≠ Memory.base + 65436 ∧ s.address = 0 := by
  have hexports : Text.of "L" ∈
      Statement.exports (Layout.finalTable (Statement.ofLines fullMemory)) (Statement.ofLines fullMemory) := by
    refine List.mem_filterMap.mpr ⟨lastEntry, by rw [ofLines_fullMemory]; decide, ?_⟩
    exact if_pos ⟨rfl, entryFault?_lastEntry⟩
  have hfind : (ofLines fullMemory).program.symbols.find? (Text.of "L") = some (Symbol.mark
      (Statement.exports (Layout.finalTable (Statement.ofLines fullMemory)) (Statement.ofLines fullMemory))
      { name := Text.of "L", address := 0, kind := .data, position := ⟨2, 1, 1⟩ }) := by
    rw [program_ofLines fits_fullMemory, SymbolTable.find?_mark, find?_fullMemory]
    rfl
  have hoffset : 65436 = Statement.codeTotal (Statement.ofLines fullMemory) +
      (Statement.dataAll [wideMatrix]).length := by
    rw [codeTotal_fullMemory]
    simp [length_wideMatrix]
  refine ⟨errors_fullMemory, _, List.mem_filter.mpr ⟨SymbolTable.mem_of_find? hfind, ?_⟩, ?_, ?_, ?_, ?_⟩
  · simp [Symbol.mark, hexports]
  · simp
  · exact ⟨[wideMatrix], lastLabel, [lastEntry], _, ofLines_fullMemory, rfl, rfl, Or.inr ⟨rfl, rfl, hoffset⟩⟩
  · simp [Memory.base]
  · simp

end TwoPass.Assembly
