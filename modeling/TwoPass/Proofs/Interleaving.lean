import TwoPass.Proofs.Acceptance
import TwoPass.Proofs.Positions

/-!
Code and data may be interleaved in any way. The place of a statement in one segment is not changed
by statements that only take place in the other, so a program depends on the order of the lines for
each segment alone.
-/
namespace TwoPass

namespace Statement

/-- Statements whose place in the code shows: instructions, and labelled directives that place no data. -/
def isCode (s : Statement) : Bool :=
  match s.action with
  | .instruction _ => true
  | .directive d => !d.isData && s.label.isSome

theorem directive_of_not_isCode {s : Statement} (h : s.isCode = false) : ∃ d, s.action = .directive d := by
  unfold isCode at h
  split at h
  · cases h
  · exact ⟨_, by assumption⟩

theorem codeSize_of_not_isCode {s : Statement} (h : s.isCode = false) : s.codeSize = 0 := by
  obtain ⟨d, hd⟩ := directive_of_not_isCode h
  rw [codeSize, hd]

theorem dataWords_of_not_isData {s : Statement} (h : s.isData = false) : s.dataWords = [] := by
  unfold isData at h
  unfold dataWords
  split at h
  · rfl
  · rename_i d hd
    cases d with
    | entry => rfl
    | external => rfl
    | _ => cases h

theorem label_of_neither {s : Statement} (hc : s.isCode = false) (hd : s.isData = false) : s.label = none := by
  obtain ⟨d, ha⟩ := directive_of_not_isCode hc
  have hplain : d.isData = false := by simpa [isData, ha] using hd
  simpa [isCode, ha, hplain] using hc

end Statement

/-! ## Statements of one segment -/

namespace Placed

/-- What shows only in statements of one kind, and sees of their places only a measure that the other
statements do not change, can be read off the statements of that kind alone. -/
theorem flatMap_listFrom_filter {β : Type} {f : Placed → List β} {kept : Statement → Bool}
    (measure : Nat → Nat → Nat) (hadd : ∀ c d c' d', measure (c + c') (d + d') = measure c d + measure c' d')
    (hplace : ∀ {c d c' d'} (s : Statement), measure c d = measure c' d' → f ⟨c, d, s⟩ = f ⟨c', d', s⟩)
    (hskip : ∀ {s : Statement}, kept s = false →
      measure s.codeSize s.dataWords.length = 0 ∧ ∀ c d, f ⟨c, d, s⟩ = [])
    (ss : List Statement) {c d c' d' : Nat} (h : measure c d = measure c' d') :
    (listFrom c d ss).flatMap f = (listFrom c' d' (ss.filter kept)).flatMap f := by
  induction ss generalizing c d c' d' with
  | nil => rfl
  | cons s ss ih =>
      rw [listFrom, List.flatMap_cons]
      cases hk : kept s with
      | true =>
          have hnext : measure (c + s.codeSize) (d + s.dataWords.length) =
              measure (c' + s.codeSize) (d' + s.dataWords.length) := by rw [hadd, hadd, h]
          rw [List.filter_cons_of_pos hk, listFrom, List.flatMap_cons, hplace s h, ih hnext]
      | false =>
          obtain ⟨hzero, hnil⟩ := hskip hk
          rw [List.filter_cons_of_neg (by simp [hk]), hnil, List.nil_append]
          exact ih (by rw [hadd, hzero, Nat.add_zero, h])

section
variable {β : Type} {f : Placed → List β} (ss : List Statement)

theorem flatMap_list_isCode (hplace : ∀ c d d' s, f ⟨c, d, s⟩ = f ⟨c, d', s⟩)
    (hskip : ∀ {s : Statement}, s.isCode = false → ∀ c d, f ⟨c, d, s⟩ = []) :
    (list ss).flatMap f = (list (ss.filter Statement.isCode)).flatMap f := by
  refine flatMap_listFrom_filter (fun c _ => c) (fun _ _ _ _ => rfl) ?_ ?_ ss rfl
  · intro c d c' d' s h
    obtain rfl : c = c' := h
    exact hplace c d d' s
  · exact fun hs => ⟨Statement.codeSize_of_not_isCode hs, hskip hs⟩

theorem flatMap_list_isData (hplace : ∀ c c' d s, f ⟨c, d, s⟩ = f ⟨c', d, s⟩)
    (hskip : ∀ {s : Statement}, s.isData = false → ∀ c d, f ⟨c, d, s⟩ = []) :
    (list ss).flatMap f = (list (ss.filter Statement.isData)).flatMap f := by
  refine flatMap_listFrom_filter (fun _ d => d) (fun _ _ _ _ => rfl) ?_ ?_ ss rfl
  · intro c d c' d' s h
    obtain rfl : d = d' := h
    exact hplace c c' d s
  · exact fun hs => ⟨congrArg List.length (Statement.dataWords_of_not_isData hs), hskip hs⟩

end

theorem flatMap_statement {β : Type} (f : Statement → List β) (ss : List Statement) :
    (list ss).flatMap (fun p => f p.statement) = ss.flatMap f := by
  rw [← List.flatMap_map, map_statement_list]

/-- The label of a statement that places no data. -/
def codeLabels (p : Placed) : List Symbol :=
  if p.statement.isData then [] else p.statement.label.toList.map p.labelSymbol

/-- The label of a statement that places data. -/
def dataLabels (p : Placed) : List Symbol :=
  if p.statement.isData then p.statement.label.toList.map p.labelSymbol else []

theorem definitions_eq (p : Placed) :
    p.definitions = p.codeLabels ++ (p.dataLabels ++ p.statement.external?.toList.map externalSymbol) := by
  unfold definitions codeLabels dataLabels
  cases p.statement.isData <;> simp

theorem codeLabels_list (ss : List Statement) :
    (list ss).flatMap codeLabels = (list (ss.filter Statement.isCode)).flatMap codeLabels := by
  apply flatMap_list_isCode
  · intro c d d' s
    unfold codeLabels
    dsimp only
    cases hd : s.isData with
    | true => rfl
    | false =>
        apply List.map_congr_left
        intro label _
        simp [labelSymbol, hd]
  · intro s hs c d
    unfold codeLabels
    dsimp only
    split
    · rfl
    · rename_i hd
      rw [Statement.label_of_neither hs (Bool.of_not_eq_true hd)]
      rfl

theorem dataLabels_list (ss : List Statement) :
    (list ss).flatMap dataLabels = (list (ss.filter Statement.isData)).flatMap dataLabels := by
  apply flatMap_list_isData
  · intro c c' d s
    unfold dataLabels
    dsimp only
    cases hd : s.isData with
    | false => rfl
    | true =>
        apply List.map_congr_left
        intro label _
        simp [labelSymbol, hd]
  · intro s hs c d
    exact if_neg (by simp [hs])

section
variable (table : SymbolTable) (ss : List Statement)

theorem encoded_place (c d d' : Nat) (s : Statement) : encoded table ⟨c, d, s⟩ = encoded table ⟨c, d', s⟩ := rfl

/-- What shows in the encoding of a statement shows in the code alone. -/
theorem flatMap_list_encoded {β : Type} {f : Placed → List β} (hplace : ∀ c d d' s, f ⟨c, d, s⟩ = f ⟨c, d', s⟩)
    (hnil : ∀ {p : Placed}, p.encoded table = .ok ([], []) → f p = []) :
    (list ss).flatMap f = (list (ss.filter Statement.isCode)).flatMap f := by
  refine flatMap_list_isCode ss hplace fun hs c d => ?_
  obtain ⟨directive, hd⟩ := Statement.directive_of_not_isCode hs
  exact hnil (encoded_directive hd table)

theorem codeWords_list :
    (list ss).flatMap (codeWords table) = (list (ss.filter Statement.isCode)).flatMap (codeWords table) := by
  apply flatMap_list_encoded table
  · intro c d d' s
    rw [codeWords, encoded_place table c d d', codeWords]
  · intro p hp
    rw [codeWords, hp]

theorem uses_list :
    (list ss).flatMap (uses table) = (list (ss.filter Statement.isCode)).flatMap (uses table) := by
  apply flatMap_list_encoded table
  · intro c d d' s
    rw [uses, encoded_place table c d d', uses]
  · intro p hp
    rw [uses, hp]

end

end Placed

/-! ## Symbols in another order -/

theorem Symbol.mark_congr {names names' : List Text} (h : ∀ name, name ∈ names ↔ name ∈ names') :
    Symbol.mark names = Symbol.mark names' := by
  funext s
  simp only [mark, h]

section
variable {table table' : SymbolTable} (h : ∀ name, table.find? name = table'.find? name)
include h

theorem Placed.encoded_congr (p : Placed) : p.encoded table = p.encoded table' := by
  have htarget : ∀ name, (table.find? name).map Symbol.target = (table'.find? name).map Symbol.target :=
    fun name => by rw [h]
  unfold encoded
  simp only [Instruction.encode_congr htarget]

theorem Statement.exports_congr (ss : List Statement) : exports table ss = exports table' ss := by
  unfold exports exported? entryFault?
  simp only [h]

end

namespace Statement

/-- The same statements in an order that is the same for each segment. -/
structure Rearranged (ss' ss : List Statement) : Prop where
  perm : ss'.Perm ss
  code : ss'.filter isCode = ss.filter isCode
  data : ss'.filter isData = ss.filter isData

theorem dataAll_filter (ss : List Statement) : dataAll (ss.filter isData) = dataAll ss := by
  rw [dataAll, dataAll, ← Placed.flatMap_statement, ← Placed.flatMap_statement]
  exact (Placed.flatMap_list_isData ss (fun _ _ _ _ => rfl) fun hs _ _ => dataWords_of_not_isData hs).symm

/-- The symbols of a program by where they come from: code labels, data labels and outside names. -/
theorem definitions_perm (ss : List Statement) :
    (definitions ss).Perm ((Placed.list (ss.filter isCode)).flatMap Placed.codeLabels ++
      ((Placed.list (ss.filter isData)).flatMap Placed.dataLabels ++
        ss.flatMap fun s => s.external?.toList.map Placed.externalSymbol)) := by
  rw [← Placed.codeLabels_list, ← Placed.dataLabels_list, ← Placed.flatMap_statement, definitions,
    funext Placed.definitions_eq]
  refine (List.flatMap_append_perm _ _ _).symm.trans ?_
  exact (List.flatMap_append_perm _ _ _).symm.append_left _

namespace Rearranged

variable {ss ss' : List Statement} (h : Rearranged ss' ss)
include h

theorem codeTotal : codeTotal ss' = codeTotal ss :=
  (h.perm.map codeSize).sum_eq

theorem dataAll : dataAll ss' = dataAll ss := by
  rw [← dataAll_filter, h.data, dataAll_filter]

theorem fits : Fits ss' ↔ Fits ss := by
  rw [Fits, h.codeTotal, h.dataAll, Fits]

theorem definitions : (definitions ss').Perm (definitions ss) := by
  refine (definitions_perm ss').trans (List.Perm.trans ?_ (definitions_perm ss).symm)
  rw [h.code, h.data]
  exact ((h.perm.flatMap_right _).append_left _).append_left _

theorem definedNames : (definedNames ss').Perm (definedNames ss) :=
  h.perm.flatMap_right _

theorem find?_definitions (hn : (Statement.definedNames ss).Nodup) (name : Text) :
    (Statement.definitions ss').find? (·.name = name) = (Statement.definitions ss).find? (·.name = name) := by
  cases hf : (Statement.definitions ss).find? (·.name = name) with
  | none =>
      rw [List.find?_eq_none] at hf ⊢
      exact fun s hs => hf s (h.definitions.mem_iff.mp hs)
  | some s =>
      obtain rfl : s.name = name := by simpa using List.find?_some hf
      apply find?_definitions_of_nodup (h.definedNames.nodup_iff.mpr hn)
      exact h.definitions.mem_iff.mpr (List.mem_of_find?_eq_some hf)

theorem find?_finalTable (hn : (Statement.definedNames ss).Nodup) (name : Text) :
    (Layout.finalTable ss').find? name = (Layout.finalTable ss).find? name := by
  rw [Layout.find?_finalTable, Layout.find?_finalTable, h.find?_definitions hn, h.codeTotal]

theorem symbols (hn : (Statement.definedNames ss).Nodup) :
    (Layout.finalTable ss').symbols.Perm (Layout.finalTable ss).symbols := by
  rw [Layout.symbols_finalTable (h.definedNames.nodup_iff.mpr hn), Layout.symbols_finalTable hn, h.codeTotal]
  exact h.definitions.map _

/-- Statements of one segment are encoded at the same addresses and against the same names. -/
theorem code_eq (hn : (Statement.definedNames ss).Nodup) :
    (Placed.list ss').flatMap (Placed.codeWords (Layout.finalTable ss')) =
      (Placed.list ss).flatMap (Placed.codeWords (Layout.finalTable ss)) := by
  have hwords : Placed.codeWords (Layout.finalTable ss') = Placed.codeWords (Layout.finalTable ss) := by
    funext p
    rw [Placed.codeWords, Placed.encoded_congr (h.find?_finalTable hn), Placed.codeWords]
  rw [hwords, Placed.codeWords_list, h.code, ← Placed.codeWords_list]

theorem uses_eq (hn : (Statement.definedNames ss).Nodup) :
    (Placed.list ss').flatMap (Placed.uses (Layout.finalTable ss')) =
      (Placed.list ss).flatMap (Placed.uses (Layout.finalTable ss)) := by
  have huses : Placed.uses (Layout.finalTable ss') = Placed.uses (Layout.finalTable ss) := by
    funext p
    rw [Placed.uses, Placed.encoded_congr (h.find?_finalTable hn), Placed.uses]
  rw [huses, Placed.uses_list, h.code, ← Placed.uses_list]

theorem marked (hn : (Statement.definedNames ss).Nodup) :
    ((Layout.finalTable ss').mark (exports (Layout.finalTable ss') ss')).symbols.Perm
      ((Layout.finalTable ss).mark (exports (Layout.finalTable ss) ss)).symbols := by
  have hexports : ∀ name, name ∈ exports (Layout.finalTable ss') ss' ↔
      name ∈ exports (Layout.finalTable ss) ss := by
    intro name
    rw [exports_congr (h.find?_finalTable hn)]
    exact (h.perm.filterMap _).mem_iff
  simp only [SymbolTable.mark, Symbol.mark_congr hexports]
  exact (h.symbols hn).map _

end Rearranged

end Statement

/-! ## Lines in another order -/

namespace Line

def isCode (line : Line) : Bool :=
  line.statement?.any Statement.isCode

def isData (line : Line) : Bool :=
  line.statement?.any Statement.isData

/-- The same texts in an order that is the same for the lines of each segment. All other lines may
stand anywhere, and lines may be numbered anew. -/
structure Rearranged (lines' lines : List Line) : Prop where
  perm : (lines'.map (·.text)).Perm (lines.map (·.text))
  code : (lines'.filter isCode).map (·.text) = (lines.filter isCode).map (·.text)
  data : (lines'.filter isData).map (·.text) = (lines.filter isData).map (·.text)

def unnumbered (line : Line) : Line :=
  ⟨0, line.text⟩

theorem reading_unnumbered (line : Line) : line.unnumbered.reading = line.reading :=
  reading_congr rfl rfl

theorem any_unnumbered {p : Statement → Bool} (hp : ∀ s : Statement, p s.unplaced = p s) (line : Line) :
    line.unnumbered.statement?.any p = line.statement?.any p := by
  have hany : ∀ l : Line, ((Statement.ofLines [l]).map Statement.unplaced).any p = l.statement?.any p := by
    intro l
    cases hs : l.statement? <;> simp [Statement.ofLines, hs, hp]
  have hreading : [line.unnumbered].map reading = [line].map reading :=
    congrArg (fun r => [r]) line.reading_unnumbered
  rw [← hany, Assembly.statements_congr hreading, hany]

theorem filter_ofLines (p : Statement → Bool) (lines : List Line) :
    (Statement.ofLines lines).filter p = Statement.ofLines (lines.filter fun l => l.statement?.any p) := by
  rw [Statement.ofLines, List.filter_filterMap, Statement.ofLines, List.filterMap_filter]
  congr 1
  funext l
  cases l.statement? <;> simp [Option.filter]

theorem map_unnumbered (lines : List Line) :
    lines.map unnumbered = (lines.map (·.text)).map (Line.mk 0) :=
  List.map_map.symm

theorem filter_unnumbered {p : Statement → Bool} (hp : ∀ s : Statement, p s.unplaced = p s) (lines : List Line) :
    (Statement.ofLines (lines.map unnumbered)).filter p =
      Statement.ofLines (((lines.filter fun l => l.statement?.any p).map (·.text)).map (Line.mk 0)) := by
  have hcomp : (fun l : Line => l.statement?.any p) ∘ unnumbered = fun l : Line => l.statement?.any p :=
    funext (any_unnumbered hp)
  rw [filter_ofLines, List.filter_map, hcomp, map_unnumbered]

namespace Rearranged

variable {lines lines' : List Line} (h : Rearranged lines' lines)
include h

theorem unnumbered : (lines'.map unnumbered).Perm (lines.map unnumbered) := by
  rw [map_unnumbered, map_unnumbered]
  exact h.perm.map _

theorem statements :
    Statement.Rearranged (Statement.ofLines (lines'.map Line.unnumbered))
      (Statement.ofLines (lines.map Line.unnumbered)) := by
  have hisCode : ∀ s : Statement, s.unplaced.isCode = s.isCode := by
    intro s
    simp only [Statement.isCode, Statement.unplaced, Option.isSome_map]
  have hisData : ∀ s : Statement, s.unplaced.isData = s.isData := fun _ => rfl
  refine ⟨h.unnumbered.filterMap _, ?_, ?_⟩
  · rw [filter_unnumbered hisCode, filter_unnumbered hisCode]
    exact congrArg (fun texts => Statement.ofLines (texts.map (Line.mk 0))) h.code
  · rw [filter_unnumbered hisData, filter_unnumbered hisData]
    exact congrArg (fun texts => Statement.ofLines (texts.map (Line.mk 0))) h.data

end Rearranged

end Line

/-! ## Programs -/

namespace Assembly

section
variable {lines lines' : List Line}
    (h : Statement.Rearranged (Statement.ofLines lines') (Statement.ofLines lines))
include h

theorem errors_rearranged (hread : ∀ line ∈ lines', ∃ parsed, line.parse = .ok parsed)
    (he : (ofLines lines).errors = []) : (ofLines lines').errors = [] := by
  obtain ⟨-, hown, hnodup, hfaults, hfits⟩ := (errors_ofLines_eq_nil lines).mp he
  have hnames : ∀ name, (Layout.finalTable (Statement.ofLines lines)).find? name ≠ none →
      Name.isValid name = true ∧ Name.isReserved name = false :=
    fun name hf => Statement.name_of_mem_definedNames (Layout.find?_finalTable_ne_none.mp hf)
  refine (errors_ofLines_eq_nil lines').mpr ⟨hread, fun s hs => hown s (h.perm.mem_iff.mp hs),
    h.definedNames.nodup_iff.mpr hnodup, fun p hp => ?_, h.fits.mpr hfits⟩
  -- the same statement stands elsewhere in the other source, but is as well written there
  obtain ⟨q, hq, hs⟩ := Placed.exists_of_mem (h.perm.mem_iff.mp (Placed.statement_mem hp))
  have hwritten := (Placed.faults_eq_nil hnames q).mp (hfaults q hq)
  rw [hs] at hwritten
  apply (Placed.faults_eq_nil (fun name hf => hnames name (h.find?_finalTable hnodup name ▸ hf)) p).mpr
  simpa only [h.find?_finalTable hnodup] using hwritten

theorem program_rearranged (he : (ofLines lines).errors = []) :
    (ofLines lines').program.instructions = (ofLines lines).program.instructions ∧
      (ofLines lines').program.data = (ofLines lines).program.data ∧
      (ofLines lines').program.externals = (ofLines lines).program.externals ∧
      (ofLines lines').program.symbols.symbols.Perm (ofLines lines).program.symbols.symbols := by
  obtain ⟨-, -, hnodup, -, hfits⟩ := (errors_ofLines_eq_nil lines).mp he
  rw [program_ofLines hfits, program_ofLines (h.fits.mpr hfits)]
  exact ⟨h.code_eq hnodup, h.dataAll, h.uses_eq hnodup, h.marked hnodup⟩

end

theorem errors_unnumbered (lines : List Line) :
    (ofLines (lines.map Line.unnumbered)).errors = [] ↔ (ofLines lines).errors = [] := by
  have h : (lines.map Line.unnumbered).map Line.reading = lines.map Line.reading := by
    simp [Line.reading_unnumbered]
  rw [← List.map_eq_nil_iff (f := Diagnostic.unplaced), errors_congr h, List.map_eq_nil_iff]

theorem program_unnumbered (lines : List Line) :
    (ofLines (lines.map Line.unnumbered)).program.unplaced = (ofLines lines).program.unplaced := by
  apply program_congr
  simp [Line.reading_unnumbered]

/-- Code and data may be interleaved in any way. If the lines of a source without errors are put in
another order that keeps the order of the code lines and that of the data lines, then there are still
no errors, and the segments, the uses of outside names and the symbols with their addresses, kinds
and export marks stay the same. -/
theorem interleaving_irrelevant {lines lines' : List Line} (h : Line.Rearranged lines' lines)
    (he : (ofLines lines).errors = []) :
    (ofLines lines').errors = [] ∧
      (ofLines lines').program.instructions = (ofLines lines).program.instructions ∧
      (ofLines lines').program.data = (ofLines lines).program.data ∧
      (ofLines lines').program.externals = (ofLines lines).program.externals ∧
      (ofLines lines').program.symbols.unplaced.symbols.Perm
        (ofLines lines).program.symbols.unplaced.symbols := by
  have he₀ := (errors_unnumbered lines).mpr he
  have hread : ∀ line ∈ lines'.map Line.unnumbered, ∃ parsed, line.parse = .ok parsed := by
    intro line hline
    exact ((errors_ofLines_eq_nil _).mp he₀).1 line (h.unnumbered.mem_iff.mp hline)
  have herrors := errors_rearranged h.statements hread he₀
  obtain ⟨hcode, hdata, huses, hsymbols⟩ := program_rearranged h.statements he₀
  have hprogram := program_unnumbered lines
  have hprogram' := program_unnumbered lines'
  simp only [Program.unplaced, Program.mk.injEq] at hprogram hprogram'
  refine ⟨(errors_unnumbered lines').mp herrors, ?_, ?_, ?_, ?_⟩
  · rw [← hprogram'.1, hcode, hprogram.1]
  · rw [← hprogram'.2.1, hdata, hprogram.2.1]
  · rw [← hprogram'.2.2.2.1, huses, hprogram.2.2.2.1]
  · rw [← hprogram'.2.2.1, ← hprogram.2.2.1]
    exact hsymbols.map Symbol.unplaced

/-- Data before and between code, an export before its definition and a name declared after its use. -/
def scatteredSource : List Line :=
  [⟨1, Text.of ".entry V"⟩, ⟨2, Text.of "V: .data 5, -1"⟩, ⟨3, Text.of "A: mov V, X"⟩,
    ⟨4, Text.of "; outside"⟩, ⟨5, Text.of ".extern X"⟩, ⟨6, Text.of "S: .string \"hi\""⟩,
    ⟨7, Text.of "E: .entry S"⟩, ⟨8, Text.of "lea S, r1"⟩]

/-- The same lines with all code in front. -/
def gatheredSource : List Line :=
  [⟨1, Text.of "; outside"⟩, ⟨2, Text.of ".extern X"⟩, ⟨3, Text.of "A: mov V, X"⟩,
    ⟨4, Text.of "E: .entry S"⟩, ⟨5, Text.of "lea S, r1"⟩, ⟨6, Text.of "V: .data 5, -1"⟩,
    ⟨7, Text.of "S: .string \"hi\""⟩, ⟨8, Text.of ".entry V"⟩]

theorem gatheredSource_program :
    Line.Rearranged gatheredSource scatteredSource ∧ (ofLines scatteredSource).errors = [] ∧
      (ofLines gatheredSource).errors = [] ∧
      (ofLines gatheredSource).program.image = (ofLines scatteredSource).program.image ∧
      (ofLines gatheredSource).program.symbols.unplaced.symbols.Perm
        (ofLines scatteredSource).program.symbols.unplaced.symbols := by
  have h : Line.Rearranged gatheredSource scatteredSource :=
    ⟨by decide +kernel, by decide +kernel, by decide +kernel⟩
  have he : (ofLines scatteredSource).errors = [] := by decide +kernel
  obtain ⟨herrors, hcode, hdata, -, hsymbols⟩ := interleaving_irrelevant h he
  exact ⟨h, he, herrors, by rw [Program.image, hcode, hdata, Program.image], hsymbols⟩

end Assembly

end TwoPass
