import TwoPass.Proofs.Placement

/-!
What the first pass collects. A statement is placed behind the ones before it whether or not it is
at fault, so the layout of a source is fixed by its statements alone.
-/
namespace TwoPass

/-- What is wrong with the arguments of a directive, whatever stands around it. -/
def Statement.ownFaults (s : Statement) : List Diagnostic :=
  match s.action with
  | .instruction _ => []
  | .directive .external =>
    if s.args.value.isEmpty then [.missingOperand s.args.position]
    else match checkLabel s.args with
      | .error d => [d]
      | .ok () => []
  | .directive d => (Data.contents d s.args).faults

theorem Statement.checkLabel_eq_ok {label : Token} :
    checkLabel label = .ok () ↔ Name.isValid label.value = true ∧ Name.isReserved label.value = false := by
  unfold checkLabel
  cases Name.isValid label.value <;> cases Name.isReserved label.value <;> simp

theorem Name.isValid_nil : isValid [] = false := rfl

/-- A line that is neither blank nor a comment is read as code. -/
theorem Line.parse_cases (line : Line) :
    line.parse = .ok .blank ∨ line.parse = .ok .comment ∨
      ∃ code, line.parse = Statement.readCode line.number code := by
  unfold parse
  dsimp only
  split
  · exact Or.inl rfl
  · split
    · exact Or.inr (Or.inl rfl)
    · exact Or.inr (Or.inr ⟨_, rfl⟩)

namespace Layout

/-! ## One statement -/

@[simp] theorem update_add (l : Layout) (s : Symbol) :
    l.update (l.symbols.add s) =
      { l with symbols := l.symbols.declareAll [s], errors := l.errors ++ l.symbols.clashes [s] } := by
  by_cases h : l.symbols.find? s.name = none
  · simp [update, SymbolTable.add_of_free h, SymbolTable.declareAll, SymbolTable.clashes, h,
      SymbolTable.declare_of_free h]
  · have hs : (l.symbols.find? s.name).isSome = true := Option.isSome_iff_ne_none.mpr h
    simp [update, fail, SymbolTable.add_of_taken h, SymbolTable.declareAll, SymbolTable.clashes, hs,
      SymbolTable.declare_of_taken h]

theorem addLabel_eq (l : Layout) (s : Statement) :
    l.addLabel s =
      { l with
        symbols := l.symbols.declareAll
          (s.label.toList.map (Placed.labelSymbol ⟨l.codeSize, l.data.size, s⟩))
        errors := l.errors ++ l.symbols.clashes
          (s.label.toList.map (Placed.labelSymbol ⟨l.codeSize, l.data.size, s⟩)) } := by
  unfold addLabel
  cases hl : s.label with
  | none => simp [SymbolTable.declareAll, SymbolTable.clashes]
  | some label =>
      cases ha : s.action with
      | instruction op => simp [Placed.labelSymbol, Statement.isData, ha]
      | directive d => cases hd : d.isData <;> simp [Placed.labelSymbol, Statement.isData, ha, hd]

theorem addExternal_eq (l : Layout) {s : Statement} (hs : s.action = .directive .external) :
    l.addExternal s.args =
      { l with
        symbols := l.symbols.declareAll (s.external?.toList.map Placed.externalSymbol)
        errors := l.errors ++ (l.symbols.clashes (s.external?.toList.map Placed.externalSymbol) ++
          s.ownFaults) } := by
  unfold addExternal
  by_cases he : s.args.value = []
  · simp [he, fail, Statement.external?, Name.isValid_nil, Statement.ownFaults, hs,
      SymbolTable.declareAll, SymbolTable.clashes]
  · cases hc : Statement.checkLabel s.args with
    | error d =>
        have hn : s.external? = none := by
          have hne : ¬ Statement.checkLabel s.args = .ok () := by rw [hc]; simp
          rw [Statement.checkLabel_eq_ok] at hne
          simp only [Statement.external?, hs, true_and, ite_eq_right_iff, reduceCtorEq, imp_false]
          simpa using hne
        simp [he, hc, fail, hn, Statement.ownFaults, hs, SymbolTable.declareAll, SymbolTable.clashes]
    | ok u =>
        obtain ⟨hv, hr⟩ := Statement.checkLabel_eq_ok.mp hc
        have hn : s.external? = some s.args := Statement.external?_eq_some.mpr ⟨hs, ⟨hv, hr⟩, rfl⟩
        simp [he, hc, hn, SymbolTable.addExternal, Statement.ownFaults, hs, Placed.externalSymbol]

theorem place_eq (l : Layout) (s : Statement) :
    l.place s =
      { l with
        symbols := l.symbols.declareAll (s.external?.toList.map Placed.externalSymbol)
        data := l.data ++ s.dataWords
        codeSize := l.codeSize + s.codeSize
        errors := l.errors ++ (l.symbols.clashes (s.external?.toList.map Placed.externalSymbol) ++
          s.ownFaults) } := by
  have hnone : s.action ≠ .directive .external → s.external? = none := by
    intro h; simp [Statement.external?, h]
  unfold place
  cases ha : s.action with
  | instruction op =>
      simp [hnone (by simp [ha]), Statement.dataWords, Statement.codeSize, Statement.ownFaults, ha,
        SymbolTable.declareAll, SymbolTable.clashes]
  | directive d =>
      by_cases hd : d = .external
      · subst hd
        simp only [addExternal_eq l ha, Statement.dataWords, Statement.codeSize, ha]
        simp [Data.contents]
      · have hown : s.ownFaults = (Data.contents d s.args).faults := by
          cases d <;> simp_all [Statement.ownFaults]
        simp only [hown, hnone (by simp [ha, hd]), Statement.dataWords, Statement.codeSize, ha]
        simp [SymbolTable.declareAll, SymbolTable.clashes]

/-- All that a statement does to the layout. -/
theorem addStatement_eq (l : Layout) (s : Statement) :
    l.addStatement s =
      { l with
        statements := l.statements.push s
        symbols := l.symbols.declareAll (Placed.definitions ⟨l.codeSize, l.data.size, s⟩)
        data := l.data ++ s.dataWords
        codeSize := l.codeSize + s.codeSize
        errors := l.errors ++ (l.symbols.clashes (Placed.definitions ⟨l.codeSize, l.data.size, s⟩) ++
          s.ownFaults) } := by
  have hassoc : ∀ (errors : Array Diagnostic) (a b c : List Diagnostic),
      errors ++ a ++ (b ++ c) = errors ++ (a ++ b ++ c) :=
    fun errors a b c => Array.ext' (by simp)
  simp only [addStatement, addLabel_eq, place_eq, hassoc, Placed.definitions,
    SymbolTable.declareAll_append, SymbolTable.clashes_append]

/-! ## All statements -/

/-- The layout holds what the statements read so far define and place. -/
structure Holds (l : Layout) (ss : List Statement) : Prop where
  statements : l.statements.toList = ss
  codeSize : l.codeSize = Statement.codeTotal ss
  data : l.data.toList = Statement.dataAll ss
  symbols : l.symbols = SymbolTable.declareAll {} (Statement.definitions ss)

theorem holds_empty : Holds {} [] :=
  ⟨rfl, rfl, rfl, rfl⟩

theorem Holds.place {l ss} (h : Holds l ss) (s : Statement) :
    (⟨l.codeSize, l.data.size, s⟩ : Placed) =
      ⟨Statement.codeTotal ss, (Statement.dataAll ss).length, s⟩ := by
  rw [h.codeSize, ← h.data, Array.length_toList]

theorem Holds.addStatement {l ss} (h : Holds l ss) (s : Statement) :
    Holds (l.addStatement s) (ss ++ [s]) := by
  rw [addStatement_eq, h.place s]
  constructor
  · simp [h.statements]
  · simp [h.codeSize]
  · simp [h.data]
  · rw [Statement.definitions_append_singleton, SymbolTable.declareAll_append, ← h.symbols]

theorem Holds.addLine {l ss} (h : Holds l ss) (line : Line) :
    Holds (l.addLine line) (ss ++ line.statement?.toList) := by
  unfold Layout.addLine Line.statement?
  cases line.parse with
  | error d => simpa using ⟨h.statements, h.codeSize, h.data, h.symbols⟩
  | ok parsed =>
      cases parsed with
      | blank => simpa using h
      | comment => simpa using h
      | labelOnly label => simpa using ⟨h.statements, h.codeSize, h.data, h.symbols⟩
      | statement s => simpa using h.addStatement s

theorem ofLines_append_singleton (lines : List Line) (line : Line) :
    ofLines (lines ++ [line]) = (ofLines lines).addLine line := by
  simp [ofLines]

/-- The layout of a source, errors or not, is that of its statements. -/
theorem holds_ofLines (lines : List Line) : Holds (ofLines lines) (Statement.ofLines lines) := by
  induction lines using List.reverseRecOn with
  | nil => exact holds_empty
  | append_singleton lines line ih =>
      have hs : Statement.ofLines (lines ++ [line]) =
          Statement.ofLines lines ++ line.statement?.toList := by
        cases hl : line.statement? <;> simp [Statement.ofLines, hl]
      rw [ofLines_append_singleton, hs]
      exact ih.addLine line

/-- A statement adds no fault if it has none by itself and its names are new. -/
theorem Holds.errors_addStatement {l ss} (h : Holds l ss) (s : Statement) :
    (l.addStatement s).errors = #[] ↔
      l.errors = #[] ∧ s.ownFaults = [] ∧ s.names.Nodup ∧ List.Disjoint (Statement.definedNames ss) s.names := by
  have hclash : l.symbols.clashes (Placed.definitions ⟨l.codeSize, l.data.size, s⟩) = [] ↔
      s.names.Nodup ∧ List.Disjoint (Statement.definedNames ss) s.names := by
    rw [SymbolTable.clashes_eq_nil, Placed.map_name_definitions, and_comm, h.symbols]
    simp only [SymbolTable.find?_declareAll_eq_none, Statement.map_name_definitions]
    apply and_congr_right
    intro _
    rw [List.disjoint_comm]
    constructor
    · intro hd name hn
      rw [← Placed.map_name_definitions ⟨l.codeSize, l.data.size, s⟩] at hn
      obtain ⟨d, hd', rfl⟩ := List.mem_map.mp hn
      exact hd d hd'
    · intro hd d hm
      exact hd ((Placed.map_name_definitions ⟨l.codeSize, l.data.size, s⟩) ▸ List.mem_map_of_mem hm)
  rw [addStatement_eq, ← hclash]
  simp only [← Array.toList_eq_nil_iff, Array.toList_appendList, List.append_eq_nil_iff]
  tauto

/-- The first pass finds no fault if every line can be read, no directive is at fault by itself, and
no name is defined twice. -/
theorem errors_ofLines_eq_nil (lines : List Line) :
    (ofLines lines).errors = #[] ↔
      (∀ line ∈ lines, ∃ parsed, line.parse = .ok parsed) ∧
        (∀ s ∈ Statement.ofLines lines, s.ownFaults = []) ∧
        (Statement.definedNames (Statement.ofLines lines)).Nodup := by
  induction lines using List.reverseRecOn with
  | nil => simp [ofLines, Statement.ofLines, Statement.definedNames]
  | append_singleton lines line ih =>
      have hread : (∀ l ∈ lines ++ [line], ∃ parsed, l.parse = .ok parsed) ↔
          (∀ l ∈ lines, ∃ parsed, l.parse = .ok parsed) ∧ ∃ parsed, line.parse = .ok parsed := by
        simp [or_imp, forall_and]
      rw [ofLines_append_singleton, hread]
      cases hp : line.parse with
      | error d => simp [addLine, hp, fail]
      | ok parsed =>
          cases parsed with
          | statement s =>
              have hs : Statement.ofLines (lines ++ [line]) = Statement.ofLines lines ++ [s] := by
                simp [Statement.ofLines, Line.statement?, hp]
              have hadd : (ofLines lines).addLine line = (ofLines lines).addStatement s := by
                simp [addLine, hp]
              rw [hadd, (holds_ofLines lines).errors_addStatement, hs,
                Statement.definedNames_append_singleton, List.nodup_append', ih]
              simp only [List.mem_append, List.mem_singleton, or_imp, forall_and, forall_eq,
                Except.ok.injEq, exists_eq', and_true]
              tauto
          | _ => simp [addLine, hp, ih, Statement.ofLines, Line.statement?]

/-! ## Final addresses -/

/-- The symbols of a program at their final addresses. -/
def finalTable (ss : List Statement) : SymbolTable :=
  (SymbolTable.declareAll {} (Statement.definitions ss)).relocate (.ofNat Memory.base)
    (.ofNat (Statement.codeTotal ss))

/-- Where no name is defined twice every definition counts. -/
theorem symbols_finalTable {ss : List Statement} (h : (Statement.definedNames ss).Nodup) :
    (finalTable ss).symbols = (Statement.definitions ss).map
      (Symbol.relocate (.ofNat Memory.base) (.ofNat (Statement.codeTotal ss))) := by
  rw [finalTable, SymbolTable.relocate, SymbolTable.declareAll_of_nodup ((Statement.map_name_definitions ss).symm ▸ h)]

theorem names_finalTable {ss : List Statement} (h : (Statement.definedNames ss).Nodup) :
    (finalTable ss).names = Statement.definedNames ss := by
  rw [SymbolTable.names, symbols_finalTable h, List.map_map, ← Statement.map_name_definitions]
  exact List.map_congr_left fun s _ => Symbol.relocate_name _ _ s

theorem Holds.size {l ss} (h : Holds l ss) :
    l.size = Statement.codeTotal ss + (Statement.dataAll ss).length := by
  rw [Layout.size, h.codeSize, ← h.data, Array.length_toList]

/-- The first pass fails only if the image is too large. -/
theorem Holds.finalSymbols {l ss} (h : Holds l ss) :
    l.finalSymbols =
      if l.size ≤ Memory.room then .ok (finalTable ss)
      else .error (.oversizedImage Memory.room l.size) := by
  have hpending : l.symbols.relocation = .pending := by rw [h.symbols]; simp
  unfold Layout.finalSymbols
  split
  · rw [SymbolTable.moveData_moveAll hpending, finalTable, ← h.symbols, ← h.codeSize]
  · rfl

end Layout

end TwoPass
