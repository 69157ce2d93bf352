import TwoPass.Proofs.Encoding
import TwoPass.Proofs.Placement

/-!
What the second pass emits. Each statement is encoded at its place against the final symbols, and
the marks that entry directives set on the way change no word.
-/
namespace TwoPass

/-- Why an entry directive cannot export its name. -/
def Statement.entryFault? (table : SymbolTable) (s : Statement) : Option Diagnostic :=
  if s.action = .directive .entry then
    if s.args.value.isEmpty then some (.missingOperand s.args.position)
    else match table.find? s.args.value with
      | none => some (.unknownLabel s.args.position s.args.value)
      | some symbol =>
        if symbol.kind = .external then some (.externalEntry s.args.position s.args.value) else none
  else none

/-- The name that an entry directive exports. -/
def Statement.exported? (table : SymbolTable) (s : Statement) : Option Text :=
  if s.action = .directive .entry ∧ s.entryFault? table = none then some s.args.value else none

def Statement.exports (table : SymbolTable) (ss : List Statement) : List Text :=
  ss.filterMap (Statement.exported? table)

namespace Placed

/-- The address of the first code word, counted without limit. -/
def address (p : Placed) : Nat :=
  Memory.base + p.code

/-- What a statement is encoded to at its place. A directive is encoded to nothing. -/
def encoded (table : SymbolTable) (p : Placed) :
    Except (List Diagnostic) (List Word × List ExternalUse) :=
  match p.statement.action with
  | .instruction op =>
    Instruction.encode table (.ofNat p.address) op p.statement.keyword p.statement.args
  | .directive _ => .ok ([], [])

/-- The code words of a statement. An instruction at fault leaves zeros in its place. -/
def codeWords (table : SymbolTable) (p : Placed) : List Word :=
  match p.encoded table with
  | .ok (words, _) => words
  | .error _ => List.replicate p.statement.codeSize 0

def uses (table : SymbolTable) (p : Placed) : List ExternalUse :=
  match p.encoded table with
  | .ok (_, uses) => uses
  | .error _ => []

def faults (table : SymbolTable) (p : Placed) : List Diagnostic :=
  match p.encoded table with
  | .ok _ => (p.statement.entryFault? table).toList
  | .error ds => ds

/-- What is kept of a statement that takes code words: where they start, and the line it is from. -/
def debugLine? (p : Placed) : Option (Word × Int) :=
  if 0 < p.statement.codeSize then some (.ofNat p.address, p.statement.line) else none

theorem length_of_encoded {table p words uses} (h : encoded table p = .ok (words, uses)) :
    words.length = p.statement.codeSize := by
  unfold encoded at h
  unfold Statement.codeSize
  cases ha : p.statement.action with
  | instruction op =>
      rw [ha] at h
      exact Instruction.length_of_encode h
  | directive d =>
      rw [ha] at h
      cases h
      rfl

theorem length_codeWords (table : SymbolTable) (p : Placed) :
    (p.codeWords table).length = p.statement.codeSize := by
  unfold codeWords
  cases h : p.encoded table with
  | error ds => simp
  | ok r => exact length_of_encoded h

theorem encoded_mark (names : List Text) (table : SymbolTable) (p : Placed) :
    p.encoded (table.mark names) = p.encoded table := by
  unfold encoded
  simp only [Instruction.encode_mark]

theorem codeWords_mark (names : List Text) (table : SymbolTable) (p : Placed) :
    p.codeWords (table.mark names) = p.codeWords table := by
  rw [codeWords, codeWords, encoded_mark]

theorem encoded_of_faults {table p} (h : faults table p = []) : ∃ r, p.encoded table = .ok r := by
  cases he : p.encoded table with
  | ok r => exact ⟨r, rfl⟩
  | error ds =>
      simp only [faults, he] at h
      subst h
      unfold encoded at he
      split at he
      · exact (Instruction.encode_ne_error_nil _ _ _ _ _ he).elim
      · cases he

theorem entryFault?_of_faults {table : SymbolTable} {p : Placed} (h : p.faults table = []) :
    p.statement.entryFault? table = none := by
  obtain ⟨r, hr⟩ := encoded_of_faults h
  rw [faults, hr] at h
  exact Option.toList_eq_nil_iff.mp h

/-- What an instruction that is encoded consists of. -/
theorem encoded_instruction {table : SymbolTable} {p : Placed} {r op} (he : p.encoded table = .ok r)
    (ha : p.statement.action = .instruction op) :
    ∃ o ops, op = some o ∧ (Instruction.operands p.statement.args).length = o.arity ∧
      Instruction.resolve table (Instruction.operands p.statement.args) = .ok ops ∧
      p.codeWords table = Instruction.words o ops ∧
      p.uses table = Instruction.uses (.ofNat p.address + 1) ops := by
  obtain ⟨words, uses⟩ := r
  have hencode := he
  rw [encoded, ha] at hencode
  obtain ⟨o, ops, rfl, harity, hr, rfl, rfl⟩ := Instruction.encode_eq_ok.mp hencode
  exact ⟨o, ops, rfl, harity, hr, by rw [codeWords, he], by rw [Placed.uses, he]⟩

/-- An instruction that is encoded has its main word at least. -/
theorem codeSize_pos {table : SymbolTable} {p : Placed} {r op} (he : p.encoded table = .ok r)
    (ha : p.statement.action = .instruction op) : 0 < p.statement.codeSize := by
  obtain ⟨o, ops, -, -, -, hw, -⟩ := encoded_instruction he ha
  rw [← length_codeWords table p, hw, Instruction.words, List.length_cons]
  exact Nat.succ_pos _

theorem encoded_directive {p : Placed} {d} (h : p.statement.action = .directive d) (table : SymbolTable) :
    p.encoded table = .ok ([], []) := by
  rw [encoded, h]

end Placed

theorem Statement.entryFault?_eq_none {table : SymbolTable} {s : Statement} (h : s.action = .directive .entry) :
    s.entryFault? table = none ↔
      s.args.value ≠ [] ∧ ∃ symbol, table.find? s.args.value = some symbol ∧ symbol.kind ≠ .external := by
  unfold entryFault?
  rw [if_pos h]
  by_cases he : s.args.value = []
  · simp [he]
  · cases hf : table.find? s.args.value <;> simp [he]

theorem Statement.find?_of_mem_exports {table : SymbolTable} {ss : List Statement} {name : Text}
    (h : name ∈ exports table ss) : table.find? name ≠ none := by
  obtain ⟨s, -, he⟩ := List.mem_filterMap.mp h
  unfold exported? at he
  split at he
  · rename_i hentry
    cases he
    obtain ⟨-, symbol, hs, -⟩ := (entryFault?_eq_none hentry.1).mp hentry.2
    exact Option.ne_none_iff_exists'.mpr ⟨symbol, hs⟩
  · cases he

theorem Statement.entryFault?_mark (names : List Text) (table : SymbolTable) (s : Statement) :
    s.entryFault? (table.mark names) = s.entryFault? table := by
  unfold entryFault?
  rw [SymbolTable.find?_mark]
  cases table.find? s.args.value <;> rfl

namespace Emission

/-! ## One statement -/

theorem addEntry_eq (e : Emission) {s : Statement} (hs : s.action = .directive .entry) :
    e.addEntry s.args =
      { e with
        symbols := e.symbols.mark (s.exported? e.symbols).toList
        errors := e.errors ++ (s.entryFault? e.symbols).toList } := by
  unfold addEntry Statement.exported? Statement.entryFault?
  by_cases hn : s.args.value = []
  · simp [hn, hs, fail]
  · cases hf : e.symbols.find? s.args.value with
    | none => simp [hn, hs, hf, fail, SymbolTable.markExported_eq]
    | some symbol =>
        by_cases hk : symbol.kind = .external <;>
          simp [hn, hs, hf, hk, fail, SymbolTable.markExported_eq]

/-- The emission holds what the statements met so far are encoded to. -/
structure Holds (table : SymbolTable) (e : Emission) (ss : List Statement) : Prop where
  pc : e.pc = .ofNat (Memory.base + Statement.codeTotal ss)
  instructions : e.instructions.toList = (Placed.list ss).flatMap (Placed.codeWords table)
  externals : e.externals.toList = (Placed.list ss).flatMap (Placed.uses table)
  lines : e.lines.toList = (Placed.list ss).filterMap Placed.debugLine?
  errors : e.errors.toList = (Placed.list ss).flatMap (Placed.faults table)
  symbols : e.symbols = table.mark (Statement.exports table ss)

theorem holds_start (table : SymbolTable) : Holds table { symbols := table } [] :=
  ⟨rfl, rfl, rfl, rfl, rfl, by simp [Statement.exports]⟩

theorem Holds.addInstruction {table e ss} (h : Holds table e ss) {s : Statement} {op}
    (hs : s.action = .instruction op) :
    ∃ e', e.addInstruction s op = .ok e' ∧ Holds table e' (ss ++ [s]) := by
  let p : Placed := ⟨Statement.codeTotal ss, (Statement.dataAll ss).length, s⟩
  have hsize : Instruction.size op s.args = s.codeSize := by simp [Statement.codeSize, hs]
  -- the marks set so far do not show in what is encoded
  have hencoded : Instruction.encode e.symbols e.pc op s.keyword s.args = p.encoded table := by
    rw [h.symbols, Instruction.encode_mark, h.pc]
    simp [Placed.encoded, Placed.address, p, hs]
  have hpc : e.pc + .ofNat s.codeSize = .ofNat (Memory.base + Statement.codeTotal (ss ++ [s])) := by
    rw [h.pc, ← UInt16.ofNat_add]
    simp [Nat.add_assoc]
  have hlines : (if 0 < s.codeSize then e.lines.push (e.pc, s.line) else e.lines).toList =
      (Placed.list (ss ++ [s])).filterMap Placed.debugLine? := by
    rw [Placed.list_append_singleton, List.filterMap_append, ← h.lines, h.pc]
    split
    · rename_i hpos
      simp [Placed.debugLine?, Placed.address, hpos]
    · rename_i hzero
      simp [Placed.debugLine?, hzero]
  have hentry : s.entryFault? table = none := by simp [Statement.entryFault?, hs]
  have hexports : Statement.exports table (ss ++ [s]) = Statement.exports table ss := by
    simp [Statement.exports, Statement.exported?, hs]
  unfold Emission.addInstruction
  rw [hencoded, hsize]
  cases he : p.encoded table with
  | error ds =>
      refine ⟨_, rfl, hpc, ?_, ?_, hlines, ?_, ?_⟩
      · simp [append, h.instructions, Placed.list_append_singleton, Placed.codeWords, p, he]
      · simp [append, h.externals, Placed.list_append_singleton, Placed.uses, p, he]
      · simp [append, h.errors, Placed.list_append_singleton, Placed.faults, p, he]
      · rw [hexports]; exact h.symbols
  | ok r =>
      obtain ⟨words, uses⟩ := r
      have hlength : words.length = s.codeSize := Placed.length_of_encoded he
      refine ⟨_, if_pos hlength, hpc, ?_, ?_, hlines, ?_, ?_⟩
      · simp [append, h.instructions, Placed.list_append_singleton, Placed.codeWords, p, he]
      · simp [append, h.externals, Placed.list_append_singleton, Placed.uses, p, he]
      · simp [append, h.errors, Placed.list_append_singleton, Placed.faults, p, he, hentry]
      · rw [hexports]; exact h.symbols

/-- A directive takes no place in the code. It can only export a name or fail to. -/
theorem Holds.addDirective {table e ss} (h : Holds table e ss) {s : Statement} {d}
    (hs : s.action = .directive d) :
    Holds table
      { e with
        symbols := e.symbols.mark (s.exported? table).toList
        errors := e.errors ++ (s.entryFault? table).toList } (ss ++ [s]) := by
  have hsize : s.codeSize = 0 := by simp [Statement.codeSize, hs]
  have hencoded : ∀ code data, Placed.encoded table ⟨code, data, s⟩ = .ok ([], []) :=
    fun code data => Placed.encoded_directive hs table
  have hexports : Statement.exports table (ss ++ [s]) =
      Statement.exports table ss ++ (s.exported? table).toList := by
    cases hx : s.exported? table <;> simp [Statement.exports, hx]
  constructor
  · simp [h.pc, hsize]
  · simp [h.instructions, Placed.list_append_singleton, Placed.codeWords, hencoded]
  · simp [h.externals, Placed.list_append_singleton, Placed.uses, hencoded]
  · simp [h.lines, Placed.list_append_singleton, Placed.debugLine?, hsize]
  · simp [h.errors, Placed.list_append_singleton, Placed.faults, hencoded]
  · rw [hexports, SymbolTable.mark_append, h.symbols]

theorem Holds.addEntry {table e ss} (h : Holds table e ss) {s : Statement}
    (hs : s.action = .directive .entry) : Holds table (e.addEntry s.args) (ss ++ [s]) := by
  have hfault : s.entryFault? e.symbols = s.entryFault? table := by
    rw [h.symbols, Statement.entryFault?_mark]
  have hexported : s.exported? e.symbols = s.exported? table := by
    simp only [Statement.exported?, hfault]
  rw [addEntry_eq e hs, hfault, hexported]
  exact h.addDirective hs

theorem Holds.skip {table e ss} (h : Holds table e ss) {s : Statement} {d}
    (hs : s.action = .directive d) (hd : d ≠ .entry) : Holds table e (ss ++ [s]) := by
  have hfault : s.entryFault? table = none := by simp [Statement.entryFault?, hs, hd]
  have hexported : s.exported? table = none := by simp [Statement.exported?, hs, hd]
  simpa [hfault, hexported] using h.addDirective hs

theorem Holds.addStatement {table e ss} (h : Holds table e ss) (s : Statement) :
    ∃ e', e.addStatement s = .ok e' ∧ Holds table e' (ss ++ [s]) := by
  unfold Emission.addStatement
  cases hs : s.action with
  | instruction op => exact h.addInstruction hs
  | directive d =>
      cases d with
      | entry => exact ⟨_, rfl, h.addEntry hs⟩
      | data => exact ⟨_, rfl, h.skip hs (by simp)⟩
      | string => exact ⟨_, rfl, h.skip hs (by simp)⟩
      | mat => exact ⟨_, rfl, h.skip hs (by simp)⟩
      | external => exact ⟨_, rfl, h.skip hs (by simp)⟩

/-! ## All statements -/

theorem ofStatements_append_singleton {table ss e} (h : ofStatements table ss = .ok e) (s : Statement) :
    ofStatements table (ss ++ [s]) = e.addStatement s := by
  unfold ofStatements at h ⊢
  rw [List.foldlM_append, h]
  exact bind_pure (e.addStatement s)

/-- The second pass always reaches the end of the program. -/
theorem holds_ofStatements (table : SymbolTable) (ss : List Statement) :
    ∃ e, ofStatements table ss = .ok e ∧ Holds table e ss := by
  induction ss using List.reverseRecOn with
  | nil => exact ⟨_, rfl, holds_start table⟩
  | append_singleton ss s ih =>
      obtain ⟨e, he, h⟩ := ih
      obtain ⟨e', he', h'⟩ := h.addStatement s
      exact ⟨e', (ofStatements_append_singleton he s).trans he', h'⟩

end Emission

end TwoPass
