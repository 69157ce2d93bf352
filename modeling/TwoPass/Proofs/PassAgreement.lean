import TwoPass.Proofs.BothPasses

/-!
The two passes agree on every address. The sizes counted in the first pass are the sizes of what is
emitted in the second, and what is wrong with a source is never an inconsistency between them.
-/
namespace TwoPass

/-! ## No fault of a source is an inconsistency -/

/-- A fault that one line has by itself. A name that is taken is none, nor is a disagreement of the
passes. -/
def Diagnostic.isPlain : Diagnostic → Bool
  | .redeclaredLabel .. | .wordCountMismatch .. | .relocation .. | .context .. => false
  | _ => true

theorem Diagnostic.kind_of_isPlain {d : Diagnostic} (h : d.isPlain = true) : d.kind ≠ .consistency := by
  cases d <;> simp_all [isPlain, kind]

theorem Token.literal_fault {t : Token} {d} (h : t.literal = .error d) : d.isPlain = true := by
  unfold literal at h
  split at h
  · cases h; rfl
  · split at h <;> cases h <;> rfl

namespace Data

theorem literals_fault {items : List Token} {d} (h : d ∈ (literals items).faults) :
    d.isPlain = true := by
  simp only [literals, List.filterMap_map, List.mem_filterMap, Function.comp_apply] at h
  obtain ⟨t, -, ht⟩ := h
  cases hl : t.literal with
  | ok w => simp [faultOf, hl] at ht
  | error e =>
      simp only [faultOf, hl, Option.some.injEq] at ht
      subst ht
      exact Token.literal_fault hl

theorem cells_fault {count : Nat} {items : List Token} {d} (h : d ∈ (cells count items).faults) :
    d.isPlain = true := by
  simp only [cells, List.mem_append] at h
  rcases h with h | h
  · exact literals_fault h
  · split at h
    · cases h
    · rw [List.mem_singleton.mp h]; rfl

theorem matrix_fault {args : Token} {d} (h : d ∈ (matrix args).faults) : d.isPlain = true := by
  unfold matrix at h
  split at h
  · rw [List.mem_singleton.mp h]; rfl
  · simp only at h
    split at h
    · split at h
      · exact cells_fault h
      · rw [List.mem_singleton.mp h]; rfl
    · rw [List.mem_singleton.mp h]; rfl

theorem contents_fault {directive : Directive} {args : Token} {d}
    (h : d ∈ (contents directive args).faults) : d.isPlain = true := by
  cases directive with
  | data =>
      simp only [contents, numbers] at h
      split at h
      · rw [List.mem_singleton.mp h]; rfl
      · exact literals_fault h
  | string =>
      simp only [contents, string] at h
      split at h
      · rw [List.mem_singleton.mp h]; rfl
      · cases h
  | mat => exact matrix_fault h
  | entry => cases h
  | external => cases h

end Data

namespace Operand

theorem target_fault {table label d} (h : target table label = .error d) : d.isPlain = true := by
  unfold target at h
  split at h <;> cases h
  rfl

theorem readRegister_fault {t d} (h : readRegister t = .error d) : d.isPlain = true := by
  unfold readRegister at h
  split at h <;> cases h
  rfl

theorem ofShape_fault {table shape d} (h : ofShape table shape = .error d) : d.isPlain = true := by
  cases shape with
  | immediate literal =>
      rcases bind_eq_error.mp h with h | ⟨w, -, h⟩
      · exact Token.literal_fault h
      · cases h
  | register r => cases h
  | direct label =>
      rcases bind_eq_error.mp h with h | ⟨leads, -, h⟩
      · exact target_fault h
      · cases h
  | matrix label row column =>
      rcases bind_eq_error.mp h with h | ⟨r, -, h⟩
      · exact readRegister_fault h
      rcases bind_eq_error.mp h with h | ⟨c, -, h⟩
      · exact readRegister_fault h
      rcases bind_eq_error.mp h with h | ⟨leads, -, h⟩
      · exact target_fault h
      · cases h

theorem ofToken_fault {table t d} (h : ofToken table t = .error d) : d.isPlain = true := by
  unfold ofToken at h
  split at h
  · cases h; rfl
  · exact ofShape_fault h

end Operand

namespace Instruction

theorem resolve_fault {table ts es} (h : resolve table ts = .error es) {d} (hd : d ∈ es) :
    d.isPlain = true := by
  induction ts generalizing es with
  | nil => cases h
  | cons t ts ih =>
      cases ht : Operand.ofToken table t with
      | ok op =>
          cases hs : resolve table ts with
          | ok ops => simp [resolve, ht, hs] at h
          | error es' =>
              simp only [resolve, ht, hs, Except.error.injEq] at h
              subst h
              exact ih hs hd
      | error e =>
          have he := Operand.ofToken_fault ht
          cases hs : resolve table ts with
          | ok ops =>
              simp only [resolve, ht, hs, Except.error.injEq] at h
              subst h
              rw [List.mem_singleton.mp hd]
              exact he
          | error es' =>
              simp only [resolve, ht, hs, Except.error.injEq] at h
              subst h
              rcases List.mem_cons.mp hd with rfl | hd
              · exact he
              · exact ih hs hd

theorem encode_fault {table pc op keyword args es} (h : encode table pc op keyword args = .error es)
    {d} (hd : d ∈ es) : d.isPlain = true := by
  unfold encode at h
  split at h
  · cases h
    rw [List.mem_singleton.mp hd]; rfl
  · simp only at h
    split at h
    · split at h
      · cases h
      · rename_i hr
        cases h
        exact resolve_fault hr hd
    · cases h
      rw [List.mem_singleton.mp hd]; rfl

end Instruction

namespace Statement

theorem checkLabel_fault {label d} (h : checkLabel label = .error d) : d.isPlain = true := by
  unfold checkLabel at h
  split at h
  · cases h; rfl
  · split at h <;> cases h
    rfl

theorem splitLabel_fault {code d} (h : splitLabel code = .error d) : d.isPlain = true := by
  unfold splitLabel at h
  split at h
  · cases h
  · rcases bind_eq_error.mp h with h | ⟨u, -, h⟩
    · exact checkLabel_fault h
    · cases h

theorem readDirective_fault {line label code d} (h : readDirective line label code = .error d) :
    d.isPlain = true := by
  unfold readDirective at h
  dsimp only at h
  split at h
  · cases h; rfl
  · split at h <;> cases h
    rfl

theorem readCode_fault {line code d} (h : readCode line code = .error d) : d.isPlain = true := by
  rcases bind_eq_error.mp h with h | ⟨⟨label, rest⟩, -, h⟩
  · exact splitLabel_fault h
  dsimp only at h
  split at h
  · cases h
  · split at h
    · rcases bind_eq_error.mp h with h | ⟨s, -, h⟩
      · exact readDirective_fault h
      · cases h
    · cases h
  · cases h

theorem ownFaults_fault {s : Statement} {d} (h : d ∈ s.ownFaults) : d.isPlain = true := by
  unfold ownFaults at h
  split at h
  · cases h
  · split at h
    · rw [List.mem_singleton.mp h]; rfl
    · split at h
      · rename_i hc
        rw [List.mem_singleton.mp h]
        exact checkLabel_fault hc
      · cases h
  · exact Data.contents_fault h

end Statement

theorem Line.parse_fault {line : Line} {d} (h : line.parse = .error d) : d.isPlain = true := by
  rcases line.parse_cases with hp | hp | ⟨code, hp⟩
  · rw [hp] at h; cases h
  · rw [hp] at h; cases h
  · exact Statement.readCode_fault (hp.symm.trans h)

theorem SymbolTable.clashes_fault {table : SymbolTable} {symbols : List Symbol} {d}
    (h : d ∈ table.clashes symbols) : d.kind ≠ .consistency := by
  induction symbols generalizing table with
  | nil => cases h
  | cons s symbols ih =>
      simp only [clashes, List.mem_append] at h
      rcases h with h | h
      · split at h
        · rw [List.mem_singleton.mp h]; rintro ⟨⟩
        · cases h
      · exact ih h

theorem Layout.errors_fault (lines : List Line) {d} (h : d ∈ (ofLines lines).errors) :
    d.kind ≠ .consistency := by
  induction lines using List.reverseRecOn with
  | nil => simp [ofLines] at h
  | append_singleton lines line ih =>
      rw [ofLines_append_singleton] at h
      unfold addLine at h
      cases hp : line.parse with
      | error e =>
          simp only [hp, fail, Array.mem_push] at h
          rcases h with h | rfl
          · exact ih h
          · exact Diagnostic.kind_of_isPlain (Line.parse_fault hp)
      | ok parsed =>
          cases parsed with
          | statement s =>
              simp only [hp, addStatement_eq, Array.mem_def, Array.toList_appendList,
                List.mem_append] at h
              rcases h with h | h | h
              · exact ih (Array.mem_def.mpr h)
              · exact SymbolTable.clashes_fault h
              · exact Diagnostic.kind_of_isPlain (Statement.ownFaults_fault h)
          | _ => exact ih (by simpa only [hp] using h)

theorem Placed.faults_fault {table : SymbolTable} {p : Placed} {d} (h : d ∈ p.faults table) :
    d.isPlain = true := by
  unfold faults at h
  split at h
  · unfold Statement.entryFault? at h
    split at h
    · split at h
      · rw [List.mem_singleton.mp h]; rfl
      · split at h
        · rw [List.mem_singleton.mp h]; rfl
        · split at h
          · rw [List.mem_singleton.mp h]; rfl
          · cases h
    · cases h
  · rename_i ds he
    unfold encoded at he
    split at he
    · exact Instruction.encode_fault he h
    · cases he

/-- Whatever is wrong with a source, the passes do not contradict each other. -/
theorem Assembly.errors_fault (lines : List Line) {d} (h : d ∈ (ofLines lines).errors) :
    d.kind ≠ .consistency := by
  by_cases hf : Statement.Fits (Statement.ofLines lines)
  · rw [errors_ofLines hf] at h
    rcases List.mem_append.mp h with h | h
    · exact Layout.errors_fault lines (Array.mem_def.mpr h)
    · obtain ⟨p, -, hp⟩ := List.mem_flatMap.mp h
      exact Diagnostic.kind_of_isPlain (Placed.faults_fault hp)
  · rw [errors_ofLines_of_not_fits hf] at h
    rcases List.mem_append.mp h with h | h
    · exact Layout.errors_fault lines (Array.mem_def.mpr h)
    · rw [List.mem_singleton.mp h]; rintro ⟨⟩

/-! ## Addresses -/

theorem Placed.sum_codeSize (ss : List Statement) :
    ((Placed.list ss).map fun p => p.statement.codeSize).sum = Statement.codeTotal ss := by
  induction ss using List.reverseRecOn with
  | nil => rfl
  | append_singleton ss s ih => simp [Placed.list_append_singleton, ih]

theorem Placed.length_code (table : SymbolTable) (ss : List Statement) :
    ((Placed.list ss).flatMap (Placed.codeWords table)).length = Statement.codeTotal ss := by
  rw [List.length_flatMap, ← Placed.sum_codeSize]
  simp only [length_codeWords]

/-- The address of a statement that takes words is one of the machine's. -/
theorem Placed.address_lt {ss p} (hf : Statement.Fits ss) (hp : p ∈ Placed.list ss)
    (hs : 0 < p.statement.codeSize) : p.address < Memory.size := by
  obtain ⟨before, after, rfl, hc, -⟩ := mem_list.mp hp
  simp only [Statement.Fits, Statement.codeTotal_append, Statement.codeTotal_cons] at hf
  rw [address, hc]
  omega

theorem toNat_ofNat_of_lt {n : Nat} (h : n < Memory.size) : (UInt16.ofNat n).toNat = n :=
  UInt16.toNat_ofNat_of_lt' h

/-- The second pass reaches the end of every source that the first pass has laid out. Its code is, in
the order of the source, what each instruction is encoded to at its address, with zeros for one at
fault; no address of an instruction that takes words is cut to 16 bits. -/
theorem second_pass_fills_first_pass (lines : List Line) (symbols : SymbolTable)
    (h : (Layout.ofLines lines).finalSymbols = .ok symbols) :
    ∃ e, Emission.ofStatements symbols (Layout.ofLines lines).statements.toList = .ok e ∧
      (Layout.ofLines lines).statements.toList = Statement.ofLines lines ∧
      (Assembly.ofLines lines).program.instructions = e.instructions.toList ∧
      e.instructions.toList =
        (Placed.list (Statement.ofLines lines)).flatMap (Placed.codeWords symbols) ∧
      (∀ p ∈ Placed.list (Statement.ofLines lines), 0 < p.statement.codeSize →
        (UInt16.ofNat p.address).toNat = p.address) ∧
      e.instructions.size = (Layout.ofLines lines).codeSize ∧
      (∀ d ∈ (Assembly.ofLines lines).errors, d.kind ≠ .consistency) ∧
      ∀ table pc op keyword args words uses,
        Instruction.encode table pc op keyword args = .ok (words, uses) →
          words.length = Instruction.size op args := by
  obtain ⟨hfits, rfl⟩ := Layout.finalSymbols_eq_ok.mp h
  have hl := Layout.holds_ofLines lines
  obtain ⟨e, he, hh⟩ := Emission.holds_ofStatements (Layout.finalTable (Statement.ofLines lines))
    (Statement.ofLines lines)
  refine ⟨e, hl.statements.symm ▸ he, hl.statements, ?_, hh.instructions, ?_, ?_, ?_, ?_⟩
  · rw [Assembly.program_ofLines hfits, hh.instructions]
  · intro p hp hs
    exact toNat_ofNat_of_lt (Placed.address_lt hfits hp hs)
  · rw [← Array.length_toList, hh.instructions, Placed.length_code, hl.codeSize]
  · exact fun d hd => Assembly.errors_fault lines hd
  · exact fun table pc op keyword args words uses => Instruction.length_of_encode

/-- A source with an unknown mnemonic, which takes no words, and an unknown label, which leaves zeros. -/
def faultySource : List Line :=
  [⟨1, Text.of "L: mov #1, r2"⟩, ⟨2, Text.of "foo L"⟩, ⟨3, Text.of "V: .data 5, -1"⟩, ⟨4, Text.of "prn X"⟩]

theorem faultySource_filled :
    (Layout.ofLines faultySource).finalSymbols = .ok (Layout.finalTable (Statement.ofLines faultySource)) ∧
      ∃ e, Emission.ofStatements (Layout.finalTable (Statement.ofLines faultySource))
          (Layout.ofLines faultySource).statements.toList = .ok e ∧
        e.instructions.toList = [18, 1, 0, 0] := by
  have hs : (Layout.ofLines faultySource).finalSymbols =
      .ok (Layout.finalTable (Statement.ofLines faultySource)) := by decide
  obtain ⟨e, he, -, hp, -⟩ := second_pass_fills_first_pass faultySource _ hs
  exact ⟨hs, e, he, hp.symm.trans (by decide)⟩

end TwoPass
