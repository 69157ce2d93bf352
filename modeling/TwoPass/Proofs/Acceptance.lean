import TwoPass.Proofs.DataGrammar
import TwoPass.Proofs.Labels
import TwoPass.Proofs.Parsing

/-!
Which sources are assembled without an error. Each fault of either pass is the failure of one
condition on a single statement, on the names of the whole source or on its size.
-/
namespace TwoPass

namespace Layout

variable {ss : List Statement} {name : Text}

theorem find?_finalTable_ne_none : (finalTable ss).find? name ≠ none ↔ name ∈ Statement.definedNames ss := by
  rw [finalTable, SymbolTable.find?_relocate, ne_eq, Option.map_eq_none_iff,
    SymbolTable.find?_declareAll_eq_none, not_not, Statement.map_name_definitions]

/-- A name that leads out of the program is declared by a statement of it. -/
theorem external_of_find? {s} (h : (finalTable ss).find? name = some s) (hk : s.kind = .external) :
    ∃ t ∈ ss, t.action = .directive .external ∧ t.args.value = name := by
  rw [find?_finalTable] at h
  obtain ⟨d, hd, rfl⟩ := Option.map_eq_some_iff.mp h
  obtain ⟨before, t, after, rfl, -, ht⟩ := Statement.find?_definitions hd
  rcases Placed.find?_definitions ht with ⟨label, -, -, rfl⟩ | ⟨-, token, htoken, hv, rfl⟩
  · rw [Symbol.relocate_kind] at hk
    unfold Placed.labelSymbol at hk
    split at hk <;> cases hk
  · obtain ⟨ha, -, rfl⟩ := Statement.external?_eq_some.mp htoken
    exact ⟨t, by simp, ha, hv⟩

theorem find?_of_external (hnodup : (Statement.definedNames ss).Nodup) {t : Statement} (ht : t ∈ ss)
    {token} (he : t.external? = some token) :
    ∃ s, (finalTable ss).find? token.value = some s ∧ s.kind = .external := by
  obtain ⟨before, after, rfl⟩ := List.append_of_mem ht
  have hmem : Placed.externalSymbol token ∈ Statement.definitions (before ++ t :: after) := by
    refine List.mem_flatMap.mpr ⟨⟨_, _, t⟩, Placed.mem_list.mpr ⟨before, after, rfl, rfl, rfl⟩, ?_⟩
    simp [Placed.definitions, he]
  have hf := Statement.find?_definitions_of_nodup hnodup hmem
  exact ⟨_, by rw [find?_finalTable]; exact Option.map_eq_some_iff.mpr ⟨_, hf, rfl⟩, rfl⟩

/-- A name leads into the program if it is defined and no statement declares it to be elsewhere. -/
theorem find?_inside (hnodup : (Statement.definedNames ss).Nodup)
    (hexternals : ∀ t ∈ ss, t.action = .directive .external →
      Name.isValid t.args.value = true ∧ Name.isReserved t.args.value = false) :
    (∃ s, (finalTable ss).find? name = some s ∧ s.kind ≠ .external) ↔
      name ∈ Statement.definedNames ss ∧
        ∀ t ∈ ss, t.action = .directive .external → t.args.value ≠ name := by
  constructor
  · rintro ⟨s, hs, hk⟩
    refine ⟨find?_finalTable_ne_none.mp (by simp [hs]), ?_⟩
    rintro t ht ha rfl
    have he : t.external? = some t.args := Statement.external?_eq_some.mpr ⟨ha, hexternals t ht ha, rfl⟩
    obtain ⟨s', hs', hk'⟩ := find?_of_external hnodup ht he
    rw [hs] at hs'
    cases hs'
    exact hk hk'
  · rintro ⟨hmem, hne⟩
    obtain ⟨s, hs⟩ := Option.ne_none_iff_exists'.mp (find?_finalTable_ne_none.mpr hmem)
    refine ⟨s, hs, fun hk => ?_⟩
    obtain ⟨t, ht, ha, hv⟩ := external_of_find? hs hk
    exact hne t ht ha hv

end Layout

/-! ## One statement -/

theorem Statement.ownFaults_eq_nil (s : Statement) :
    s.ownFaults = [] ↔
      (s.action = .directive .data → Data.IsNumbers s.args.value) ∧
      (s.action = .directive .string → Data.IsString s.args.value) ∧
      (s.action = .directive .mat → Data.IsMatrix s.args.value) ∧
      (s.action = .directive .external →
        Name.isValid s.args.value = true ∧ Name.isReserved s.args.value = false) := by
  cases ha : s.action with
  | instruction op => simp [ownFaults, ha]
  | directive d =>
      cases d with
      | data => simp [ownFaults, ha, Data.contents, Data.faults_numbers]
      | string => simp [ownFaults, ha, Data.contents, Data.faults_string]
      | mat => simp [ownFaults, ha, Data.contents, Data.faults_matrix]
      | entry => simp [ownFaults, ha, Data.contents]
      | external =>
          rw [← checkLabel_eq_ok]
          by_cases he : s.args.value = []
          · simp [ownFaults, ha, he, checkLabel_eq_ok, Name.isValid_nil]
          · cases hc : checkLabel s.args <;> simp [ownFaults, ha, he, hc]

theorem Placed.faults_eq_nil {table : SymbolTable}
    (hnames : ∀ name, table.find? name ≠ none → Name.isValid name = true ∧ Name.isReserved name = false)
    (p : Placed) :
    p.faults table = [] ↔
      (∀ op, p.statement.action = .instruction op →
        Instruction.Written (fun name => table.find? name ≠ none) op p.statement.args.value) ∧
      (p.statement.action = .directive .entry →
        ∃ s, table.find? p.statement.args.value = some s ∧ s.kind ≠ .external) := by
  cases ha : p.statement.action with
  | instruction op =>
      have hne := Instruction.encode_ne_error_nil table (.ofNat p.address) op p.statement.keyword
        p.statement.args
      simp only [← Instruction.exists_encode hnames (.ofNat p.address) _ p.statement.keyword,
        Action.instruction.injEq, forall_eq', reduceCtorEq, false_imp_iff, and_true]
      simp only [faults, encoded, ha]
      cases he : Instruction.encode table (.ofNat p.address) op p.statement.keyword p.statement.args with
      | ok r => simp [Statement.entryFault?, ha]
      | error ds =>
          rw [he] at hne
          simpa using hne
  | directive d =>
      simp only [faults, encoded, ha, Option.toList_eq_nil_iff, reduceCtorEq, false_imp_iff, implies_true,
        true_and, Action.directive.injEq]
      by_cases hd : d = .entry
      · subst hd
        rw [Statement.entryFault?_eq_none ha]
        constructor
        · rintro ⟨-, hs⟩ -
          exact hs
        · intro hs
          obtain ⟨s, hf, hk⟩ := hs rfl
          have hname := hnames _ (Option.ne_none_iff_exists'.mpr ⟨s, hf⟩)
          exact ⟨Name.ne_nil_of_isValid hname.1, s, hf, hk⟩
      · simp [Statement.entryFault?, ha, hd]

namespace Assembly

/-- The symbols of a program have names that a source can define. -/
theorem name_of_mem {lines : List Line} (h : Statement.Fits (Statement.ofLines lines)) {s : Symbol}
    (hs : s ∈ (ofLines lines).program.symbols.symbols) :
    Name.isValid s.name = true ∧ Name.isReserved s.name = false := by
  rw [program_ofLines h] at hs
  obtain ⟨r, hr, rfl⟩ := List.mem_map.mp hs
  have hfind : (Layout.finalTable (Statement.ofLines lines)).find? r.name ≠ none :=
    Option.isSome_iff_ne_none.mp (List.find?_isSome.mpr ⟨r, hr, decide_eq_true rfl⟩)
  exact Statement.name_of_mem_definedNames (Layout.find?_finalTable_ne_none.mp hfind)

/-- Without errors the symbols stand in the order in which the source defines them. -/
theorem map_name_symbols {lines : List Line} (h : (ofLines lines).errors = []) :
    (ofLines lines).program.symbols.symbols.map (·.name) = Statement.definedNames (Statement.ofLines lines) := by
  obtain ⟨-, -, hnodup, -, hfits⟩ := (errors_ofLines_eq_nil lines).mp h
  rw [program_ofLines hfits, ← Layout.names_finalTable hnodup]
  exact List.map_map

/-- The language of the assembler. -/
structure Accepts (lines : List Line) : Prop where
  read : ∀ line ∈ lines, ∃ parsed, line.parse = .ok parsed
  numbers : ∀ s ∈ Statement.ofLines lines, s.action = .directive .data → Data.IsNumbers s.args.value
  strings : ∀ s ∈ Statement.ofLines lines, s.action = .directive .string → Data.IsString s.args.value
  matrices : ∀ s ∈ Statement.ofLines lines, s.action = .directive .mat → Data.IsMatrix s.args.value
  externals : ∀ s ∈ Statement.ofLines lines, s.action = .directive .external →
    Name.isValid s.args.value = true ∧ Name.isReserved s.args.value = false
  distinct : (Statement.definedNames (Statement.ofLines lines)).Nodup
  entries : ∀ s ∈ Statement.ofLines lines, s.action = .directive .entry →
    s.args.value ∈ Statement.definedNames (Statement.ofLines lines) ∧
      ∀ t ∈ Statement.ofLines lines, t.action = .directive .external → t.args.value ≠ s.args.value
  instructions : ∀ s ∈ Statement.ofLines lines, ∀ op, s.action = .instruction op →
    Instruction.Written (· ∈ Statement.definedNames (Statement.ofLines lines)) op s.args.value
  fits : Statement.Fits (Statement.ofLines lines)

theorem errors_eq_nil_iff_accepts (lines : List Line) : (ofLines lines).errors = [] ↔ Accepts lines := by
  have hdefined : ∀ name, (Layout.finalTable (Statement.ofLines lines)).find? name ≠ none ↔
      name ∈ Statement.definedNames (Statement.ofLines lines) :=
    fun name => Layout.find?_finalTable_ne_none
  have hnames : ∀ name, (Layout.finalTable (Statement.ofLines lines)).find? name ≠ none →
      Name.isValid name = true ∧ Name.isReserved name = false :=
    fun name h => Statement.name_of_mem_definedNames ((hdefined name).mp h)
  have hwritten : (fun name => (Layout.finalTable (Statement.ofLines lines)).find? name ≠ none) =
      (· ∈ Statement.definedNames (Statement.ofLines lines)) :=
    funext fun name => propext (hdefined name)
  rw [errors_ofLines_eq_nil]
  simp only [Placed.faults_eq_nil hnames, hwritten]
  simp only [Statement.ownFaults_eq_nil]
  constructor
  · rintro ⟨hread, hown, hnodup, hsecond, hfits⟩
    exact {
      read := hread
      numbers := fun s hs => (hown s hs).1
      strings := fun s hs => (hown s hs).2.1
      matrices := fun s hs => (hown s hs).2.2.1
      externals := fun s hs => (hown s hs).2.2.2
      distinct := hnodup
      entries := by
        intro s hs ha
        obtain ⟨p, hp, rfl⟩ := Placed.exists_of_mem hs
        exact (Layout.find?_inside hnodup fun t ht => (hown t ht).2.2.2).mp ((hsecond p hp).2 ha)
      instructions := by
        intro s hs
        obtain ⟨p, hp, rfl⟩ := Placed.exists_of_mem hs
        exact (hsecond p hp).1
      fits := hfits }
  · intro h
    refine ⟨h.read, fun s hs => ⟨h.numbers s hs, h.strings s hs, h.matrices s hs, h.externals s hs⟩,
      h.distinct, fun p hp => ⟨h.instructions _ (Placed.statement_mem hp), fun ha => ?_⟩, h.fits⟩
    exact (Layout.find?_inside h.distinct h.externals).mpr (h.entries _ (Placed.statement_mem hp) ha)

end Assembly

end TwoPass
