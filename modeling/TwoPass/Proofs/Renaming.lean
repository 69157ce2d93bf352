import TwoPass.Proofs.Acceptance
import TwoPass.Proofs.Positions

/-!
Names do not leak into the image. A source that renames the symbols of another one without a clash is
placed like it, statement by statement, and a name is looked up to the same address, so only the names
in the symbols and in the uses of external names differ.
-/
namespace TwoPass

/-! ## Operands -/

section
variable (ρ : Text → Text)

def Symbol.rename (s : Symbol) : Symbol :=
  { s with name := ρ s.name }

def SymbolTable.rename (table : SymbolTable) : SymbolTable :=
  { table with symbols := table.symbols.map (Symbol.rename ρ) }

def ExternalUse.rename (u : ExternalUse) : ExternalUse :=
  { u with name := ρ u.name }

def Target.rename (t : Target) : Target :=
  { t with external := t.external.map ρ }

def Operand.rename : Operand → Operand
  | .direct target => .direct (target.rename ρ)
  | .matrix target row column => .matrix (target.rename ρ) row column
  | op => op

end

namespace Operand

/-- The text of an operand with its label renamed. Literals and registers stay as they are. -/
inductive Renamed (ρ : Text → Text) : Text → Text → Prop
  | immediate {t} : Renamed ρ ('#'.toUInt8 :: t) ('#'.toUInt8 :: t)
  | register {t r} : Register.parse? t = some r → Renamed ρ t t
  | matrix {label label' row column} : label.NoBrackets → label'.NoBrackets → row.NoBrackets → column.NoBrackets →
      Name.isValid label.trim = true → label'.trim = ρ label.trim →
      Renamed ρ (Shape.matrixText label row column) (Shape.matrixText label' row column)
  | direct {t} : Name.isValid t = true → Name.isReserved t = false → Renamed ρ t (ρ t)

end Operand

/-- The shape of an operand with its label renamed. -/
inductive Shape.Renamed (ρ : Text → Text) : Shape → Shape → Prop
  | immediate {literal literal'} : literal'.value = literal.value → Renamed ρ (.immediate literal) (.immediate literal')
  | register {r} : Renamed ρ (.register r) (.register r)
  | matrix {label label' row row' column column'} : label'.value = ρ label.value → row'.value = row.value →
      column'.value = column.value → Renamed ρ (.matrix label row column) (.matrix label' row' column')
  | direct {label label'} : label'.value = ρ label.value → Renamed ρ (.direct label) (.direct label')

/-- The new names of a table are names that a source can define. -/
def SymbolTable.Renamable (ρ : Text → Text) (table : SymbolTable) : Prop :=
  ∀ name, table.find? name ≠ none → Name.isValid (ρ name) = true ∧ Name.isReserved (ρ name) = false

/-- The names of a table lead to the same places in another one, once they are renamed. -/
def SymbolTable.Follows (ρ : Text → Text) (table table' : SymbolTable) : Prop :=
  ∀ name s, table.find? name = some s →
    ∃ s', table'.find? (ρ name) = some s' ∧ s'.unplaced = (s.rename ρ).unplaced

section
variable {ρ : Text → Text} {table table' : SymbolTable}

namespace Operand

@[simp] theorem rename_words (op : Operand) : (op.rename ρ).words = op.words := by
  cases op <;> rfl

@[simp] theorem rename_field (op : Operand) : (op.rename ρ).field = op.field := by
  cases op <;> rfl

theorem rename_external? (op : Operand) : (op.rename ρ).external? = op.external?.map ρ := by
  cases op <;> rfl

theorem target_of_follows (hfollows : table.Follows ρ table') {label label' : Token}
    (h : label'.value = ρ label.value) {leads : Target} (ht : target table label = .ok leads) :
    target table' label' = .ok (leads.rename ρ) := by
  obtain ⟨s, hs, rfl⟩ := target_eq_ok.mp ht
  obtain ⟨s', hs', hsame⟩ := hfollows _ s hs
  refine target_eq_ok.mpr ⟨s', h ▸ hs', ?_⟩
  obtain ⟨name, address, kind, isEntry, position⟩ := s
  obtain ⟨name', address', kind', isEntry', position'⟩ := s'
  cases hsame
  simp [Symbol.target, Target.rename, apply_ite (Option.map ρ)]

end Operand

namespace Shape.Renamed

variable {shape shape' : Shape} (h : Shape.Renamed ρ shape shape')
include h

theorem mode : shape'.mode = shape.mode := by
  cases h <;> rfl

theorem ofShape (hfollows : table.Follows ρ table') {op} (hop : Operand.ofShape table shape = .ok op) :
    Operand.ofShape table' shape' = .ok (op.rename ρ) := by
  cases h with
  | immediate hv =>
      obtain ⟨w, hw, rfl⟩ := Operand.ofShape_immediate.mp hop
      refine Operand.ofShape_immediate.mpr ⟨w, ?_, rfl⟩
      rwa [Token.literal_eq_ok, hv, ← Token.literal_eq_ok]
  | register =>
      obtain rfl := Operand.ofShape_register.mp hop
      exact Operand.ofShape_register.mpr rfl
  | matrix hlabel hrow hcolumn =>
      obtain ⟨r, c, leads, hr, hc, hl, rfl⟩ := Operand.ofShape_matrix.mp hop
      rw [Operand.readRegister_eq_ok, ← hrow] at hr
      rw [Operand.readRegister_eq_ok, ← hcolumn] at hc
      exact Operand.ofShape_matrix.mpr ⟨r, c, _, Operand.readRegister_eq_ok.mpr hr,
        Operand.readRegister_eq_ok.mpr hc, Operand.target_of_follows hfollows hlabel hl, rfl⟩
  | direct hlabel =>
      obtain ⟨leads, hl, rfl⟩ := Operand.ofShape_direct.mp hop
      exact Operand.ofShape_direct.mpr ⟨_, Operand.target_of_follows hfollows hlabel hl, rfl⟩

end Shape.Renamed

/-- A renamed operand is read as what it is the renaming of, because new names cannot be mistaken. -/
theorem Operand.Renamed.shape (hnames : table.Renamable ρ) {t t' : Token}
    (h : Operand.Renamed ρ t.value t'.value) {op} (hop : Operand.ofToken table t = .ok op) :
    t'.value ≠ [] ∧ Shape.Renamed ρ (Shape.ofToken t) (Shape.ofToken t') := by
  have hread : t.value ≠ [] ∧ Operand.ofShape table (Shape.ofToken t) = .ok op := by
    unfold Operand.ofToken at hop
    split at hop
    · cases hop
    · exact ⟨by simpa using ‹¬ t.value.isEmpty = true›, hop⟩
  obtain ⟨hne, hop⟩ := hread
  generalize hv : t.value = text at h
  generalize hv' : t'.value = text' at h
  cases h with
  | immediate =>
      rw [Shape.ofToken_immediate hv, Shape.ofToken_immediate hv']
      exact ⟨List.cons_ne_nil _ _, .immediate (by simp [hv, hv'])⟩
  | register hr =>
      rw [Shape.ofToken_register (hv ▸ hr), Shape.ofToken_register (hv' ▸ hr)]
      exact ⟨hv ▸ hne, .register⟩
  | matrix hlabel hlabel' hrow hcolumn hvalid hrename =>
      have hshape := Shape.ofToken_matrix_of_isValid hv hvalid hlabel hrow hcolumn
      rw [hshape] at hop ⊢
      obtain ⟨r, c, leads, -, -, hl, -⟩ := Operand.ofShape_matrix.mp hop
      obtain ⟨s, hs, -⟩ := Operand.target_eq_ok.mp hl
      have hvalid' := (hnames _ (Option.ne_none_iff_exists'.mpr ⟨s, hs⟩)).1
      rw [Token.value_piece, ← hrename] at hvalid'
      rw [Shape.ofToken_matrix_of_isValid hv' hvalid' hlabel' hrow hcolumn]
      exact ⟨by simp [Shape.matrixText, Text.inBrackets], .matrix hrename rfl rfl⟩
  | direct hvalid hreserved =>
      subst hv
      rw [Shape.ofToken_direct hvalid hreserved] at hop ⊢
      obtain ⟨leads, hl, -⟩ := Operand.ofShape_direct.mp hop
      obtain ⟨s, hs, -⟩ := Operand.target_eq_ok.mp hl
      obtain ⟨hvalid', hreserved'⟩ := hnames _ (Option.ne_none_iff_exists'.mpr ⟨s, hs⟩)
      rw [← hv'] at hvalid' hreserved'
      rw [Shape.ofToken_direct hvalid' hreserved']
      exact ⟨hv' ▸ Name.ne_nil_of_isValid hvalid', .direct hv'⟩

/-! ## Instructions -/

namespace Instruction

theorem words_rename (o : Opcode) (ops : List Operand) : words o (ops.map (Operand.rename ρ)) = words o ops := by
  have hmain : mainWord o (ops.map (Operand.rename ρ)) = mainWord o ops := by
    match ops with
    | [] => rfl
    | [dst] => simp [mainWord]
    | src :: dst :: rest => simp [mainWord]
  simp [words, hmain, List.flatMap_map]

theorem uses_rename (start : Word) (ops : List Operand) :
    uses start (ops.map (Operand.rename ρ)) = (uses start ops).map (ExternalUse.rename ρ) := by
  induction ops generalizing start with
  | nil => rfl
  | cons op ops ih => cases he : op.external? <;> simp [uses, Operand.rename_external?, he, ih, ExternalUse.rename]

/-- Renamed operand by operand, with every operand read as such. -/
def Renamed (ρ : Text → Text) (ts ts' : List Token) : Prop :=
  List.Forall₂ (fun t t' => t'.value ≠ [] ∧ Shape.Renamed ρ (Shape.ofToken t) (Shape.ofToken t')) ts ts'

theorem renamed_of_resolve (hnames : table.Renamable ρ) {args args' : Token}
    (h : List.Forall₂ (Operand.Renamed ρ) args.value.arguments args'.value.arguments)
    {ops} (hr : resolve table (operands args) = .ok ops) : Renamed ρ (operands args) (operands args') := by
  rw [← map_value_operands, ← map_value_operands, List.forall₂_map_left_iff, List.forall₂_map_right_iff] at h
  generalize operands args = ts at h hr
  generalize operands args' = ts' at h
  have hops := resolve_eq_ok.mp hr
  clear hr
  induction h generalizing ops with
  | nil => exact .nil
  | cons ht _ ih =>
      cases hops with
      | cons hop hops => exact .cons (ht.shape hnames hop) (ih hops)

theorem Renamed.size {args args' : Token} (h : Renamed ρ (operands args) (operands args')) (op : Option Opcode) :
    size op args' = size op args := by
  have hmodes : (operands args').map (fun t => (Shape.ofToken t).mode.extraWords) =
      (operands args).map fun t => (Shape.ofToken t).mode.extraWords := by
    generalize operands args = ts at h
    generalize operands args' = ts' at h
    induction h with
    | nil => rfl
    | cons ht _ ih => rw [List.map_cons, List.map_cons, ht.2.mode, ih]
  have hfold : ∀ ts : List Token, (ts.take 2).foldl (fun n t => n + (Shape.ofToken t).mode.extraWords) 1 =
      ((ts.map fun t => (Shape.ofToken t).mode.extraWords).take 2).foldl (· + ·) 1 := by
    intro ts
    rw [← List.map_take, List.foldl_map]
  cases op with
  | none => rfl
  | some o => simp only [Instruction.size, hfold, hmodes]

theorem Renamed.resolve {ts ts' : List Token} (h : Renamed ρ ts ts') (hfollows : table.Follows ρ table') {ops}
    (hr : resolve table ts = .ok ops) : Instruction.resolve table' ts' = .ok (ops.map (Operand.rename ρ)) := by
  have hops := resolve_eq_ok.mp hr
  clear hr
  rw [resolve_eq_ok]
  induction h generalizing ops with
  | nil =>
      cases hops
      exact .nil
  | cons ht _ ih =>
      cases hops with
      | cons hop hops =>
          refine .cons ?_ (ih hops)
          unfold Operand.ofToken at hop ⊢
          rw [if_neg (by simpa using ht.1)]
          split at hop
          · cases hop
          · exact ht.2.ofShape hfollows hop

end Instruction

end

/-! ## Statements -/

namespace Statement

/-- The arguments of a statement with the names in them renamed: the name that a directive exports or
declares, or the labels of operands. -/
inductive ArgsRenamed (ρ : Text → Text) : Action → Text → Text → Prop
  | name {d args} : d.isData = false → ArgsRenamed ρ (.directive d) args (ρ args)
  | data {d args} : d.isData = true → ArgsRenamed ρ (.directive d) args args
  | operands {op args args'} : List.Forall₂ (Operand.Renamed ρ) args.arguments args'.arguments →
      ArgsRenamed ρ (.instruction op) args args'

/-- The same statement but for the names in it, which are renamed. -/
structure Renamed (ρ : Text → Text) (s s' : Statement) : Prop where
  action : s'.action = s.action
  label : s'.label.map (·.value) = s.label.map fun label => ρ label.value
  args : ArgsRenamed ρ s.action s.args.value s'.args.value

namespace Renamed

variable {ρ : Text → Text} {s s' : Statement} (h : Renamed ρ s s')
include h

theorem isData : s'.isData = s.isData := by
  rw [Statement.isData, h.action, Statement.isData]

theorem args_name {d} (ha : s.action = .directive d) (hd : d.isData = false) : s'.args.value = ρ s.args.value := by
  have hargs := h.args
  rw [ha] at hargs
  generalize s'.args.value = args' at hargs
  cases hargs with
  | name _ => rfl
  | data hd' =>
      rw [hd] at hd'
      cases hd'

theorem args_data {d} (ha : s.action = .directive d) (hd : d.isData = true) : s'.args.value = s.args.value := by
  have hargs := h.args
  rw [ha] at hargs
  generalize s'.args.value = args' at hargs
  cases hargs with
  | name hd' =>
      rw [hd] at hd'
      cases hd'
  | data _ => rfl

theorem args_operands {op} (ha : s.action = .instruction op) :
    List.Forall₂ (Operand.Renamed ρ) s.args.value.arguments s'.args.value.arguments := by
  have hargs := h.args
  rw [ha] at hargs
  cases hargs with
  | operands hops => exact hops

theorem dataWords : s'.dataWords = s.dataWords := by
  unfold Statement.dataWords
  rw [h.action]
  cases ha : s.action with
  | instruction op => rfl
  | directive d =>
      cases hd : d.isData with
      | true => exact Data.words_congr d (h.args_data ha hd)
      | false =>
          cases d with
          | entry => rfl
          | external => rfl
          | _ => cases hd

theorem codeSize {table : SymbolTable} (hnames : table.Renamable ρ)
    (hr : ∀ op, s.action = .instruction op → ∃ ops, Instruction.resolve table (Instruction.operands s.args) = .ok ops) :
    s'.codeSize = s.codeSize := by
  unfold Statement.codeSize
  rw [h.action]
  cases ha : s.action with
  | instruction op =>
      obtain ⟨ops, hops⟩ := hr op ha
      exact (Instruction.renamed_of_resolve hnames (h.args_operands ha) hops).size op
  | directive d => rfl

section
variable (hown : s.ownFaults = [])
    (hnames : ∀ name ∈ s.names, Name.isValid (ρ name) = true ∧ Name.isReserved (ρ name) = false)
include hown hnames

theorem external? : s'.external?.map (·.value) = s.external?.map fun token => ρ token.value := by
  by_cases ha : s.action = .directive .external
  · have hname := ((ownFaults_eq_nil s).mp hown).2.2.2 ha
    have he : s.external? = some s.args := external?_eq_some.mpr ⟨ha, hname, rfl⟩
    have hargs := h.args_name ha rfl
    have hname' := hnames s.args.value (by simp [names, he])
    rw [← hargs] at hname'
    rw [he, external?_eq_some.mpr ⟨h.action.trans ha, hname', rfl⟩]
    simp [hargs]
  · simp [Statement.external?, h.action, ha]

theorem names : s'.names = s.names.map ρ := by
  have hexternal := congrArg Option.toList (h.external? hown hnames)
  have hlabel := congrArg Option.toList h.label
  simp only [Option.toList_map] at hexternal hlabel
  rw [Statement.names, Statement.names, hlabel, hexternal, List.map_append, List.map_map, List.map_map]
  rfl

theorem ownFaults : s'.ownFaults = [] := by
  rw [ownFaults_eq_nil] at hown ⊢
  obtain ⟨hnumbers, hstring, hmatrix, hexternal⟩ := hown
  rw [h.action]
  refine ⟨fun ha => ?_, fun ha => ?_, fun ha => ?_, fun ha => ?_⟩
  · rw [h.args_data ha rfl]
    exact hnumbers ha
  · rw [h.args_data ha rfl]
    exact hstring ha
  · rw [h.args_data ha rfl]
    exact hmatrix ha
  · have he : s.external? = some s.args := external?_eq_some.mpr ⟨ha, hexternal ha, rfl⟩
    rw [h.args_name ha rfl]
    exact hnames s.args.value (by simp [Statement.names, he])

end

end Renamed

end Statement

namespace Placed

/-- The renamed statement at the same place. -/
structure Renamed (ρ : Text → Text) (p p' : Placed) : Prop where
  code : p'.code = p.code
  data : p'.data = p.data
  statement : p.statement.Renamed ρ p'.statement

theorem renamed_listFrom {ρ : Text → Text} {ss ss' : List Statement}
    (h : List.Forall₂ (fun s s' => s.Renamed ρ s' ∧ s'.codeSize = s.codeSize) ss ss') (code data : Nat) :
    List.Forall₂ (Renamed ρ) (listFrom code data ss) (listFrom code data ss') := by
  induction h generalizing code data with
  | nil => exact .nil
  | cons hs _ ih =>
      rw [listFrom, listFrom, hs.2, hs.1.dataWords]
      exact .cons ⟨rfl, rfl, hs.1⟩ (ih _ _)

namespace Renamed

variable {ρ : Text → Text} {p p' : Placed} (h : p.Renamed ρ p')
include h

theorem labelSymbol {label label' : Token} (hl : label'.value = ρ label.value) :
    (p'.labelSymbol label').unplaced = ((p.labelSymbol label).rename ρ).unplaced := by
  rw [Placed.labelSymbol, Placed.labelSymbol, h.statement.isData, h.code, h.data, hl]
  split <;> rfl

theorem definitions (hown : p.statement.ownFaults = [])
    (hnames : ∀ name ∈ p.statement.names, Name.isValid (ρ name) = true ∧ Name.isReserved (ρ name) = false) :
    p'.definitions.map Symbol.unplaced = p.definitions.map fun s => (s.rename ρ).unplaced := by
  have htokens : ∀ {f f' : Token → Symbol} {token? token?' : Option Token},
      token?'.map (·.value) = token?.map (fun token => ρ token.value) →
      (∀ {token token'}, token'.value = ρ token.value → (f' token').unplaced = ((f token).rename ρ).unplaced) →
      (token?'.toList.map f').map Symbol.unplaced = (token?.toList.map f).map fun s => (s.rename ρ).unplaced := by
    intro f f' token? token?' hvalues hf
    cases token? with
    | none => simp [Option.map_eq_none_iff.mp hvalues]
    | some token =>
        obtain ⟨token', rfl, hv⟩ := Option.map_eq_some_iff.mp hvalues
        simp [hf hv]
  rw [Placed.definitions, Placed.definitions, List.map_append, List.map_append,
    htokens h.statement.label h.labelSymbol, htokens (h.statement.external? hown hnames)]
  intro token token' hv
  simp [externalSymbol, Symbol.unplaced, Symbol.rename, hv]

/-- A renamed statement is encoded to the same words. -/
theorem encoded {table table' : SymbolTable} (hnames : table.Renamable ρ)
    (hfollows : table.Follows ρ table') {words uses} (he : p.encoded table = .ok (words, uses)) :
    p'.encoded table' = .ok (words, uses.map (ExternalUse.rename ρ)) := by
  cases ha : p.statement.action with
  | directive d =>
      rw [encoded_directive ha] at he
      cases he
      exact encoded_directive (h.statement.action.trans ha) table'
  | instruction op =>
      rw [Placed.encoded, ha] at he
      obtain ⟨o, ops, ho, harity, hr, rfl, rfl⟩ := Instruction.encode_eq_ok.mp he
      have hoperands := Instruction.renamed_of_resolve hnames (h.statement.args_operands ha) hr
      have haddress : p'.address = p.address := congrArg (Memory.base + ·) h.code
      rw [Placed.encoded, h.statement.action, ha, haddress]
      refine Instruction.encode_eq_ok.mpr ⟨o, _, ho, ?_, hoperands.resolve hfollows hr, ?_, ?_⟩
      · rw [← harity]
        exact hoperands.length_eq.symm
      · rw [Instruction.words_rename]
      · rw [Instruction.uses_rename]

end Renamed

end Placed

/-! ## Whole sources -/

section
variable {α β γ : Type} {R : α → β → Prop} {l : List α} {l' : List β} (h : List.Forall₂ R l l')
include h

theorem map_eq_of_forall₂ {f : α → γ} {f' : β → γ} (hf : ∀ a b, R a b → f' b = f a) : l'.map f' = l.map f := by
  induction h with
  | nil => rfl
  | cons hr _ ih => rw [List.map_cons, List.map_cons, hf _ _ hr, ih]

theorem flatMap_eq_of_forall₂ {f : α → List γ} {f' : β → List γ} (hf : ∀ a b, R a b → f' b = f a) :
    l'.flatMap f' = l.flatMap f := by
  rw [List.flatMap_def, map_eq_of_forall₂ h hf, List.flatMap_def]

theorem forall_of_forall₂ {q : β → Prop} (hq : ∀ a b, R a b → q b) : ∀ b ∈ l', q b := by
  induction h with
  | nil => exact List.forall_mem_nil q
  | cons hr _ ih => exact List.forall_mem_cons.mpr ⟨hq _ _ hr, ih⟩

end

namespace Statement

/-- A source without faults and one that renames its symbols without a clash. -/
structure Renaming (ρ : Text → Text) (ss ss' : List Statement) : Prop where
  own : ∀ s ∈ ss, s.ownFaults = []
  distinct : (definedNames ss).Nodup
  placed : ∀ p ∈ Placed.list ss, p.faults (Layout.finalTable ss) = []
  injective : Set.InjOn ρ {name | name ∈ definedNames ss}
  names : ∀ name ∈ definedNames ss, Name.isValid (ρ name) = true ∧ Name.isReserved (ρ name) = false
  statements : List.Forall₂ (Renamed ρ) ss ss'

namespace Renaming

variable {ρ : Text → Text} {ss ss' : List Statement} (h : Renaming ρ ss ss')
include h

theorem renamable : (Layout.finalTable ss).Renamable ρ :=
  fun name hn => h.names name (Layout.find?_finalTable_ne_none.mp hn)

theorem names_statement {s : Statement} (hs : s ∈ ss) :
    ∀ name ∈ s.names, Name.isValid (ρ name) = true ∧ Name.isReserved (ρ name) = false :=
  fun name hn => h.names name (List.mem_flatMap.mpr ⟨s, hs, hn⟩)

theorem codeSizes : List.Forall₂ (fun s s' => s.Renamed ρ s' ∧ s'.codeSize = s.codeSize) ss ss' := by
  have hresolve : ∀ s ∈ ss, ∀ op, s.action = .instruction op →
      ∃ ops, Instruction.resolve (Layout.finalTable ss) (Instruction.operands s.args) = .ok ops := by
    intro s hs op ha
    obtain ⟨p, hp, rfl⟩ := Placed.exists_of_mem hs
    obtain ⟨r, hr⟩ := Placed.encoded_of_faults (h.placed p hp)
    obtain ⟨o, ops, -, -, hops, -⟩ := Placed.encoded_instruction hr ha
    exact ⟨ops, hops⟩
  refine ((List.forall₂_and_left ss ss').mpr ⟨hresolve, h.statements⟩).imp ?_
  rintro s s' ⟨hr, hs⟩
  exact ⟨hs, hs.codeSize h.renamable hr⟩

theorem list :
    List.Forall₂ (fun p p' => p ∈ Placed.list ss ∧ p.Renamed ρ p') (Placed.list ss) (Placed.list ss') :=
  (List.forall₂_and_left _ _).mpr ⟨fun _ hp => hp, Placed.renamed_listFrom h.codeSizes 0 0⟩

theorem codeTotal : codeTotal ss' = codeTotal ss :=
  congrArg List.sum (map_eq_of_forall₂ h.codeSizes fun _ _ hs => hs.2)

theorem dataAll : dataAll ss' = dataAll ss :=
  flatMap_eq_of_forall₂ h.statements fun _ _ hs => hs.dataWords

theorem fits (hf : Fits ss) : Fits ss' := by
  rwa [Fits, h.codeTotal, h.dataAll]

theorem definedNames : definedNames ss' = (definedNames ss).map ρ := by
  rw [Statement.definedNames, Statement.definedNames, List.map_flatMap]
  refine flatMap_eq_of_forall₂ ((List.forall₂_and_left ss ss').mpr ⟨fun s hs => hs, h.statements⟩) ?_
  rintro s s' ⟨hs, hr⟩
  exact hr.names (h.own s hs) (h.names_statement hs)

theorem distinct_renamed : (Statement.definedNames ss').Nodup := by
  rw [h.definedNames]
  exact h.distinct.map_on fun name hn name' hn' he => h.injective hn hn' he

theorem definitions :
    (definitions ss').map Symbol.unplaced = (definitions ss).map fun s => (s.rename ρ).unplaced := by
  rw [Statement.definitions, Statement.definitions, List.map_flatMap, List.map_flatMap]
  refine flatMap_eq_of_forall₂ h.list ?_
  rintro p p' ⟨hp, hr⟩
  have hs := Placed.statement_mem hp
  exact hr.definitions (h.own _ hs) (h.names_statement hs)

/-- The symbols of both sources are the same but for names and places. -/
theorem symbols :
    (Layout.finalTable ss').symbols.map Symbol.unplaced =
      (Layout.finalTable ss).symbols.map fun s => (s.rename ρ).unplaced := by
  have hrenamed : ∀ base size, (fun s => (s.rename ρ).unplaced) ∘ Symbol.relocate base size =
      Symbol.relocate base size ∘ fun s => (s.rename ρ).unplaced := by
    intro base size
    funext s
    cases hk : s.kind <;> simp [Symbol.relocate, Symbol.unplaced, Symbol.rename, hk]
  rw [Layout.symbols_finalTable h.distinct_renamed, Layout.symbols_finalTable h.distinct, h.codeTotal,
    List.map_map, List.map_map, ← Symbol.relocate_comp_unplaced, hrenamed, ← List.map_map, h.definitions, List.map_map]

theorem follows : (Layout.finalTable ss).Follows ρ (Layout.finalTable ss') := by
  have hnodup := Layout.names_finalTable h.distinct ▸ h.distinct
  have hnodup' := Layout.names_finalTable h.distinct_renamed ▸ h.distinct_renamed
  intro name s hs
  obtain ⟨hmem, rfl⟩ := (SymbolTable.find?_iff_of_nodup hnodup).mp hs
  have hmem' : (s.rename ρ).unplaced ∈ (Layout.finalTable ss').symbols.map Symbol.unplaced := by
    rw [h.symbols]
    exact List.mem_map_of_mem hmem
  obtain ⟨s', hs', hsame⟩ := List.mem_map.mp hmem'
  exact ⟨s', (SymbolTable.find?_iff_of_nodup hnodup').mpr ⟨hs', congrArg Symbol.name hsame⟩, hsame⟩

theorem encoded :
    List.Forall₂ (fun p p' => ∃ words uses, p.encoded (Layout.finalTable ss) = .ok (words, uses) ∧
      p'.encoded (Layout.finalTable ss') = .ok (words, uses.map (ExternalUse.rename ρ)))
      (Placed.list ss) (Placed.list ss') := by
  refine h.list.imp ?_
  rintro p p' ⟨hp, hr⟩
  obtain ⟨⟨words, uses⟩, he⟩ := Placed.encoded_of_faults (h.placed p hp)
  exact ⟨words, uses, he, hr.encoded h.renamable h.follows he⟩

theorem code :
    (Placed.list ss').flatMap (Placed.codeWords (Layout.finalTable ss')) =
      (Placed.list ss).flatMap (Placed.codeWords (Layout.finalTable ss)) := by
  refine flatMap_eq_of_forall₂ h.encoded ?_
  rintro p p' ⟨words, uses, he, he'⟩
  rw [Placed.codeWords, he', Placed.codeWords, he]

theorem uses :
    (Placed.list ss').flatMap (Placed.uses (Layout.finalTable ss')) =
      ((Placed.list ss).flatMap (Placed.uses (Layout.finalTable ss))).map (ExternalUse.rename ρ) := by
  rw [List.map_flatMap]
  refine flatMap_eq_of_forall₂ h.encoded ?_
  rintro p p' ⟨words, uses, he, he'⟩
  rw [Placed.uses, he', Placed.uses, he]

theorem own_renamed : ∀ s' ∈ ss', s'.ownFaults = [] := by
  refine forall_of_forall₂ ((List.forall₂_and_left ss ss').mpr ⟨fun s hs => hs, h.statements⟩) ?_
  rintro s s' ⟨hs, hr⟩
  exact hr.ownFaults (h.own s hs) (h.names_statement hs)

/-! ### Exports -/

theorem entryFault? :
    List.Forall₂ (fun s s' => s.Renamed ρ s' ∧ s.entryFault? (Layout.finalTable ss) = none ∧
      s'.entryFault? (Layout.finalTable ss') = none) ss ss' := by
  refine ((List.forall₂_and_left ss ss').mpr ⟨fun s hs => hs, h.statements⟩).imp ?_
  rintro s s' ⟨hs, hr⟩
  obtain ⟨p, hp, rfl⟩ := Placed.exists_of_mem hs
  have hfault := Placed.entryFault?_of_faults (h.placed p hp)
  refine ⟨hr, hfault, ?_⟩
  by_cases ha : p.statement.action = .directive .entry
  · rw [entryFault?_eq_none ha] at hfault
    rw [entryFault?_eq_none (hr.action.trans ha), hr.args_name ha rfl]
    obtain ⟨-, symbol, hs, hk⟩ := hfault
    obtain ⟨symbol', hs', hsame⟩ := h.follows _ symbol hs
    have hname := h.renamable _ (Option.ne_none_iff_exists'.mpr ⟨symbol, hs⟩)
    have hkind := congrArg Symbol.kind hsame
    exact ⟨Name.ne_nil_of_isValid hname.1, symbol', hs', fun he => hk (hkind.symm.trans he)⟩
  · simp [Statement.entryFault?, hr.action, ha]

theorem placed_renamed : ∀ p' ∈ Placed.list ss', p'.faults (Layout.finalTable ss') = [] := by
  have hencoded : ∀ p' ∈ Placed.list ss', ∃ r, p'.encoded (Layout.finalTable ss') = .ok r := by
    refine forall_of_forall₂ h.encoded ?_
    rintro p p' ⟨words, uses, -, he⟩
    exact ⟨_, he⟩
  have hentries : ∀ s' ∈ ss', s'.entryFault? (Layout.finalTable ss') = none :=
    forall_of_forall₂ h.entryFault? fun s s' hs => hs.2.2
  intro p' hp
  obtain ⟨r, hr⟩ := hencoded p' hp
  rw [Placed.faults, hr, hentries _ (Placed.statement_mem hp)]
  rfl

theorem exports :
    exports (Layout.finalTable ss') ss' = (exports (Layout.finalTable ss) ss).map ρ := by
  have hexported : ss'.map (exported? (Layout.finalTable ss')) =
      ss.map fun s => (s.exported? (Layout.finalTable ss)).map ρ := by
    refine map_eq_of_forall₂ h.entryFault? ?_
    rintro s s' ⟨hr, hfault, hfault'⟩
    by_cases ha : s.action = .directive .entry
    · simp [exported?, hr.action, ha, hfault, hfault', hr.args_name ha rfl]
    · simp [exported?, hr.action, ha]
  have hfilter : ∀ (table : SymbolTable) (ss : List Statement),
      Statement.exports table ss = (ss.map (exported? table)).filterMap id := by
    intro table ss
    rw [List.filterMap_map]
    rfl
  rw [hfilter, hexported, Statement.exports, List.map_filterMap, List.filterMap_map]
  rfl

theorem marked :
    ((Layout.finalTable ss').mark (Statement.exports (Layout.finalTable ss') ss')).unplaced =
      (((Layout.finalTable ss).mark (Statement.exports (Layout.finalTable ss) ss)).rename ρ).unplaced := by
  have hsubset : ∀ name ∈ Statement.exports (Layout.finalTable ss) ss, name ∈ Statement.definedNames ss :=
    fun name hn => Layout.find?_finalTable_ne_none.mp (find?_of_mem_exports hn)
  rw [h.exports]
  generalize Statement.exports (Layout.finalTable ss) ss = names at hsubset ⊢
  have hmark : ∀ s ∈ (Layout.finalTable ss).symbols,
      (s.rename ρ).unplaced.mark (names.map ρ) = ((s.mark names).rename ρ).unplaced := by
    intro s hs
    have hname : s.name ∈ Statement.definedNames ss := by
      rw [← Layout.names_finalTable h.distinct]
      exact List.mem_map_of_mem hs
    have hmem : ρ s.name ∈ names.map ρ ↔ s.name ∈ names := by
      rw [List.mem_map]
      constructor
      · rintro ⟨name, hn, he⟩
        rwa [← h.injective (hsubset name hn) hname he]
      · exact fun hn => ⟨s.name, hn, rfl⟩
    simp [Symbol.mark, Symbol.rename, Symbol.unplaced, hmem]
  rw [← SymbolTable.mark_unplaced]
  simp only [SymbolTable.mark, SymbolTable.unplaced, SymbolTable.rename, h.symbols, List.map_map]
  congr 1
  exact List.map_congr_left hmark

end Renaming

end Statement

namespace Assembly

/-- Label names do not leak into the image. If a source is assembled without errors, then so is every
source that is the same but for its symbols, which are renamed without a clash to names that are not
reserved. Instructions and data are identical, and symbols and uses of external names differ only by
the renaming. -/
theorem renamed_assembles (lines lines' : List Line) (ρ : Text → Text) (h : (ofLines lines).errors = [])
    (hinjective : Set.InjOn ρ {name | ∃ s ∈ (ofLines lines).program.symbols.symbols, s.name = name})
    (hnames : ∀ s ∈ (ofLines lines).program.symbols.symbols,
      Name.isValid (ρ s.name) = true ∧ Name.isReserved (ρ s.name) = false)
    (hread : ∀ line ∈ lines', ∃ parsed, line.parse = .ok parsed)
    (hstatements : List.Forall₂ (Statement.Renamed ρ) (Statement.ofLines lines) (Statement.ofLines lines')) :
    (ofLines lines').errors = [] ∧
      (ofLines lines').program.instructions = (ofLines lines).program.instructions ∧
      (ofLines lines').program.data = (ofLines lines).program.data ∧
      (ofLines lines').program.symbols.unplaced = ((ofLines lines).program.symbols.rename ρ).unplaced ∧
      (ofLines lines').program.externals = (ofLines lines).program.externals.map (ExternalUse.rename ρ) := by
  obtain ⟨-, hown, hdistinct, hplaced, hfits⟩ := (errors_ofLines_eq_nil lines).mp h
  have hdefined : ∀ name, name ∈ Statement.definedNames (Statement.ofLines lines) ↔
      ∃ s ∈ (ofLines lines).program.symbols.symbols, s.name = name := by
    intro name
    rw [← map_name_symbols h, List.mem_map]
  have hrenaming : Statement.Renaming ρ (Statement.ofLines lines) (Statement.ofLines lines') := {
    own := hown
    distinct := hdistinct
    placed := hplaced
    injective := by simpa only [hdefined] using hinjective
    names := by
      intro name hn
      obtain ⟨s, hs, rfl⟩ := (hdefined name).mp hn
      exact hnames s hs
    statements := hstatements }
  have hfits' := hrenaming.fits hfits
  refine ⟨(errors_ofLines_eq_nil lines').mpr ⟨hread, hrenaming.own_renamed, hrenaming.distinct_renamed,
    hrenaming.placed_renamed, hfits'⟩, ?_⟩
  rw [program_ofLines hfits, program_ofLines hfits']
  exact ⟨hrenaming.code, hrenaming.dataAll, hrenaming.marked, hrenaming.uses⟩

/-- A name defined elsewhere and one defined here, in all places where a source can name them. -/
def namedSource : List Line :=
  [⟨1, Text.of ".extern X"⟩, ⟨2, Text.of ".entry M"⟩, ⟨3, Text.of "mov M[r1][r2], X"⟩,
    ⟨4, Text.of "M: .mat [1][2] 5, 6"⟩]

/-- The same source with both names swapped. -/
def swappedSource : List Line :=
  [⟨1, Text.of ".extern M"⟩, ⟨2, Text.of ".entry X"⟩, ⟨3, Text.of "mov X [r1][r2], M"⟩,
    ⟨4, Text.of "X: .mat [1][2] 5, 6"⟩]

theorem swappedSource_assembles :
    (ofLines namedSource).errors = [] ∧ (ofLines swappedSource).errors = [] ∧
      (ofLines swappedSource).program.instructions = (ofLines namedSource).program.instructions ∧
      (ofLines swappedSource).program.externals = [⟨Text.of "M", 103⟩] := by
  have herrors : (ofLines namedSource).errors = [] := by decide +kernel
  have hstatements : Statement.ofLines namedSource =
      [⟨1, none, .directive .external, ⟨⟨1, 2, 6⟩, Text.of "extern"⟩, ⟨⟨1, 9, 1⟩, Text.of "X"⟩⟩,
        ⟨2, none, .directive .entry, ⟨⟨2, 2, 5⟩, Text.of "entry"⟩, ⟨⟨2, 8, 1⟩, Text.of "M"⟩⟩,
        ⟨3, none, .instruction (some .mov), ⟨⟨3, 1, 3⟩, Text.of "mov"⟩, ⟨⟨3, 5, 12⟩, Text.of "M[r1][r2], X"⟩⟩,
        ⟨4, some ⟨⟨4, 1, 1⟩, Text.of "M"⟩, .directive .mat, ⟨⟨4, 5, 3⟩, Text.of "mat"⟩,
          ⟨⟨4, 9, 11⟩, Text.of "[1][2] 5, 6"⟩⟩] := by decide +kernel
  have hstatements' : Statement.ofLines swappedSource =
      [⟨1, none, .directive .external, ⟨⟨1, 2, 6⟩, Text.of "extern"⟩, ⟨⟨1, 9, 1⟩, Text.of "M"⟩⟩,
        ⟨2, none, .directive .entry, ⟨⟨2, 2, 5⟩, Text.of "entry"⟩, ⟨⟨2, 8, 1⟩, Text.of "X"⟩⟩,
        ⟨3, none, .instruction (some .mov), ⟨⟨3, 1, 3⟩, Text.of "mov"⟩, ⟨⟨3, 5, 13⟩, Text.of "X [r1][r2], M"⟩⟩,
        ⟨4, some ⟨⟨4, 1, 1⟩, Text.of "X"⟩, .directive .mat, ⟨⟨4, 5, 3⟩, Text.of "mat"⟩,
          ⟨⟨4, 9, 11⟩, Text.of "[1][2] 5, 6"⟩⟩] := by decide +kernel
  have harguments : (Text.of "M[r1][r2], X").arguments =
      [Shape.matrixText (Text.of "M") (Text.of "r1") (Text.of "r2"), Text.of "X"] := by decide +kernel
  have harguments' : (Text.of "X [r1][r2], M").arguments =
      [Shape.matrixText (Text.of "X ") (Text.of "r1") (Text.of "r2"), Text.of "M"] := by decide +kernel
  have hoperands : List.Forall₂ (Operand.Renamed (Equiv.swap (Text.of "X") (Text.of "M")))
      (Text.of "M[r1][r2], X").arguments (Text.of "X [r1][r2], M").arguments := by
    rw [harguments, harguments']
    refine .cons (.matrix ?_ ?_ ?_ ?_ ?_ ?_) (.cons (.direct ?_ ?_) .nil)
    · exact Text.noBrackets_of_not_mem (by decide) (by decide)
    · exact Text.noBrackets_of_not_mem (by decide) (by decide)
    · exact Text.noBrackets_of_not_mem (by decide) (by decide)
    · exact Text.noBrackets_of_not_mem (by decide) (by decide)
    all_goals decide +kernel
  have hrenamed : List.Forall₂ (Statement.Renamed (Equiv.swap (Text.of "X") (Text.of "M")))
      (Statement.ofLines namedSource) (Statement.ofLines swappedSource) := by
    rw [hstatements, hstatements']
    exact .cons ⟨rfl, rfl, .name rfl⟩ (.cons ⟨rfl, rfl, .name rfl⟩ (.cons ⟨rfl, rfl, .operands hoperands⟩
      (.cons ⟨rfl, rfl, .data rfl⟩ .nil)))
  have hread : ∀ line ∈ swappedSource, ∃ parsed, line.parse = .ok parsed := by
    simp only [swappedSource, List.forall_mem_cons]
    exact ⟨⟨_, rfl⟩, ⟨_, rfl⟩, ⟨_, rfl⟩, ⟨_, rfl⟩, List.forall_mem_nil _⟩
  obtain ⟨herrors', hcode, -, -, huses⟩ := renamed_assembles namedSource swappedSource
    (Equiv.swap (Text.of "X") (Text.of "M")) herrors (Equiv.injective _).injOn (by decide +kernel)
    hread hrenamed
  refine ⟨herrors, herrors', hcode, ?_⟩
  rw [huses]
  decide +kernel

end Assembly

end TwoPass
