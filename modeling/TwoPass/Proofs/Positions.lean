import TwoPass.Proofs.BothPasses
import TwoPass.Proofs.Parsing

/-!
What a source says does not depend on where it stands. Everything that carries a place has a form
without one, and both passes give the same unplaced results for sources whose lines are read the same
but for places.
-/
namespace TwoPass

def Span.nowhere : Span := ⟨0, 0, 0⟩

def Diagnostic.unplaced : Diagnostic → Diagnostic
  | .ignoredLabel _ l => .ignoredLabel .nowhere l
  | .invalidLabel _ l => .invalidLabel .nowhere l
  | .reservedLabel _ l => .reservedLabel .nowhere l
  | .redeclaredLabel _ l => .redeclaredLabel .nowhere l
  | .unknownLabel _ l => .unknownLabel .nowhere l
  | .externalEntry _ l => .externalEntry .nowhere l
  | .missingDirective _ => .missingDirective .nowhere
  | .unknownDirective _ n => .unknownDirective .nowhere n
  | .unknownInstruction _ n => .unknownInstruction .nowhere n
  | .missingOperand _ => .missingOperand .nowhere
  | .invalidString _ => .invalidString .nowhere
  | .invalidMatrix _ => .invalidMatrix .nowhere
  | .invalidRegister _ => .invalidRegister .nowhere
  | .invalidLiteral _ => .invalidLiteral .nowhere
  | .oversizedLiteral _ want found => .oversizedLiteral .nowhere want found
  | .argumentCount _ want found => .argumentCount .nowhere want found
  | .excessInitializer _ limit found => .excessInitializer .nowhere limit found
  | .wordCountMismatch _ want found => .wordCountMismatch .nowhere want found
  | .tooManyMacros _ limit => .tooManyMacros .nowhere limit
  | .macroHeader _ reason => .macroHeader .nowhere reason
  | .missingEndm _ name => .missingEndm .nowhere name
  | .oversizedImage limit found => .oversizedImage limit found
  | .relocation step reason => .relocation step reason
  | .lineTooLong => .lineTooLong
  | .note text => .note text
  | .context text cause => .context text cause

@[simp] theorem Diagnostic.unplaced_unplaced (d : Diagnostic) : d.unplaced.unplaced = d.unplaced := by
  cases d <;> rfl

@[simp] theorem Diagnostic.unplaced_comp : Diagnostic.unplaced ∘ Diagnostic.unplaced = Diagnostic.unplaced :=
  funext unplaced_unplaced

/-- Two steps that agree up to a change of their faults both succeed with one result, or both fail. -/
theorem mapError_eq {ε ε' α : Type} {f : ε → ε'} {x y : Except ε α} (h : x.mapError f = y.mapError f) :
    (∃ a, x = .ok a ∧ y = .ok a) ∨ ∃ d d', x = .error d ∧ y = .error d' ∧ f d = f d' := by
  cases x with
  | error d =>
      cases y with
      | error d' => exact Or.inr ⟨d, d', rfl, rfl, Except.error.inj h⟩
      | ok a => cases h
  | ok a =>
      cases y with
      | error d' => cases h
      | ok a' => exact Or.inl ⟨a, rfl, congrArg Except.ok (Except.ok.inj h).symm⟩

theorem bind_unplaced {α β : Type} {x x' : Except Diagnostic α} {f f' : α → Except Diagnostic β}
    (hx : x.mapError Diagnostic.unplaced = x'.mapError Diagnostic.unplaced)
    (hf : ∀ a, (f a).mapError Diagnostic.unplaced = (f' a).mapError Diagnostic.unplaced) :
    (x >>= f).mapError Diagnostic.unplaced = (x' >>= f').mapError Diagnostic.unplaced := by
  rcases mapError_eq hx with ⟨a, rfl, rfl⟩ | ⟨d, d', rfl, rfl, hd⟩
  · exact hf a
  · exact congrArg Except.error hd

/-! ## Tokens -/

namespace Token

def unplaced (t : Token) : Token :=
  ⟨.nowhere, t.value⟩

@[simp] theorem value_unplaced (t : Token) : t.unplaced.value = t.value := rfl

@[simp] theorem unplaced_unplaced (t : Token) : t.unplaced.unplaced = t.unplaced := rfl

theorem unplaced_congr {t t' : Token} (h : t.value = t'.value) : t.unplaced = t'.unplaced := by
  rw [unplaced, unplaced, h]

theorem map_unplaced_congr {ts ts' : List Token} (h : ts.map (·.value) = ts'.map (·.value)) :
    ts.map unplaced = ts'.map unplaced := by
  have hmap : ∀ ts : List Token, ts.map unplaced = (ts.map (·.value)).map (Token.mk .nowhere) :=
    fun ts => (List.map_map).symm
  rw [hmap, h, ← hmap]

theorem split_unplaced (t : Token) (sep : UInt8) :
    (t.unplaced.split sep).map unplaced = (t.split sep).map unplaced := by
  apply map_unplaced_congr
  rw [map_value_split, map_value_split, value_unplaced]

theorem arguments_congr {t t' : Token} (h : t.value = t'.value) :
    (if t.value.isEmpty then [] else t.split ','.toUInt8).map unplaced =
      (if t'.value.isEmpty then [] else t'.split ','.toUInt8).map unplaced := by
  apply map_unplaced_congr
  rw [Text.map_value_arguments, Text.map_value_arguments, h]

theorem headRest_congr {t t' : Token} (h : t.value = t'.value) :
    t.headRest.1.value = t'.headRest.1.value ∧ t.headRest.2.value = t'.headRest.2.value := by
  unfold headRest
  rw [h]
  split
  · simp [h]
  · exact ⟨h, by simp [h]⟩

theorem literal_unplaced (t : Token) :
    t.unplaced.literal.mapError Diagnostic.unplaced = t.literal.mapError Diagnostic.unplaced := by
  unfold literal
  rw [value_unplaced]
  split
  · rfl
  · split <;> rfl

end Token

/-! ## Data -/

namespace Data

def Contents.unplaced (c : Contents) : Contents :=
  { c with faults := c.faults.map .unplaced }

theorem literals_unplaced (items : List Token) :
    (literals (items.map .unplaced)).unplaced = (literals items).unplaced := by
  have hword : ∀ t : Token, t.unplaced.literal.toOption = t.literal.toOption := by
    intro t
    rcases mapError_eq t.literal_unplaced with ⟨w, hu, ht⟩ | ⟨d, d', hu, ht, -⟩ <;>
      simp only [hu, ht, Except.toOption]
  have hfault : ∀ t : Token, (faultOf t.unplaced.literal).map Diagnostic.unplaced =
      (faultOf t.literal).map .unplaced := by
    intro t
    rcases mapError_eq t.literal_unplaced with ⟨w, hu, ht⟩ | ⟨d, d', hu, ht, hd⟩
    · rw [hu, ht]
    · simp only [hu, ht, faultOf, Option.map_some, hd]
  simp [literals, Contents.unplaced, Function.comp_def, hword, hfault, List.filterMap_map, List.map_filterMap]

theorem literals_congr {items items' : List Token} (h : items.map Token.unplaced = items'.map .unplaced) :
    (literals items).unplaced = (literals items').unplaced := by
  rw [← literals_unplaced, h, literals_unplaced]

theorem cells_congr (count : Nat) {items items' : List Token}
    (h : items.map Token.unplaced = items'.map .unplaced) :
    (cells count items).unplaced = (cells count items').unplaced := by
  have hlength : items.length = items'.length := by simpa using congrArg List.length h
  have hfilled : (literals (items.take count)).unplaced = (literals (items'.take count)).unplaced := by
    apply literals_congr
    rw [List.map_take, h, List.map_take]
  have hrest : (items.drop count).map Token.unplaced = (items'.drop count).map .unplaced := by
    rw [List.map_drop, h, List.map_drop]
  obtain ⟨hwords, hfaults⟩ := Contents.mk.inj hfilled
  simp only [cells, Contents.unplaced, List.map_append] at hfaults ⊢
  rw [hwords, hfaults, hlength]
  cases hd : items.drop count <;> cases hd' : items'.drop count <;> simp_all [Diagnostic.unplaced]

theorem numbers_unplaced (args : Token) : (numbers args.unplaced).unplaced = (numbers args).unplaced := by
  unfold numbers
  rw [Token.value_unplaced]
  split
  · rfl
  · exact literals_congr (args.split_unplaced _)

theorem string_unplaced (args : Token) : (string args.unplaced).unplaced = (string args).unplaced := by
  unfold string
  rw [Token.value_unplaced]
  split <;> rfl

theorem matrix_unplaced (args : Token) : (matrix args.unplaced).unplaced = (matrix args).unplaced := by
  unfold matrix
  rw [Token.value_unplaced]
  split
  · rfl
  · dsimp only
    split
    · split
      · exact cells_congr _ (Token.arguments_congr rfl)
      · rfl
    · rfl

/-- The data that a directive places shows in the text of its arguments alone. -/
theorem contents_unplaced (d : Directive) (args : Token) :
    (contents d args.unplaced).unplaced = (contents d args).unplaced := by
  cases d with
  | data => exact numbers_unplaced args
  | string => exact string_unplaced args
  | mat => exact matrix_unplaced args
  | entry => rfl
  | external => rfl

/-- Where it stands does not show in the words that a directive places. -/
theorem words_congr {args args' : Token} (d : Directive) (h : args'.value = args.value) :
    (contents d args').words = (contents d args).words := by
  have hwords : ∀ args : Token, (contents d args.unplaced).words = (contents d args).words := by
    intro args
    have hcontents := congrArg Contents.words (contents_unplaced d args)
    exact hcontents
  rw [← hwords args', Token.unplaced_congr h, hwords]

end Data

/-! ## Symbols -/

def Symbol.unplaced (s : Symbol) : Symbol :=
  { s with position := .nowhere }

@[simp] theorem Symbol.unplaced_name (s : Symbol) : s.unplaced.name = s.name := rfl

theorem Symbol.relocate_comp_unplaced (base codeSize : Word) :
    relocate base codeSize ∘ unplaced = unplaced ∘ relocate base codeSize := by
  funext s
  cases hk : s.kind <;> simp [relocate, unplaced, hk]

namespace SymbolTable

def unplaced (table : SymbolTable) : SymbolTable :=
  { table with symbols := table.symbols.map Symbol.unplaced }

@[simp] theorem unplaced_unplaced (table : SymbolTable) : table.unplaced.unplaced = table.unplaced := by
  simp only [unplaced, List.map_map]
  rfl

theorem find?_unplaced (table : SymbolTable) (name : Text) :
    table.unplaced.find? name = (table.find? name).map Symbol.unplaced :=
  find?_map Symbol.unplaced_name table.symbols name

theorem declare_unplaced (table : SymbolTable) (s : Symbol) :
    table.unplaced.declare s.unplaced = (table.declare s).unplaced := by
  by_cases h : table.find? s.name = none
  · have hu : table.unplaced.find? s.unplaced.name = none := by
      rw [find?_unplaced]
      exact Option.map_eq_none_iff.mpr h
    rw [declare_of_free h, declare_of_free hu]
    simp [unplaced]
  · have hu : table.unplaced.find? s.unplaced.name ≠ none := by
      rw [find?_unplaced]
      exact fun hn => h (Option.map_eq_none_iff.mp hn)
    rw [declare_of_taken h, declare_of_taken hu]

theorem declareAll_unplaced (table : SymbolTable) (symbols : List Symbol) :
    table.unplaced.declareAll (symbols.map Symbol.unplaced) = (table.declareAll symbols).unplaced := by
  induction symbols generalizing table with
  | nil => rfl
  | cons s symbols ih =>
      have hstep : table.unplaced.declareAll ((s :: symbols).map Symbol.unplaced) =
          (table.unplaced.declare s.unplaced).declareAll (symbols.map Symbol.unplaced) := rfl
      rw [hstep, declare_unplaced, ih]
      rfl

theorem clashes_unplaced (table : SymbolTable) (symbols : List Symbol) :
    table.unplaced.clashes (symbols.map Symbol.unplaced) = (table.clashes symbols).map .unplaced := by
  induction symbols generalizing table with
  | nil => rfl
  | cons s symbols ih =>
      have htaken : (table.unplaced.find? s.unplaced.name).isSome = (table.find? s.name).isSome := by
        rw [find?_unplaced, Option.isSome_map]
        rfl
      rw [List.map_cons, clashes, clashes, declare_unplaced, ih, List.map_append, htaken]
      split <;> rfl

theorem relocate_unplaced (base codeSize : Word) (table : SymbolTable) :
    table.unplaced.relocate base codeSize = (table.relocate base codeSize).unplaced := by
  simp only [relocate, unplaced, List.map_map, Symbol.relocate_comp_unplaced]

theorem mark_unplaced (names : List Text) (table : SymbolTable) :
    table.unplaced.mark names = (table.mark names).unplaced := by
  simp only [mark, unplaced, List.map_map]
  rfl

end SymbolTable

/-! ## Instructions -/

def Shape.unplaced : Shape → Shape
  | .immediate literal => .immediate literal.unplaced
  | .register r => .register r
  | .matrix label row column => .matrix label.unplaced row.unplaced column.unplaced
  | .direct label => .direct label.unplaced

namespace Shape

theorem mode_unplaced (shape : Shape) : shape.unplaced.mode = shape.mode := by
  cases shape <;> rfl

theorem matrix?_unplaced (t : Token) : (matrix? t.unplaced).map unplaced = (matrix? t).map unplaced := by
  unfold matrix?
  rw [Token.value_unplaced]
  dsimp only
  split
  · rfl
  · split
    · rfl
    · split <;> rfl

theorem ofToken_unplaced (t : Token) : (ofToken t.unplaced).unplaced = (ofToken t).unplaced := by
  have hmatrix := matrix?_unplaced t
  unfold ofToken
  rw [Token.value_unplaced]
  split
  · rfl
  · split
    · rfl
    · cases hu : matrix? t.unplaced <;> cases ht : matrix? t <;> simp_all [unplaced]

end Shape

namespace Operand

theorem target_unplaced (table : SymbolTable) (label : Token) :
    (target table label.unplaced).mapError Diagnostic.unplaced =
      (target table label).mapError Diagnostic.unplaced := by
  unfold target
  rw [Token.value_unplaced]
  split <;> rfl

theorem readRegister_unplaced (t : Token) :
    (readRegister t.unplaced).mapError Diagnostic.unplaced = (readRegister t).mapError Diagnostic.unplaced := by
  unfold readRegister
  rw [Token.value_unplaced]
  split <;> rfl

theorem ofShape_unplaced (table : SymbolTable) (shape : Shape) :
    (ofShape table shape.unplaced).mapError Diagnostic.unplaced =
      (ofShape table shape).mapError Diagnostic.unplaced := by
  cases shape with
  | immediate literal => exact bind_unplaced literal.literal_unplaced fun _ => rfl
  | register r => rfl
  | matrix label row column =>
      refine bind_unplaced (readRegister_unplaced row) fun _ => ?_
      refine bind_unplaced (readRegister_unplaced column) fun _ => ?_
      exact bind_unplaced (target_unplaced table label) fun _ => rfl
  | direct label => exact bind_unplaced (target_unplaced table label) fun _ => rfl

theorem ofToken_unplaced (table : SymbolTable) (t : Token) :
    (ofToken table t.unplaced).mapError Diagnostic.unplaced =
      (ofToken table t).mapError Diagnostic.unplaced := by
  unfold ofToken
  rw [Token.value_unplaced]
  split
  · rfl
  · rw [← ofShape_unplaced, Shape.ofToken_unplaced, ofShape_unplaced]

end Operand

namespace Instruction

theorem operands_unplaced (args : Token) :
    (operands args.unplaced).map Token.unplaced = (operands args).map .unplaced :=
  Token.arguments_congr rfl

theorem resolve_unplaced (table : SymbolTable) (ts : List Token) :
    (resolve table (ts.map .unplaced)).mapError (List.map Diagnostic.unplaced) =
      (resolve table ts).mapError (List.map Diagnostic.unplaced) := by
  induction ts with
  | nil => rfl
  | cons t ts ih =>
      simp only [List.map_cons, resolve]
      rcases mapError_eq (Operand.ofToken_unplaced table t) with ⟨op, hu, hp⟩ | ⟨d, d', hu, hp, hd⟩ <;>
        rcases mapError_eq ih with ⟨ops, hus, hps⟩ | ⟨ds, ds', hus, hps, hds⟩ <;>
        simp only [Except.mapError, List.map_cons, List.map_nil, *]

theorem size_unplaced (op : Option Opcode) (args : Token) : size op args.unplaced = size op args := by
  have hmode : ∀ ts : List Token, ts.foldl (fun n t => n + (Shape.ofToken t).mode.extraWords) 1 =
      (ts.map Token.unplaced).foldl (fun n t => n + (Shape.ofToken t).mode.extraWords) 1 := by
    intro ts
    rw [List.foldl_map]
    congr 1
    funext n t
    rw [← Shape.mode_unplaced, ← Shape.mode_unplaced (Shape.ofToken t.unplaced), Shape.ofToken_unplaced]
  unfold size
  cases op with
  | none => rfl
  | some op =>
      dsimp only
      rw [hmode, List.map_take, operands_unplaced, ← List.map_take, ← hmode]

theorem encode_unplaced (table : SymbolTable) (pc : Word) (op : Option Opcode) (keyword args : Token) :
    (encode table pc op keyword.unplaced args.unplaced).mapError (List.map Diagnostic.unplaced) =
      (encode table pc op keyword args).mapError (List.map Diagnostic.unplaced) := by
  have hlength : (operands args.unplaced).length = (operands args).length := by
    simpa using congrArg List.length (operands_unplaced args)
  have hresolve : (resolve table (operands args.unplaced)).mapError (List.map Diagnostic.unplaced) =
      (resolve table (operands args)).mapError (List.map Diagnostic.unplaced) := by
    rw [← resolve_unplaced, operands_unplaced, resolve_unplaced]
  unfold encode
  cases op with
  | none => rfl
  | some op =>
      dsimp only
      rw [hlength]
      split
      · rcases mapError_eq hresolve with ⟨ops, hu, hp⟩ | ⟨ds, ds', hu, hp, hds⟩
        · rw [hu, hp]
        · rw [hu, hp]
          exact congrArg Except.error hds
      · rfl

end Instruction

/-! ## Statements -/

def Statement.unplaced (s : Statement) : Statement :=
  { line := 0
    label := s.label.map .unplaced
    action := s.action
    keyword := s.keyword.unplaced
    args := s.args.unplaced }

namespace Statement

@[simp] theorem unplaced_unplaced (s : Statement) : s.unplaced.unplaced = s.unplaced := by
  simp [unplaced, Function.comp_def]

@[simp] theorem unplaced_comp : unplaced ∘ unplaced = unplaced :=
  funext unplaced_unplaced

@[simp] theorem codeSize_unplaced (s : Statement) : s.unplaced.codeSize = s.codeSize := by
  obtain ⟨line, label, action, keyword, args⟩ := s
  cases action with
  | instruction op => exact Instruction.size_unplaced op args
  | directive d => rfl

@[simp] theorem dataWords_unplaced (s : Statement) : s.unplaced.dataWords = s.dataWords := by
  obtain ⟨line, label, action, keyword, args⟩ := s
  cases action with
  | instruction op => rfl
  | directive d => exact Data.words_congr d rfl

theorem external?_unplaced (s : Statement) : s.unplaced.external? = s.external?.map .unplaced := by
  rw [external?, external?, Option.map_if]
  rfl

theorem checkLabel_unplaced (label : Token) :
    (checkLabel label.unplaced).mapError Diagnostic.unplaced =
      (checkLabel label).mapError Diagnostic.unplaced := by
  unfold checkLabel
  rw [Token.value_unplaced]
  split
  · rfl
  · split <;> rfl

theorem ownFaults_unplaced (s : Statement) :
    s.unplaced.ownFaults.map Diagnostic.unplaced = s.ownFaults.map .unplaced := by
  obtain ⟨line, label, action, keyword, args⟩ := s
  cases action with
  | instruction op => rfl
  | directive d =>
      have hdata := congrArg Data.Contents.faults (Data.contents_unplaced d args)
      cases d with
      | external =>
          simp only [ownFaults, unplaced, Token.value_unplaced]
          by_cases he : args.value.isEmpty = true
          · simp [he, Diagnostic.unplaced]
          · rcases mapError_eq (checkLabel_unplaced args) with ⟨u, hu, hp⟩ | ⟨d, d', hu, hp, hd⟩
            · simp [he, hu, hp]
            · simp [he, hu, hp, hd]
      | _ => exact hdata

theorem entryFault?_unplaced (table : SymbolTable) (s : Statement) :
    (s.unplaced.entryFault? table.unplaced).map Diagnostic.unplaced =
      (s.entryFault? table).map .unplaced := by
  have hkind : ∀ symbol : Symbol, symbol.unplaced.kind = symbol.kind := fun _ => rfl
  by_cases ha : s.action = .directive .entry
  · by_cases he : s.args.value = []
    · simp [entryFault?, unplaced, ha, he, Diagnostic.unplaced]
    · cases hf : table.find? s.args.value with
      | none => simp [entryFault?, unplaced, ha, he, hf, SymbolTable.find?_unplaced, Diagnostic.unplaced]
      | some symbol =>
          by_cases hk : symbol.kind = .external <;>
            simp [entryFault?, unplaced, ha, he, hf, hk, hkind, SymbolTable.find?_unplaced, Diagnostic.unplaced]
  · simp [entryFault?, unplaced, ha]

theorem codeTotal_unplaced (ss : List Statement) : codeTotal (ss.map unplaced) = codeTotal ss := by
  simp [codeTotal, Function.comp_def]

theorem dataAll_unplaced (ss : List Statement) : dataAll (ss.map unplaced) = dataAll ss := by
  simp [dataAll, List.flatMap_map]

theorem exports_unplaced (table : SymbolTable) (ss : List Statement) :
    exports table.unplaced (ss.map unplaced) = exports table ss := by
  have hexported : ∀ s : Statement, s.unplaced.exported? table.unplaced = s.exported? table := by
    intro s
    have hfault : s.unplaced.entryFault? table.unplaced = none ↔ s.entryFault? table = none := by
      rw [← Option.map_eq_none_iff, entryFault?_unplaced, Option.map_eq_none_iff]
    simp only [exported?, hfault]
    rfl
  simp [exports, List.filterMap_map, hexported]

end Statement

namespace Placed

def unplaced (p : Placed) : Placed :=
  { p with statement := p.statement.unplaced }

theorem listFrom_unplaced (code data : Nat) (ss : List Statement) :
    listFrom code data (ss.map .unplaced) = (listFrom code data ss).map unplaced := by
  induction ss generalizing code data with
  | nil => rfl
  | cons s ss ih =>
      rw [List.map_cons, listFrom, Statement.codeSize_unplaced, Statement.dataWords_unplaced, ih]
      rfl

theorem definitions_unplaced (p : Placed) : p.unplaced.definitions = p.definitions.map .unplaced := by
  have hlabel : ∀ label : Token, p.unplaced.labelSymbol label.unplaced = (p.labelSymbol label).unplaced := by
    intro label
    have hdata : p.unplaced.statement.isData = p.statement.isData := rfl
    unfold labelSymbol
    rw [hdata]
    split <;> rfl
  have hexternal : ∀ token : Token, externalSymbol token.unplaced = (externalSymbol token).unplaced :=
    fun token => rfl
  have hname : p.unplaced.statement.external? = p.statement.external?.map .unplaced :=
    p.statement.external?_unplaced
  have hown : p.unplaced.statement.label = p.statement.label.map .unplaced := rfl
  rw [definitions, definitions, hname, hown, List.map_append]
  cases p.statement.label <;> cases p.statement.external? <;> simp [hlabel, hexternal]

theorem encoded_unplaced (table : SymbolTable) (p : Placed) :
    (p.unplaced.encoded table.unplaced).mapError (List.map Diagnostic.unplaced) =
      (p.encoded table).mapError (List.map Diagnostic.unplaced) := by
  have htable : ∀ name, (table.unplaced.find? name).map Symbol.target = (table.find? name).map Symbol.target := by
    intro name
    rw [SymbolTable.find?_unplaced, Option.map_map]
    rfl
  obtain ⟨code, data, ⟨line, label, action, keyword, args⟩⟩ := p
  cases action with
  | instruction op =>
      exact (congrArg _ (Instruction.encode_congr htable _ _ _ _)).trans (Instruction.encode_unplaced ..)
  | directive d => rfl

section
variable (table : SymbolTable) (p : Placed)

theorem codeWords_unplaced : p.unplaced.codeWords table.unplaced = p.codeWords table := by
  have hsize : p.unplaced.statement.codeSize = p.statement.codeSize := p.statement.codeSize_unplaced
  unfold codeWords
  rcases mapError_eq (encoded_unplaced table p) with ⟨r, hu, hp⟩ | ⟨ds, ds', hu, hp, -⟩
  · rw [hu, hp]
  · rw [hu, hp, hsize]

theorem uses_unplaced : p.unplaced.uses table.unplaced = p.uses table := by
  unfold uses
  rcases mapError_eq (encoded_unplaced table p) with ⟨r, hu, hp⟩ | ⟨ds, ds', hu, hp, -⟩ <;> rw [hu, hp]

theorem faults_unplaced :
    (p.unplaced.faults table.unplaced).map Diagnostic.unplaced = (p.faults table).map .unplaced := by
  have hentry : (p.unplaced.statement.entryFault? table.unplaced).map Diagnostic.unplaced =
      (p.statement.entryFault? table).map .unplaced := p.statement.entryFault?_unplaced table
  unfold faults
  rcases mapError_eq (encoded_unplaced table p) with ⟨r, hu, hp⟩ | ⟨ds, ds', hu, hp, hds⟩
  · simp only [hu, hp, ← Option.toList_map, hentry]
  · simp only [hu, hp, hds]

end

end Placed

theorem Statement.definitions_unplaced (ss : List Statement) :
    definitions (ss.map unplaced) = (definitions ss).map .unplaced := by
  rw [definitions, Placed.list, Placed.listFrom_unplaced, List.flatMap_map, definitions, List.map_flatMap]
  exact List.flatMap_congr fun p _ => p.definitions_unplaced

/-! ## Both passes -/

namespace Layout

theorem finalTable_unplaced (ss : List Statement) : finalTable (ss.map .unplaced) = (finalTable ss).unplaced := by
  have hempty : SymbolTable.unplaced {} = {} := rfl
  rw [finalTable, Statement.definitions_unplaced, Statement.codeTotal_unplaced, ← hempty,
    SymbolTable.declareAll_unplaced, SymbolTable.relocate_unplaced]
  rfl

def unplaced (l : Layout) : Layout :=
  { l with
    statements := l.statements.map .unplaced
    symbols := l.symbols.unplaced
    errors := l.errors.map .unplaced
    warnings := l.warnings.map .unplaced }

/-- Adds what a line was read as. -/
def addParsed (l : Layout) : Except Diagnostic ParsedLine → Layout
  | .error d => l.fail d
  | .ok .blank | .ok .comment => l
  | .ok (.labelOnly label) =>
    { l with warnings := l.warnings.push (.ignoredLabel label.position label.value) }
  | .ok (.statement s) => l.addStatement s

theorem unplaced_unplaced (l : Layout) : l.unplaced.unplaced = l.unplaced := by
  simp [unplaced]

theorem addStatement_unplaced (l : Layout) (s : Statement) :
    (l.unplaced.addStatement s.unplaced).unplaced = (l.addStatement s).unplaced := by
  have hplace : (⟨l.unplaced.codeSize, l.unplaced.data.size, s.unplaced⟩ : Placed) =
      Placed.unplaced ⟨l.codeSize, l.data.size, s⟩ := rfl
  rw [addStatement_eq, addStatement_eq, hplace, Placed.definitions_unplaced]
  have hsymbols : l.unplaced.symbols = l.symbols.unplaced := rfl
  rw [hsymbols, SymbolTable.declareAll_unplaced, SymbolTable.clashes_unplaced]
  have herrors : ∀ (errors : Array Diagnostic) (ds : List Diagnostic),
      (errors ++ ds).map Diagnostic.unplaced =
        errors.map Diagnostic.unplaced ++ ds.map Diagnostic.unplaced :=
    fun errors ds => Array.ext' (by simp)
  simp [unplaced, herrors, Statement.ownFaults_unplaced]

end Layout

def ParsedLine.unplaced : ParsedLine → ParsedLine
  | .blank => .blank
  | .comment => .comment
  | .labelOnly label => .labelOnly label.unplaced
  | .statement s => .statement s.unplaced

/-- What a line says, wherever it stands. -/
def Line.reading (line : Line) : Except Diagnostic ParsedLine :=
  (line.parse.mapError Diagnostic.unplaced).map .unplaced

namespace Layout

theorem addParsed_unplaced (l : Layout) (r : Except Diagnostic ParsedLine) :
    (l.unplaced.addParsed ((r.mapError Diagnostic.unplaced).map .unplaced)).unplaced =
      (l.addParsed r).unplaced := by
  cases r with
  | error d => simp [addParsed, fail, unplaced, Except.mapError, Except.map]
  | ok parsed =>
      cases parsed with
      | blank => exact l.unplaced_unplaced
      | comment => exact l.unplaced_unplaced
      | labelOnly label =>
          simp [addParsed, unplaced, Except.mapError, Except.map, ParsedLine.unplaced, Diagnostic.unplaced]
      | statement s => exact l.addStatement_unplaced s

theorem ofLines_unplaced (lines : List Line) :
    (ofLines lines).unplaced =
      (lines.map Line.reading).foldl (fun l r => (l.addParsed r).unplaced) {} := by
  induction lines using List.reverseRecOn with
  | nil => simp [ofLines, unplaced, SymbolTable.unplaced]
  | append_singleton lines line ih =>
      have hadd : (ofLines lines).addLine line = (ofLines lines).addParsed line.parse := rfl
      rw [ofLines_append_singleton, hadd, ← addParsed_unplaced, ih, List.map_append, List.foldl_append]
      rfl

end Layout

/-! ## Lines -/

namespace Statement

section
variable {line line' : Int} {label label' : Option Token} {code code' : Token}
    (hl : label.map Token.unplaced = label'.map .unplaced) (hc : code.value = code'.value)
include hl hc

theorem readDirective_congr :
    ((readDirective line label code).mapError Diagnostic.unplaced).map unplaced =
      ((readDirective line' label' code').mapError Diagnostic.unplaced).map unplaced := by
  have hrest : (code.sliceFrom 1).value = (code'.sliceFrom 1).value := by simp [hc]
  obtain ⟨hk, ha⟩ := Token.headRest_congr hrest
  simp only [readDirective, hk]
  split
  · rfl
  · split
    · simp only [Except.mapError, Except.map, Diagnostic.unplaced]
    · simp only [Except.mapError, Except.map, unplaced, hl, Token.unplaced_congr hk, Token.unplaced_congr ha]

theorem readInstruction_congr :
    (readInstruction line label code).unplaced = (readInstruction line' label' code').unplaced := by
  obtain ⟨hk, ha⟩ := Token.headRest_congr hc
  simp only [readInstruction, unplaced, hl, hk, Token.unplaced_congr hk, Token.unplaced_congr ha]

end

theorem splitLabel_congr {code code' : Token} (hc : code.value = code'.value) :
    (∃ d d', splitLabel code = .error d ∧ splitLabel code' = .error d' ∧ d.unplaced = d'.unplaced) ∨
      ∃ label label' body body', splitLabel code = .ok (label, body) ∧ splitLabel code' = .ok (label', body') ∧
        label.map Token.unplaced = label'.map .unplaced ∧ body.value = body'.value := by
  unfold splitLabel
  rw [← hc]
  cases labelSize? code.value with
  | none => exact Or.inr ⟨none, none, code, code', rfl, rfl, rfl, hc⟩
  | some n =>
      have hlabel : (code.slice 0 n).unplaced = (code'.slice 0 n).unplaced :=
        Token.unplaced_congr (by simp [hc])
      have hcheck := checkLabel_unplaced (code.slice 0 n)
      rw [hlabel, checkLabel_unplaced] at hcheck
      dsimp only
      rcases mapError_eq hcheck with ⟨u, hp', hp⟩ | ⟨d', d, hp', hp, hd⟩
      · rw [hp, hp']
        exact Or.inr ⟨_, _, _, _, rfl, rfl, congrArg some hlabel, by simp [hc]⟩
      · rw [hp, hp']
        exact Or.inl ⟨d, d', rfl, rfl, hd.symm⟩

theorem readCode_congr {line line' : Int} {code code' : Token} (hc : code.value = code'.value) :
    ((readCode line code).mapError Diagnostic.unplaced).map ParsedLine.unplaced =
      ((readCode line' code').mapError Diagnostic.unplaced).map .unplaced := by
  rcases splitLabel_congr hc with ⟨d, d', hs, hs', hd⟩ | ⟨label, label', body, body', hs, hs', hl, hb⟩
  · simp only [readCode, hs, hs', bind, Except.bind, Except.mapError, Except.map, hd]
  · cases hv : body'.value with
    | cons b t =>
        have hmap : ∀ x : Except Diagnostic Statement,
            ((x.map ParsedLine.statement).mapError Diagnostic.unplaced).map ParsedLine.unplaced =
              ((x.mapError Diagnostic.unplaced).map unplaced).map .statement := by
          intro x
          cases x <;> rfl
        rw [readCode_eq hs (hb.trans hv), readCode_eq hs' hv]
        split
        · rw [hmap, readDirective_congr hl hb, ← hmap]
        · simp only [Except.mapError, Except.map, ParsedLine.unplaced]
          rw [readInstruction_congr hl hb]
    | nil =>
        simp only [readCode, hs, hs', bind, Except.bind, hb, hv]
        cases label <;> cases label' <;>
          simp_all [pure, Except.pure, Except.mapError, Except.map, ParsedLine.unplaced]

end Statement

/-- What a line says shows in its text without the white space around it, and in that of its code. -/
theorem Line.reading_congr {line line' : Line} (htext : line.text.trim = line'.text.trim)
    (hcode : Text.trim (line.text.take (Statement.codeEnd 0 false line.text)) =
      Text.trim (line'.text.take (Statement.codeEnd 0 false line'.text))) :
    line.reading = line'.reading := by
  have hwhole : ∀ l : Line, ((Token.ofLine l).sliceFrom 0).value = l.text.trim := fun l => rfl
  unfold reading parse
  simp only [hwhole, htext]
  cases line'.text.trim with
  | nil => rfl
  | cons b t =>
      dsimp only
      split
      · rfl
      · exact Statement.readCode_congr hcode

/-! ## Programs -/

namespace Placed

section
variable (ss : List Statement)

theorem list_unplaced : list (ss.map .unplaced) = (list ss).map unplaced :=
  listFrom_unplaced 0 0 ss

theorem code_unplaced :
    (list (ss.map .unplaced)).flatMap (codeWords (Layout.finalTable (ss.map .unplaced))) =
      (list ss).flatMap (codeWords (Layout.finalTable ss)) := by
  rw [list_unplaced, Layout.finalTable_unplaced, List.flatMap_map]
  exact List.flatMap_congr fun p _ => codeWords_unplaced _ p

theorem allUses_unplaced :
    (list (ss.map .unplaced)).flatMap (uses (Layout.finalTable (ss.map .unplaced))) =
      (list ss).flatMap (uses (Layout.finalTable ss)) := by
  rw [list_unplaced, Layout.finalTable_unplaced, List.flatMap_map]
  exact List.flatMap_congr fun p _ => uses_unplaced _ p

theorem allFaults_unplaced :
    ((list (ss.map .unplaced)).flatMap (faults (Layout.finalTable (ss.map .unplaced)))).map Diagnostic.unplaced =
      ((list ss).flatMap (faults (Layout.finalTable ss))).map .unplaced := by
  rw [list_unplaced, Layout.finalTable_unplaced, List.flatMap_map, List.map_flatMap, List.map_flatMap]
  exact List.flatMap_congr fun p _ => faults_unplaced _ p

end

end Placed

theorem Statement.symbols_unplaced (ss : List Statement) :
    (Layout.finalTable (ss.map unplaced)).mark (exports (Layout.finalTable (ss.map unplaced)) (ss.map unplaced)) =
      ((Layout.finalTable ss).mark (exports (Layout.finalTable ss) ss)).unplaced := by
  rw [Layout.finalTable_unplaced, exports_unplaced, SymbolTable.mark_unplaced]

theorem Statement.fits_unplaced (ss : List Statement) : Fits (ss.map unplaced) ↔ Fits ss := by
  rw [Fits, codeTotal_unplaced, dataAll_unplaced, Fits]

def Program.unplaced (p : Program) : Program :=
  { p with
    symbols := p.symbols.unplaced
    warnings := p.warnings.map .unplaced }

namespace Assembly

section
variable {lines lines' : List Line} (h : lines.map Line.reading = lines'.map Line.reading)
include h

theorem layout_congr : (Layout.ofLines lines).unplaced = (Layout.ofLines lines').unplaced := by
  rw [Layout.ofLines_unplaced, h, Layout.ofLines_unplaced]

theorem statements_congr :
    (Statement.ofLines lines).map Statement.unplaced = (Statement.ofLines lines').map .unplaced := by
  have hs := congrArg (fun l => l.statements.toList) (layout_congr h)
  simpa [Layout.unplaced, (Layout.holds_ofLines _).statements] using hs

theorem fits_congr : Statement.Fits (Statement.ofLines lines) ↔ Statement.Fits (Statement.ofLines lines') := by
  rw [← Statement.fits_unplaced, statements_congr h, Statement.fits_unplaced]

/-- Lines that are read the same give the same program. -/
theorem program_congr : (ofLines lines).program.unplaced = (ofLines lines').program.unplaced := by
  have hss := statements_congr h
  have hl := layout_congr h
  have hwarnings := congrArg (fun l => l.warnings.toList) hl
  have hsymbols := congrArg Layout.symbols hl
  simp only [Layout.unplaced, Array.toList_map] at hwarnings hsymbols
  by_cases hf : Statement.Fits (Statement.ofLines lines)
  · rw [program_ofLines hf, program_ofLines ((fits_congr h).mp hf)]
    simp only [Program.unplaced, Program.mk.injEq]
    refine ⟨?_, ?_, ?_, ?_, hwarnings⟩
    · rw [← Placed.code_unplaced, hss, Placed.code_unplaced]
    · rw [← Statement.dataAll_unplaced, hss, Statement.dataAll_unplaced]
    · rw [← Statement.symbols_unplaced, hss, Statement.symbols_unplaced]
    · rw [← Placed.allUses_unplaced, hss, Placed.allUses_unplaced]
  · rw [program_ofLines_of_not_fits hf, program_ofLines_of_not_fits fun hf' => hf ((fits_congr h).mpr hf')]
    simp only [Program.unplaced, hwarnings, hsymbols]

theorem errors_congr :
    (ofLines lines).errors.map Diagnostic.unplaced = (ofLines lines').errors.map .unplaced := by
  have hss := statements_congr h
  have hl := layout_congr h
  have herrors := congrArg (fun l => l.errors.toList) hl
  have hsize := congrArg Layout.size hl
  simp only [Layout.unplaced, Array.toList_map] at herrors
  by_cases hf : Statement.Fits (Statement.ofLines lines)
  · rw [errors_ofLines hf, errors_ofLines ((fits_congr h).mp hf), List.map_append, List.map_append, herrors,
      ← Placed.allFaults_unplaced, hss, Placed.allFaults_unplaced]
  · rw [errors_ofLines_of_not_fits hf, errors_ofLines_of_not_fits fun hf' => hf ((fits_congr h).mpr hf'),
      List.map_append, List.map_append, herrors]
    have hs : (Layout.ofLines lines).size = (Layout.ofLines lines').size := hsize
    rw [hs]

end

end Assembly

end TwoPass
