import TwoPass.Assembly.Program
import TwoPass.Proofs.Symbols

/-!
Where the statements of a program stand. The words before a statement fix its place in both
segments, so a program is read as a list of statements that know their places.
-/
namespace TwoPass

/-- The statement that a line holds, if it holds one. -/
def Line.statement? (line : Line) : Option Statement :=
  match line.parse with
  | .ok (.statement s) => some s
  | _ => none

def Statement.ofLines (lines : List Line) : List Statement :=
  lines.filterMap Line.statement?

namespace Statement

/-- How many words a statement takes in the code segment. -/
def codeSize (s : Statement) : Nat :=
  match s.action with
  | .instruction op => Instruction.size op s.args
  | .directive _ => 0

/-- The words a statement places in the data segment. -/
def dataWords (s : Statement) : List Word :=
  match s.action with
  | .instruction _ => []
  | .directive d => (Data.contents d s.args).words

def isData (s : Statement) : Bool :=
  match s.action with
  | .instruction _ => false
  | .directive d => d.isData

/-- The name that an external directive declares. One that cannot be a label declares nothing. -/
def external? (s : Statement) : Option Token :=
  if s.action = .directive .external ∧ Name.isValid s.args.value ∧ ¬ Name.isReserved s.args.value then
    some s.args
  else none

theorem external?_eq_some {s : Statement} {token : Token} :
    s.external? = some token ↔ s.action = .directive .external ∧
      (Name.isValid s.args.value = true ∧ Name.isReserved s.args.value = false) ∧ s.args = token := by
  simp [external?, and_assoc]

/-- The names that a statement defines: its label, and then the name it declares. -/
def names (s : Statement) : List Text :=
  s.label.toList.map (·.value) ++ s.external?.toList.map (·.value)

def codeTotal (ss : List Statement) : Nat :=
  (ss.map codeSize).sum

def dataAll (ss : List Statement) : List Word :=
  ss.flatMap dataWords

@[simp] theorem codeTotal_nil : codeTotal [] = 0 := rfl

@[simp] theorem codeTotal_cons (s : Statement) (ss : List Statement) :
    codeTotal (s :: ss) = s.codeSize + codeTotal ss := by
  simp [codeTotal]

@[simp] theorem codeTotal_append (ss ts : List Statement) :
    codeTotal (ss ++ ts) = codeTotal ss + codeTotal ts := by
  simp [codeTotal]

@[simp] theorem dataAll_nil : dataAll [] = [] := rfl

@[simp] theorem dataAll_cons (s : Statement) (ss : List Statement) :
    dataAll (s :: ss) = s.dataWords ++ dataAll ss := by
  simp [dataAll]

@[simp] theorem dataAll_append (ss ts : List Statement) :
    dataAll (ss ++ ts) = dataAll ss ++ dataAll ts := by
  simp [dataAll]

end Statement

/-- A statement with the number of code words and of data words before it. -/
structure Placed where
  code : Nat
  data : Nat
  statement : Statement

namespace Placed

/-- Places statements one after the other. -/
def listFrom (code data : Nat) : List Statement → List Placed
  | [] => []
  | s :: ss => ⟨code, data, s⟩ :: listFrom (code + s.codeSize) (data + s.dataWords.length) ss

def list (ss : List Statement) : List Placed :=
  listFrom 0 0 ss

theorem listFrom_append (code data : Nat) (ss ts : List Statement) :
    listFrom code data (ss ++ ts) = listFrom code data ss ++
      listFrom (code + Statement.codeTotal ss) (data + (Statement.dataAll ss).length) ts := by
  induction ss generalizing code data with
  | nil => simp [listFrom]
  | cons s ss ih => simp [listFrom, ih, Nat.add_assoc]

theorem list_append_singleton (ss : List Statement) (s : Statement) :
    list (ss ++ [s]) = list ss ++ [⟨Statement.codeTotal ss, (Statement.dataAll ss).length, s⟩] := by
  simp [list, listFrom_append, listFrom]

theorem mem_list {ss : List Statement} {p : Placed} :
    p ∈ list ss ↔ ∃ before after, ss = before ++ p.statement :: after ∧
      p.code = Statement.codeTotal before ∧ p.data = (Statement.dataAll before).length := by
  constructor
  · intro h
    induction ss using List.reverseRecOn with
    | nil => cases h
    | append_singleton ss s ih =>
        rw [list_append_singleton] at h
        rcases List.mem_append.mp h with h | h
        · obtain ⟨before, after, rfl, hc, hd⟩ := ih h
          exact ⟨before, after ++ [s], by simp, hc, hd⟩
        · rw [List.mem_singleton.mp h]
          exact ⟨ss, [], rfl, rfl, rfl⟩
  · rintro ⟨before, after, rfl, hc, hd⟩
    obtain ⟨code, data, s⟩ := p
    simp only at hc hd
    simp [list, listFrom_append, listFrom, hc, hd]

theorem statement_mem {ss : List Statement} {p : Placed} (h : p ∈ list ss) : p.statement ∈ ss := by
  obtain ⟨before, after, rfl, -, -⟩ := mem_list.mp h
  exact List.mem_append_right _ List.mem_cons_self

theorem map_statement_list (ss : List Statement) : (list ss).map (·.statement) = ss := by
  induction ss using List.reverseRecOn with
  | nil => rfl
  | append_singleton ss s ih => rw [list_append_singleton, List.map_append, ih]; rfl

theorem exists_of_mem {ss : List Statement} {s : Statement} (h : s ∈ ss) : ∃ p ∈ list ss, p.statement = s := by
  obtain ⟨before, after, rfl⟩ := List.append_of_mem h
  exact ⟨⟨_, _, s⟩, mem_list.mpr ⟨before, after, rfl, rfl, rfl⟩, rfl⟩

/-! ## The symbols a statement defines -/

/-- What a label stands for, at its offset into the segment of the statement. -/
def labelSymbol (p : Placed) (label : Token) : Symbol :=
  if p.statement.isData then
    { name := label.value, address := .ofNat p.data, kind := .data, position := label.position }
  else { name := label.value, address := .ofNat p.code, kind := .code, position := label.position }

def externalSymbol (name : Token) : Symbol :=
  { name := name.value, address := 0, kind := .external, position := name.position }

def definitions (p : Placed) : List Symbol :=
  p.statement.label.toList.map p.labelSymbol ++ p.statement.external?.toList.map externalSymbol

@[simp] theorem labelSymbol_name (p : Placed) (label : Token) : (p.labelSymbol label).name = label.value := by
  unfold labelSymbol; split <;> rfl

theorem labelSymbol_kind (p : Placed) (label : Token) :
    (p.labelSymbol label).kind = if p.statement.isData then .data else .code := by
  unfold labelSymbol; split <;> rfl

theorem isEntry_of_mem_definitions {p : Placed} {d : Symbol} (h : d ∈ p.definitions) : d.isEntry = false := by
  rcases List.mem_append.mp h with h | h
  · obtain ⟨label, -, rfl⟩ := List.mem_map.mp h
    unfold labelSymbol; split <;> rfl
  · obtain ⟨name, -, rfl⟩ := List.mem_map.mp h
    rfl

theorem map_name_definitions (p : Placed) : p.definitions.map (·.name) = p.statement.names := by
  simp [definitions, Statement.names, externalSymbol, Function.comp_def]

end Placed

namespace Statement

/-- The symbols that the statements of a program define, those under a taken name included. -/
def definitions (ss : List Statement) : List Symbol :=
  (Placed.list ss).flatMap Placed.definitions

def definedNames (ss : List Statement) : List Text :=
  ss.flatMap names

theorem definitions_append_singleton (ss : List Statement) (s : Statement) :
    definitions (ss ++ [s]) =
      definitions ss ++ Placed.definitions ⟨codeTotal ss, (dataAll ss).length, s⟩ := by
  simp [definitions, Placed.list_append_singleton]

theorem definedNames_append_singleton (ss : List Statement) (s : Statement) :
    definedNames (ss ++ [s]) = definedNames ss ++ s.names := by
  simp [definedNames]

theorem map_name_definitions (ss : List Statement) : (definitions ss).map (·.name) = definedNames ss := by
  induction ss using List.reverseRecOn with
  | nil => rfl
  | append_singleton ss s ih =>
      rw [definitions_append_singleton, List.map_append, ih, Placed.map_name_definitions,
        definedNames_append_singleton]

end Statement

end TwoPass
