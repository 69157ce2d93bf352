import Mathlib
import TwoPass.Symbol.Table

/-!
What the operations on a symbol table do to a lookup. Both passes change the table only through
`add`, the two moves and `markExported`, so the rest of the development reads it through `find?`.
-/
namespace TwoPass

/-- In a list under distinct names, what a name is looked up to is what is listed under it. -/
theorem find?_name_iff {α : Type} {key : α → Text} {l : List α} (h : (l.map key).Nodup) {name : Text} {a : α} :
    l.find? (key · = name) = some a ↔ a ∈ l ∧ key a = name := by
  have hfound : ∀ {name a}, l.find? (key · = name) = some a → a ∈ l ∧ key a = name := fun hf =>
    ⟨List.mem_of_find?_eq_some hf, by simpa using List.find?_some hf⟩
  refine ⟨hfound, ?_⟩
  rintro ⟨ha, rfl⟩
  have htaken : (l.find? (key · = key a)).isSome = true := List.find?_isSome.mpr ⟨a, ha, by simp⟩
  obtain ⟨b, hb⟩ := Option.isSome_iff_exists.mp htaken
  rw [hb, List.inj_on_of_nodup_map h (hfound hb).1 ha (hfound hb).2]

/-- Where a symbol ends up: code from the load address on, data behind `codeSize` words of code. -/
def Symbol.relocate (base codeSize : Word) (s : Symbol) : Symbol :=
  match s.kind with
  | .code => { s with address := s.address + base }
  | .data => { s with address := s.address + codeSize + base }
  | .external => s

@[simp] theorem Symbol.relocate_name (base codeSize : Word) (s : Symbol) :
    (s.relocate base codeSize).name = s.name := by
  unfold relocate; split <;> rfl

@[simp] theorem Symbol.relocate_kind (base codeSize : Word) (s : Symbol) :
    (s.relocate base codeSize).kind = s.kind := by
  unfold relocate; split <;> simp_all

@[simp] theorem Symbol.relocate_isEntry (base codeSize : Word) (s : Symbol) :
    (s.relocate base codeSize).isEntry = s.isEntry := by
  unfold relocate; split <;> rfl

/-- Sets the export mark of a symbol that is named by one of `names`. -/
def Symbol.mark (names : List Text) (s : Symbol) : Symbol :=
  { s with isEntry := s.isEntry || decide (s.name ∈ names) }

@[simp] theorem Symbol.mark_name (names : List Text) (s : Symbol) : (s.mark names).name = s.name := rfl

@[simp] theorem Symbol.mark_kind (names : List Text) (s : Symbol) : (s.mark names).kind = s.kind := rfl

@[simp] theorem Symbol.mark_address (names : List Text) (s : Symbol) :
    (s.mark names).address = s.address := rfl

@[simp] theorem Symbol.mark_nil (s : Symbol) : s.mark [] = s := by
  simp [mark]

theorem Symbol.mark_append (first second : List Text) (s : Symbol) :
    s.mark (first ++ second) = (s.mark first).mark second := by
  by_cases h₁ : s.name ∈ first <;> by_cases h₂ : s.name ∈ second <;> simp [mark, h₁, h₂]

namespace SymbolTable

/-- The table with a symbol added, or as it was if the name is taken. -/
def declare (table : SymbolTable) (s : Symbol) : SymbolTable :=
  (table.add s).1

def declareAll (table : SymbolTable) (symbols : List Symbol) : SymbolTable :=
  symbols.foldl declare table

def relocate (base codeSize : Word) (table : SymbolTable) : SymbolTable :=
  { symbols := table.symbols.map (Symbol.relocate base codeSize), relocation := .done }

def mark (names : List Text) (table : SymbolTable) : SymbolTable :=
  { table with symbols := table.symbols.map (Symbol.mark names) }

/-! ## Names -/

def names (table : SymbolTable) : List Text :=
  table.symbols.map (·.name)

theorem find?_eq_none_iff {table : SymbolTable} {name : Text} : table.find? name = none ↔ name ∉ table.names := by
  simp [find?, names]

theorem mem_of_find? {table : SymbolTable} {name : Text} {s : Symbol} (h : table.find? name = some s) :
    s ∈ table.symbols :=
  List.mem_of_find?_eq_some h

theorem find?_iff_of_nodup {table : SymbolTable} (h : table.names.Nodup) {name : Text} {s : Symbol} :
    table.find? name = some s ↔ s ∈ table.symbols ∧ s.name = name :=
  find?_name_iff h

/-! ## Adding symbols -/

theorem add_of_free {table : SymbolTable} {s : Symbol} (h : table.find? s.name = none) :
    table.add s = ({ table with symbols := table.symbols ++ [s] }, none) := by
  simp [add, h]

theorem add_of_taken {table : SymbolTable} {s : Symbol} (h : table.find? s.name ≠ none) :
    table.add s = (table, some (.redeclaredLabel s.position s.name)) := by
  obtain ⟨t, ht⟩ := Option.ne_none_iff_exists'.mp h
  simp [add, ht]

theorem declare_of_free {table : SymbolTable} {s : Symbol} (h : table.find? s.name = none) :
    table.declare s = { table with symbols := table.symbols ++ [s] } := by
  rw [declare, add_of_free h]

theorem declare_of_taken {table : SymbolTable} {s : Symbol} (h : table.find? s.name ≠ none) :
    table.declare s = table := by
  rw [declare, add_of_taken h]

@[simp] theorem declare_relocation (table : SymbolTable) (s : Symbol) :
    (table.declare s).relocation = table.relocation := by
  by_cases h : table.find? s.name = none
  · rw [declare_of_free h]
  · rw [declare_of_taken h]

@[simp] theorem declareAll_relocation (table : SymbolTable) (symbols : List Symbol) :
    (table.declareAll symbols).relocation = table.relocation := by
  induction symbols generalizing table with
  | nil => rfl
  | cons s symbols ih => exact (ih (table.declare s)).trans (declare_relocation table s)

theorem declareAll_append (table : SymbolTable) (first second : List Symbol) :
    table.declareAll (first ++ second) = (table.declareAll first).declareAll second :=
  List.foldl_append

theorem find?_declare (table : SymbolTable) (s : Symbol) (name : Text) :
    (table.declare s).find? name = (table.find? name).or (if s.name = name then some s else none) := by
  by_cases h : table.find? s.name = none
  · rw [declare_of_free h]
    simp [find?, List.find?_append, List.find?_singleton]
  · rw [declare_of_taken h]
    by_cases hn : s.name = name
    · obtain ⟨t, ht⟩ := Option.ne_none_iff_exists'.mp h
      rw [← hn, ht, Option.some_or]
    · rw [if_neg hn, Option.or_none]

/-- Of the symbols declared under a name the first counts. -/
theorem find?_declareAll (table : SymbolTable) (symbols : List Symbol) (name : Text) :
    (table.declareAll symbols).find? name = (table.find? name).or (symbols.find? (·.name = name)) := by
  induction symbols generalizing table with
  | nil => simp [declareAll]
  | cons s symbols ih =>
      have h : (table.declareAll (s :: symbols)).find? name =
          ((table.declare s).find? name).or (symbols.find? (·.name = name)) := ih (table.declare s)
      rw [h, find?_declare, Option.or_assoc]
      congr 1
      by_cases hn : s.name = name
      · simp [hn]
      · simp [hn]

theorem find?_declareAll_eq_none {symbols : List Symbol} {name : Text} :
    (declareAll {} symbols).find? name = none ↔ name ∉ symbols.map (·.name) := by
  rw [find?_declareAll]
  simp [find?]

theorem declareAll_of_nodup {symbols : List Symbol} (h : (symbols.map (·.name)).Nodup) :
    (declareAll {} symbols).symbols = symbols := by
  induction symbols using List.reverseRecOn with
  | nil => rfl
  | append_singleton symbols s ih =>
      simp only [List.map_append, List.map_cons, List.map_nil] at h
      obtain ⟨hs, -, hd⟩ := List.nodup_append'.mp h
      have hfree : (declareAll {} symbols).find? s.name = none :=
        find?_declareAll_eq_none.mpr fun hm => hd hm (List.mem_singleton_self _)
      have hstep : declareAll {} (symbols ++ [s]) = (declareAll {} symbols).declare s :=
        declareAll_append _ _ _
      rw [hstep, declare_of_free hfree, ih hs]

/-- Names stay unique, so a symbol is what its name is looked up to. -/
theorem find?_of_mem_declareAll {symbols : List Symbol} {s : Symbol}
    (h : s ∈ (declareAll {} symbols).symbols) : (declareAll {} symbols).find? s.name = some s := by
  induction symbols using List.reverseRecOn with
  | nil => cases h
  | append_singleton symbols t ih =>
      have hstep : declareAll {} (symbols ++ [t]) = (declareAll {} symbols).declare t :=
        declareAll_append _ _ _
      rw [hstep] at h ⊢
      rw [find?_declare]
      by_cases hfree : (declareAll {} symbols).find? t.name = none
      · rw [declare_of_free hfree] at h
        rcases List.mem_append.mp h with h | h
        · rw [ih h, Option.some_or]
        · rw [List.mem_singleton.mp h, hfree]
          simp
      · rw [declare_of_taken hfree] at h
        rw [ih h, Option.some_or]

/-! ## Names that are taken -/

/-- The faults of symbols declared one after the other: one for each name that is taken. -/
def clashes (table : SymbolTable) : List Symbol → List Diagnostic
  | [] => []
  | s :: symbols =>
    (if (table.find? s.name).isSome then [.redeclaredLabel s.position s.name] else []) ++
      clashes (table.declare s) symbols

theorem clashes_append (table : SymbolTable) (first second : List Symbol) :
    table.clashes (first ++ second) = table.clashes first ++ (table.declareAll first).clashes second := by
  induction first generalizing table with
  | nil => rfl
  | cons s first ih =>
      rw [List.cons_append, clashes, clashes, ih, List.append_assoc]
      rfl

theorem clashes_eq_nil {table : SymbolTable} {symbols : List Symbol} :
    table.clashes symbols = [] ↔
      (∀ s ∈ symbols, table.find? s.name = none) ∧ (symbols.map (·.name)).Nodup := by
  induction symbols generalizing table with
  | nil => simp [clashes]
  | cons s symbols ih =>
      by_cases h : table.find? s.name = none
      · have hfind : ∀ t : Symbol, (table.declare s).find? t.name = none ↔
            table.find? t.name = none ∧ s.name ≠ t.name := by
          intro t
          rw [find?_declare]
          by_cases hn : s.name = t.name <;> simp [hn]
        simp only [clashes, h, Option.isSome_none, Bool.false_eq_true, ↓reduceIte, List.nil_append, ih,
          hfind, List.mem_cons, forall_eq_or_imp, List.map_cons, List.nodup_cons, true_and,
          List.mem_map, not_exists, not_and]
        constructor
        · rintro ⟨hs, hd⟩
          exact ⟨fun t ht => (hs t ht).1, fun t ht he => (hs t ht).2 he.symm, hd⟩
        · rintro ⟨hs, hn, hd⟩
          exact ⟨fun t ht => ⟨hs t ht, fun he => hn t ht he.symm⟩, hd⟩
      · have hsome : (table.find? s.name).isSome = true := Option.isSome_iff_ne_none.mpr h
        simp [clashes, hsome, h]

/-! ## Moving and marking -/

theorem find?_map {f : Symbol → Symbol} (hf : ∀ s, (f s).name = s.name) (symbols : List Symbol)
    (name : Text) :
    (symbols.map f).find? (·.name = name) = (symbols.find? (·.name = name)).map f := by
  rw [List.find?_map]
  congr 2
  funext s
  simp [hf]

theorem find?_relocate (base codeSize : Word) (table : SymbolTable) (name : Text) :
    (table.relocate base codeSize).find? name = (table.find? name).map (Symbol.relocate base codeSize) :=
  find?_map (Symbol.relocate_name base codeSize) table.symbols name

theorem find?_mark (names : List Text) (table : SymbolTable) (name : Text) :
    (table.mark names).find? name = (table.find? name).map (Symbol.mark names) :=
  find?_map (Symbol.mark_name names) table.symbols name

@[simp] theorem mark_nil (table : SymbolTable) : table.mark [] = table := by
  have h : table.symbols.map (Symbol.mark []) = table.symbols := by
    simpa only [Symbol.mark_nil] using List.map_id'' Symbol.mark_nil table.symbols
  simp only [mark, h]

theorem mark_append (first second : List Text) (table : SymbolTable) :
    table.mark (first ++ second) = (table.mark first).mark second := by
  simp [mark, Symbol.mark_append]

/-- An export marks the symbols of that name, and only a name defined here can be exported. -/
theorem markExported_eq (table : SymbolTable) (name : Text) (position : Span) :
    table.markExported name position =
      match table.find? name with
      | none => (table, some (.unknownLabel position name))
      | some s =>
        if s.kind = .external then (table, some (.externalEntry position name)) else (table.mark [name], none) := by
  have hmap : (table.symbols.map fun s => if s.name = name then { s with isEntry := true } else s) =
      table.symbols.map (Symbol.mark [name]) := by
    apply List.map_congr_left
    intro s _
    by_cases hn : s.name = name <;> simp [Symbol.mark, hn]
  cases h : table.find? name with
  | none => simp only [markExported, h]
  | some s => simp only [markExported, h, hmap, mark]

/-- Both moves together, on a table that has not been moved yet. -/
theorem moveData_moveAll {table : SymbolTable} (h : table.relocation = .pending) (base codeSize : Word) :
    (do let moved ← checked (table.moveData codeSize); checked (moved.moveAll base)) =
      .ok (table.relocate base codeSize) := by
  simp only [moveData, moveAll, checked, h, relocate, bind, Except.bind, List.map_map, Except.ok.injEq, mk.injEq,
    and_true]
  apply List.map_congr_left
  intro s _
  cases hk : s.kind <;> simp [Symbol.relocate, hk]

end SymbolTable

end TwoPass
