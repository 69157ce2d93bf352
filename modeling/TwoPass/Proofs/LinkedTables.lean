import Mathlib
import TwoPass.Proofs.MacroRuns
import TwoPass.Proofs.SymbolRuns

/-!
Tables that reach their items in two ways: by name through a map, and in the order of insertion through a
list of places. Both lead to the same cells and are written together, so they stay in step, and a table of
this kind cannot be told from the list of its items.
-/
namespace TwoPass

/-- Items in cells. The map gives the cell of a name, the order the cells one after the other. -/
structure Linked (α : Type) where
  cells : List α := []
  index : Std.HashMap Text Nat := {}
  order : List Nat := []

namespace Linked

variable {α : Type}

def find? (s : Linked α) (name : Text) : Option α :=
  s.index[name]?.bind (s.cells[·]?)

def items (s : Linked α) : List α :=
  s.order.filterMap (s.cells[·]?)

/-- Puts an item into a new cell and makes both lead to it. -/
def insert (s : Linked α) (name : Text) (a : α) : Linked α where
  cells := s.cells ++ [a]
  index := s.index.insert name s.cells.length
  order := s.order ++ [s.cells.length]

/-- Changes the cell that the map gives for a name. -/
def modify (s : Linked α) (name : Text) (f : α → α) : Linked α :=
  { s with cells := (s.index[name]?.map (s.cells.modify · f)).getD s.cells }

/-- Changes the cells of the order, one after the other. -/
def modifyAll (s : Linked α) (f : α → α) : Linked α :=
  { s with cells := s.order.foldl (fun cells i => cells.modify i f) s.cells }

/-- The cells hold the items of a list. The order leads to each of them once, and the map to each under the
name of its item. -/
structure Mirrors (key : α → Text) (s : Linked α) (l : List α) : Prop where
  cells : s.cells = l
  order : s.order = List.range l.length
  index : ∀ name i, s.index[name]? = some i ↔ l[i]?.map key = some name
  size : s.index.size = l.length

theorem mirrors_empty (key : α → Text) : ({} : Linked α).Mirrors key [] :=
  ⟨rfl, rfl, by simp, rfl⟩

section
variable {key : α → Text} {s : Linked α} {l : List α} (h : s.Mirrors key l)
include h

theorem Mirrors.items_eq : s.items = l := by
  have hsome : (List.range l.length).map (l[·]?) = l.map some := by
    apply List.ext_getElem?
    intro i
    by_cases hi : i < l.length <;> simp [hi]
  have hall : (List.range l.length).filterMap (l[·]?) = ((List.range l.length).map (l[·]?)).filterMap id := by
    rw [List.filterMap_map]
    rfl
  rw [items, h.order, h.cells, hall, hsome, List.filterMap_map]
  exact List.filterMap_some

theorem Mirrors.nodup : (l.map key).Nodup := by
  rw [List.nodup_iff_getElem?_ne_getElem?]
  intro i j hij hj heq
  rw [List.length_map] at hj
  have hlast : l[j]?.map key = some (key l[j]) := by rw [List.getElem?_eq_getElem hj, Option.map_some]
  rw [List.getElem?_map, List.getElem?_map, hlast] at heq
  have hi := (h.index _ i).mpr heq
  rw [(h.index _ j).mpr hlast] at hi
  exact Nat.ne_of_gt hij (Option.some.inj hi)

/-- What the map leads to is what is listed under the name. -/
theorem Mirrors.find?_eq_some {name : Text} {a : α} : s.find? name = some a ↔ a ∈ l ∧ key a = name := by
  rw [find?, Option.bind_eq_some_iff, h.cells]
  simp only [h.index, List.mem_iff_getElem?]
  constructor
  · rintro ⟨i, hname, ha⟩
    rw [ha] at hname
    exact ⟨⟨i, ha⟩, Option.some.inj hname⟩
  · rintro ⟨⟨i, ha⟩, rfl⟩
    exact ⟨i, by rw [ha]; rfl, ha⟩

theorem Mirrors.find?_eq (name : Text) : s.find? name = l.find? (key · = name) := by
  apply Option.ext
  intro a
  rw [h.find?_eq_some, find?_name_iff h.nodup]

/-- Both ways show the same items, and those of the list. -/
theorem Mirrors.in_step :
    (∀ name a, s.find? name = some a ↔ a ∈ s.items ∧ key a = name) ∧ s.index.size = s.order.length ∧
      s.items = l ∧ s.order.length = l.length ∧ ∀ name, s.find? name = l.find? (key · = name) := by
  have horder : s.order.length = l.length := by rw [h.order, List.length_range]
  refine ⟨fun name a => ?_, h.size.trans horder.symm, h.items_eq, horder, h.find?_eq⟩
  rw [h.items_eq]
  exact h.find?_eq_some

theorem Mirrors.insert {a : α} (hfree : l.find? (key · = key a) = none) :
    (s.insert (key a) a).Mirrors key (l ++ [a]) := by
  have hindex : s.index[key a]? = none := by
    cases hi : s.index[key a]? with
    | none => rfl
    | some i =>
        have hname := (h.index _ _).mp hi
        rw [← h.find?_eq, find?, hi, h.cells, Option.bind_some] at hfree
        rw [hfree] at hname
        cases hname
  refine ⟨congrArg (· ++ [a]) h.cells, ?_, fun name i => ?_, ?_⟩
  · rw [Linked.insert, h.order, h.cells, List.length_append, List.length_singleton, List.range_succ]
  · have hcell : (l ++ [a])[i]?.map key = some name ↔ l[i]?.map key = some name ∨ l.length = i ∧ key a = name := by
      rcases Nat.lt_trichotomy i l.length with hi | rfl | hi
      · simp [List.getElem?_append_left hi, hi.ne']
      · simp
      · have hold : l[i]? = none := List.getElem?_eq_none hi.le
        have hnew : (l ++ [a])[i]? = none := List.getElem?_eq_none (by simpa using hi)
        simp [hold, hnew, hi.ne]
    rw [Linked.insert, h.cells, hcell, ← h.index, Std.HashMap.getElem?_insert]
    by_cases hname : key a = name
    · subst hname
      simp [hindex]
    · simp [hname]
  · have hnew : key a ∉ s.index := by
      rw [Std.HashMap.mem_iff_isSome_getElem?, hindex]
      exact Bool.false_ne_true
    rw [Linked.insert, Std.HashMap.size_insert, if_neg hnew, h.size, List.length_append, List.length_singleton]

/-- Items may change in their cells as long as they keep their names. -/
theorem Mirrors.map {f : α → α} (hf : ∀ a, key (f a) = key a) :
    { s with cells := l.map f }.Mirrors key (l.map f) := by
  refine ⟨rfl, ?_, fun name i => ?_, ?_⟩
  · rw [List.length_map]
    exact h.order
  · rw [List.getElem?_map, Option.map_map, show key ∘ f = key from funext hf]
    exact h.index name i
  · rw [List.length_map]
    exact h.size

/-- The cell that the map gives is the one whose item has the name. -/
theorem Mirrors.modify {f : α → α} (hf : ∀ a, key (f a) = key a) (name : Text) :
    (s.modify name f).Mirrors key (l.map fun a => if key a = name then f a else a) := by
  have hcells : (s.index[name]?.map (l.modify · f)).getD l = l.map fun a => if key a = name then f a else a := by
    apply List.ext_getElem?
    intro j
    rw [List.getElem?_map]
    cases hj : l[j]? with
    | none => cases s.index[name]? <;> simp [List.getElem?_modify, hj]
    | some a =>
        have hname : s.index[name]? = some j ↔ key a = name := by
          rw [h.index, hj, Option.map_some, Option.some.injEq]
        simp only [Option.map_some, ← hname]
        cases s.index[name]? <;> simp [List.getElem?_modify, hj]
  rw [Linked.modify, h.cells, hcells]
  refine h.map fun a => ?_
  split
  · exact hf a
  · rfl

/-- The cells of the order are all cells, each once. -/
theorem Mirrors.modifyAll {f : α → α} (hf : ∀ a, key (f a) = key a) :
    (s.modifyAll f).Mirrors key (l.map f) := by
  have hfirst : ∀ n i, ((List.range n).foldl (fun cells i => cells.modify i f) l)[i]? =
      l[i]?.map fun a => if i < n then f a else a := by
    intro n i
    induction n with
    | zero => simp
    | succ n ih =>
        rw [List.range_succ, List.foldl_append, List.foldl_cons, List.foldl_nil, List.getElem?_modify, ih,
          Option.map_eq_map, Option.map_map]
        congr 1
        funext a
        rcases Nat.lt_trichotomy i n with hi | rfl | hi
        · simp [hi, hi.ne', Nat.lt_succ_of_lt hi]
        · simp
        · simp [hi.ne, Nat.not_lt_of_lt hi, Nat.not_lt_of_le (Nat.succ_le_of_lt hi)]
  have hcells : s.order.foldl (fun cells i => cells.modify i f) l = l.map f := by
    apply List.ext_getElem?
    intro i
    rw [h.order, hfirst, List.getElem?_map]
    by_cases hi : i < l.length
    · simp [hi]
    · simp [List.getElem?_eq_none (Nat.le_of_not_lt hi)]
  rw [Linked.modifyAll, h.cells, hcells]
  exact h.map hf

end

end Linked

/-! ## Symbols -/

/-- A symbol table with a map and an order of its own. -/
structure LinkedSymbols where
  store : Linked Symbol := {}
  relocation : Relocation := .pending

namespace LinkedSymbols

def insert (t : LinkedSymbols) (s : Symbol) : LinkedSymbols × Option Diagnostic :=
  match t.store.find? s.name with
  | some _ => (t, some (.redeclaredLabel s.position s.name))
  | none => ({ t with store := t.store.insert s.name s }, none)

/-- The table that a call leaves, and why it was refused if it was. A mark is set through the map and the
moves go through the order. -/
def perform (t : LinkedSymbols) : SymbolTable.Call → LinkedSymbols × Option Diagnostic
  | .define name address isData position =>
    t.insert { name, address, kind := if isData then .data else .code, position }
  | .external name position => t.insert { name, address := 0, kind := .external, position }
  | .entry name position =>
    match t.store.find? name with
    | none => (t, some (.unknownLabel position name))
    | some s =>
      if s.kind = .external then (t, some (.externalEntry position name))
      else ({ t with store := t.store.modify name fun s => { s with isEntry := true } }, none)
  | .moveData offset =>
    match t.relocation with
    | .pending =>
      ({ store := t.store.modifyAll fun s =>
          if s.kind = .data then { s with address := s.address + offset } else s
         relocation := .dataMoved }, none)
    | .dataMoved | .done =>
      (t, some (.relocation (Text.of "relocate data symbols") (Text.of "already relocated")))
  | .moveAll base =>
    match t.relocation with
    | .pending =>
      (t, some (.relocation (Text.of "relocate symbols") (Text.of "data symbols not yet relocated")))
    | .dataMoved =>
      ({ store := t.store.modifyAll fun s =>
          if s.kind = .external then s else { s with address := s.address + base }
         relocation := .done }, none)
    | .done => (t, some (.relocation (Text.of "relocate symbols") (Text.of "already relocated")))
  | .lookup _ => (t, none)

def run (calls : List SymbolTable.Call) : LinkedSymbols :=
  calls.foldl (fun t c => (t.perform c).1) {}

/-- Both ways to a symbol lead to the symbols of the table. -/
structure Mirrors (t : LinkedSymbols) (table : SymbolTable) : Prop where
  store : t.store.Mirrors (·.name) table.symbols
  relocation : t.relocation = table.relocation

section
variable {t : LinkedSymbols} {table : SymbolTable} (h : t.Mirrors table)
include h

theorem Mirrors.insert (s : Symbol) :
    (t.insert s).2 = (table.add s).2 ∧ (t.insert s).1.Mirrors (table.add s).1 := by
  rw [LinkedSymbols.insert, SymbolTable.add, SymbolTable.find?, h.store.find?_eq]
  cases hs : table.symbols.find? (·.name = s.name) with
  | some _ => exact ⟨rfl, h⟩
  | none => exact ⟨rfl, h.store.insert hs, h.relocation⟩

/-- A call has the same answer, and leaves tables that are alike again. -/
theorem Mirrors.perform (c : SymbolTable.Call) :
    (t.perform c).2 = (table.perform c).2 ∧ (t.perform c).1.Mirrors (table.perform c).1 := by
  cases c with
  | define name address isData position => exact h.insert _
  | external name position => exact h.insert _
  | entry name position =>
      rw [LinkedSymbols.perform, SymbolTable.perform, SymbolTable.markExported, SymbolTable.find?, h.store.find?_eq]
      cases hs : table.symbols.find? (·.name = name) with
      | none => exact ⟨rfl, h⟩
      | some s =>
          by_cases hk : s.kind = .external
          · simp only [if_pos hk]
            exact ⟨trivial, h⟩
          · simp only [if_neg hk]
            exact ⟨trivial, h.store.modify (f := fun s => { s with isEntry := true }) (fun _ => rfl) name, h.relocation⟩
  | moveData offset =>
      rw [LinkedSymbols.perform, SymbolTable.perform, SymbolTable.moveData, h.relocation]
      cases hr : table.relocation with
      | pending => exact ⟨rfl, h.store.modifyAll (SymbolTable.Call.change_name (.moveData offset)), rfl⟩
      | dataMoved => exact ⟨rfl, h⟩
      | done => exact ⟨rfl, h⟩
  | moveAll base =>
      rw [LinkedSymbols.perform, SymbolTable.perform, SymbolTable.moveAll, h.relocation]
      cases hr : table.relocation with
      | pending => exact ⟨rfl, h⟩
      | dataMoved => exact ⟨rfl, h.store.modifyAll (SymbolTable.Call.change_name (.moveAll base)), rfl⟩
      | done => exact ⟨rfl, h⟩
  | lookup name => exact ⟨rfl, h⟩

end

theorem mirrors_run (calls : List SymbolTable.Call) : (run calls).Mirrors (SymbolTable.run calls) := by
  have hsteps : ∀ (calls : List SymbolTable.Call) {t : LinkedSymbols} {table : SymbolTable}, t.Mirrors table →
      (calls.foldl (fun t c => (t.perform c).1) t).Mirrors (calls.foldl SymbolTable.step table) := by
    intro calls
    induction calls with
    | nil => exact fun h => h
    | cons c calls ih => exact fun h => ih (h.perform c).2
  exact hsteps calls ⟨Linked.mirrors_empty _, rfl⟩

/-- Over every sequence of calls the map and the order of a symbol table stay in step, and what can be seen of
them is what the list of symbols shows: the symbols in their order, their number on either way, the symbol of
a name, and the answer to the next call. -/
theorem run_refines (calls : List SymbolTable.Call) :
    (∀ name s, (run calls).store.find? name = some s ↔ s ∈ (run calls).store.items ∧ s.name = name) ∧
      (run calls).store.index.size = (run calls).store.order.length ∧
      (run calls).store.items = (SymbolTable.run calls).symbols ∧
      (run calls).store.order.length = (SymbolTable.run calls).symbols.length ∧
      (∀ name, (run calls).store.find? name = (SymbolTable.run calls).find? name) ∧
      ∀ c, ((run calls).perform c).2 = ((SymbolTable.run calls).perform c).2 := by
  have h := mirrors_run calls
  obtain ⟨hfind, hsize, hitems, hlength, hlookup⟩ := h.store.in_step
  exact ⟨hfind, hsize, hitems, hlength, hlookup, fun c => (h.perform c).1⟩

end LinkedSymbols

/-! ## Macros -/

namespace Macro

/-- A macro library with a map and an order of its own. -/
structure LinkedLibrary where
  limit : Int
  store : Linked Definition := {}

namespace LinkedLibrary

/-- The definition that a header line opens. The map tells how many there are already. -/
def openBlock (l : LinkedLibrary) (line : Line) : Except Diagnostic Definition :=
  let position := headerSpan line
  if l.limit ≤ l.store.index.size then .error (.tooManyMacros position l.limit)
  else match readHeader (fun name => (l.store.find? name).isSome) line.text with
    | .ok (name, params) => .ok { name, params, position }
    | .error fault => .error (.macroHeader position fault.reason)

def scanFrom (l : LinkedLibrary) (kept : Array Line) (block : Option Definition) :
    List Line → LinkedLibrary × Except Diagnostic (List Line)
  | [] =>
    match block with
    | none => (l, .ok kept.toList)
    | some d => (l, .error (.missingEndm d.position d.name))
  | line :: lines =>
    match block with
    | some d =>
      if closesBlock line.text then scanFrom { l with store := l.store.insert d.name d } kept none lines
      else scanFrom l kept (some { d with body := d.body.push line.text }) lines
    | none =>
      if opensBlock line.text then
        match l.openBlock line with
        | .ok d => scanFrom l kept (some d) lines
        | .error e => (l, .error e)
      else scanFrom l (kept.push line) none lines

def scan (l : LinkedLibrary) (lines : List Line) : LinkedLibrary × Except Diagnostic (List Line) :=
  scanFrom l #[] none lines

def step (l : LinkedLibrary) : Library.Call → LinkedLibrary
  | .scan lines => (l.scan lines).1
  | .expand _ | .lookup _ => l

def run (limit : Int) (calls : List Library.Call) : LinkedLibrary :=
  calls.foldl step { limit := (Library.empty limit).limit }

/-- Both ways to a definition lead to the definitions of the library. -/
structure Mirrors (l : LinkedLibrary) (lib : Library) : Prop where
  store : l.store.Mirrors (·.name) lib.definitions
  limit : l.limit = lib.limit

section
variable {l : LinkedLibrary} {lib : Library} (h : l.Mirrors lib)
include h

theorem Mirrors.openBlock (line : Line) : l.openBlock line = lib.openBlock line := by
  have hfind : (fun name => (l.store.find? name).isSome) = fun name => (lib.find? name).isSome :=
    funext fun name => congrArg Option.isSome (h.store.find?_eq name)
  rw [LinkedLibrary.openBlock, h.limit, h.store.size, hfind]
  rfl

theorem Mirrors.add {d : Definition} (hfree : lib.find? d.name = none) :
    { l with store := l.store.insert d.name d }.Mirrors (lib.add d) :=
  ⟨h.store.insert hfree, h.limit⟩

end

/-- A block that is open has a name that is free, so it is not stored over another one. -/
theorem Mirrors.scanFrom {l : LinkedLibrary} {lib : Library} (h : l.Mirrors lib) {block : Option Definition}
    (hfree : ∀ d ∈ block, lib.find? d.name = none) (kept : Array Line) (lines : List Line) :
    (l.scanFrom kept block lines).2 = (lib.scanFrom kept block lines).2 ∧
      (l.scanFrom kept block lines).1.Mirrors (lib.scanFrom kept block lines).1 := by
  induction lines generalizing l lib kept block with
  | nil =>
      cases block with
      | none => exact ⟨rfl, h⟩
      | some d => exact ⟨rfl, h⟩
  | cons line lines ih =>
      have hnone : ∀ {lib : Library}, ∀ d ∈ (none : Option Definition), lib.find? d.name = none := by
        rintro _ _ ⟨⟩
      cases block with
      | some d =>
          have hd := hfree d rfl
          by_cases hc : closesBlock line.text = true
          · rw [LinkedLibrary.scanFrom, Library.scanFrom, if_pos hc, if_pos hc]
            exact ih (h.add hd) hnone kept
          · rw [LinkedLibrary.scanFrom, Library.scanFrom, if_neg hc, if_neg hc]
            refine ih h ?_ kept
            rintro d' ⟨⟩
            exact hd
      | none =>
          by_cases ho : opensBlock line.text = true
          · rw [LinkedLibrary.scanFrom, Library.scanFrom, if_pos ho, if_pos ho, h.openBlock]
            cases hopen : lib.openBlock line with
            | error e => exact ⟨rfl, h⟩
            | ok d =>
                refine ih h ?_ kept
                rintro d' ⟨⟩
                obtain ⟨-, -, hname, rfl⟩ := (Library.openBlock_eq_ok (b := ⟨line, [], none⟩)).mp hopen
                exact hname
          · rw [LinkedLibrary.scanFrom, Library.scanFrom, if_neg ho, if_neg ho]
            exact ih h hnone _

theorem Mirrors.scan {l : LinkedLibrary} {lib : Library} (h : l.Mirrors lib) (lines : List Line) :
    (l.scan lines).2 = (lib.scan lines).2 ∧ (l.scan lines).1.Mirrors (lib.scan lines).1 :=
  h.scanFrom (fun _ hd => by cases hd) #[] lines

theorem mirrors_run (limit : Int) (calls : List Library.Call) :
    (run limit calls).Mirrors (Library.run limit calls) := by
  have hsteps : ∀ (calls : List Library.Call) {l : LinkedLibrary} {lib : Library}, l.Mirrors lib →
      (calls.foldl step l).Mirrors (calls.foldl Library.step lib) := by
    intro calls
    induction calls with
    | nil => exact fun h => h
    | cons c calls ih =>
        intro l lib h
        cases c with
        | scan lines => exact ih (h.scan lines).2
        | expand lines => exact ih h
        | lookup name => exact ih h
  exact hsteps calls ⟨Linked.mirrors_empty _, rfl⟩

/-- Over every sequence of calls, files that cannot be read included, the map and the order of a macro library
stay in step, and what can be seen of them is what the list of definitions shows. -/
theorem run_refines (limit : Int) (calls : List Library.Call) :
    (∀ name d, (run limit calls).store.find? name = some d ↔ d ∈ (run limit calls).store.items ∧ d.name = name) ∧
      (run limit calls).store.index.size = (run limit calls).store.order.length ∧
      (run limit calls).store.items = (Library.run limit calls).definitions ∧
      (run limit calls).store.order.length = (Library.run limit calls).definitions.length ∧
      (∀ name, (run limit calls).store.find? name = (Library.run limit calls).find? name) ∧
      ∀ lines, ((run limit calls).scan lines).2 = ((Library.run limit calls).scan lines).2 := by
  have h := mirrors_run limit calls
  obtain ⟨hfind, hsize, hitems, hlength, hlookup⟩ := h.store.in_step
  exact ⟨hfind, hsize, hitems, hlength, hlookup, fun lines => (h.scan lines).1⟩

end LinkedLibrary

end Macro

end TwoPass
