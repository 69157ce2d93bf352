import TwoPass.Proofs.Symbols

/-!
Runs of a symbol table. A call that is accepted changes every symbol on its own and adds at most one
behind them, and a call that is refused changes nothing, so a symbol is its first definition with the
changes of the calls accepted since.
-/
namespace TwoPass

namespace SymbolTable

/-- What can be asked of a symbol table. -/
inductive Call where
  | define (name : Text) (address : Word) (isData : Bool) (position : Span)
  | external (name : Text) (position : Span)
  | entry (name : Text) (position : Span)
  | moveData (offset : Word)
  | moveAll (base : Word)
  | lookup (name : Text)
  deriving DecidableEq, Repr

/-- The table that a call leaves, and why it was refused if it was. -/
def perform (table : SymbolTable) : Call → SymbolTable × Option Diagnostic
  | .define name address isData position =>
    table.add { name, address, kind := if isData then .data else .code, position }
  | .external name position => table.addExternal name position
  | .entry name position => table.markExported name position
  | .moveData offset => table.moveData offset
  | .moveAll base => table.moveAll base
  | .lookup _ => (table, none)

/-- The table that the next call finds. -/
def step (table : SymbolTable) (c : Call) : SymbolTable :=
  (table.perform c).1

def run (calls : List Call) : SymbolTable :=
  calls.foldl step {}

/-- The calls of a sequence that a table accepts. -/
def acceptedFrom (table : SymbolTable) : List Call → List Call
  | [] => []
  | c :: calls =>
    (if (table.perform c).2 = none then [c] else []) ++ acceptedFrom (table.step c) calls

def accepted (calls : List Call) : List Call :=
  acceptedFrom {} calls

/-! ## One call -/

namespace Call

/-- The symbol that a call asks to add. -/
def symbol? : Call → Option Symbol
  | .define name address isData position =>
    some { name, address, kind := if isData then .data else .code, position }
  | .external name position => some { name, address := 0, kind := .external, position }
  | _ => none

def name? (c : Call) : Option Text :=
  c.symbol?.map (·.name)

/-- What a call does to a symbol of the table. -/
def change : Call → Symbol → Symbol
  | .entry name _, s => if s.name = name then { s with isEntry := true } else s
  | .moveData offset, s => if s.kind = .data then { s with address := s.address + offset } else s
  | .moveAll base, s => if s.kind = .external then s else { s with address := s.address + base }
  | _, s => s

def relocation : Call → Relocation → Relocation
  | .moveData _, _ => .dataMoved
  | .moveAll _, _ => .done
  | _, r => r

def Allowed (table : SymbolTable) : Call → Prop
  | .define name _ _ _ => table.find? name = none
  | .external name _ => table.find? name = none
  | .entry name _ => ∃ s, table.find? name = some s ∧ s.kind ≠ .external
  | .moveData _ => table.relocation = .pending
  | .moveAll _ => table.relocation = .dataMoved
  | .lookup _ => True

/-- The table after a call that is accepted. -/
def after (table : SymbolTable) (c : Call) : SymbolTable :=
  { symbols := table.symbols.map c.change ++ c.symbol?.toList
    relocation := c.relocation table.relocation }

@[simp] theorem change_name (c : Call) (s : Symbol) : (c.change s).name = s.name := by
  cases c <;> simp only [change] <;> split <;> rfl

@[simp] theorem change_kind (c : Call) (s : Symbol) : (c.change s).kind = s.kind := by
  cases c <;> simp only [change] <;> split <;> simp_all

@[simp] theorem change_position (c : Call) (s : Symbol) : (c.change s).position = s.position := by
  cases c <;> simp only [change] <;> split <;> rfl

theorem isEntry_symbol {c : Call} {s : Symbol} (h : c.symbol? = some s) : s.isEntry = false := by
  cases c <;> cases h <;> rfl

theorem find?_of_allowed {table : SymbolTable} {c : Call} {s : Symbol} (h : c.Allowed table)
    (hs : c.symbol? = some s) : table.find? s.name = none := by
  cases c <;> cases hs <;> exact h

end Call

/-- Both calls that add a symbol add it to the end if its name is free. -/
theorem perform_symbol {c : Call} {s : Symbol} (hs : c.symbol? = some s) (table : SymbolTable) :
    c.Allowed table ∧ table.perform c = (c.after table, none) ∨
      ¬ c.Allowed table ∧ ∃ d, table.perform c = (table, some d) := by
  have hsame : table.symbols.map c.change = table.symbols :=
    List.map_id'' (by cases c <;> cases hs <;> exact fun _ => rfl) table.symbols
  have hallowed : c.Allowed table ↔ table.find? s.name = none := by cases c <;> cases hs <;> rfl
  have hperform : table.perform c = table.add s := by cases c <;> cases hs <;> rfl
  have hafter : c.after table = { table with symbols := table.symbols ++ [s] } := by
    rw [Call.after, hsame, hs]
    cases c <;> cases hs <;> rfl
  rw [hallowed, hperform, hafter]
  by_cases h : table.find? s.name = none
  · exact Or.inl ⟨h, add_of_free h⟩
  · exact Or.inr ⟨h, _, add_of_taken h⟩

/-- A call is accepted if it is allowed, and then the table is the one after it. One that is refused leaves
the table as it was. -/
theorem perform_cases (table : SymbolTable) (c : Call) :
    c.Allowed table ∧ table.perform c = (c.after table, none) ∨
      ¬ c.Allowed table ∧ ∃ d, table.perform c = (table, some d) := by
  cases c with
  | define name address isData position => exact perform_symbol rfl table
  | external name position => exact perform_symbol rfl table
  | entry name position =>
      cases hf : table.find? name with
      | none => simp [perform, markExported, hf, Call.Allowed]
      | some s =>
          by_cases hk : s.kind = .external
          · simp [perform, markExported, hf, hk, Call.Allowed]
          · simp [perform, markExported, hf, hk, Call.Allowed, Call.after, Call.change, Call.symbol?, Call.relocation]
  | moveData offset =>
      cases hr : table.relocation <;>
        simp [perform, moveData, hr, Call.Allowed, Call.after, Call.change, Call.symbol?, Call.relocation]
  | moveAll base =>
      cases hr : table.relocation <;>
        simp [perform, moveAll, hr, Call.Allowed, Call.after, Call.change, Call.symbol?, Call.relocation]
  | lookup name =>
      have hsame := List.map_id'' (f := (Call.lookup name).change) (fun _ => rfl) table.symbols
      exact Or.inl ⟨trivial, by simp [perform, Call.after, hsame, Call.symbol?, Call.relocation]⟩

/-- A call that is refused leaves the table as it was. -/
theorem fst_of_refused {table : SymbolTable} {c : Call} {d : Diagnostic} (h : (table.perform c).2 = some d) :
    (table.perform c).1 = table := by
  rcases perform_cases table c with ⟨-, hc⟩ | ⟨-, _, hc⟩
  · rw [hc] at h
    cases h
  · rw [hc]

/-! ## Whole runs -/

theorem run_concat (calls : List Call) (c : Call) : run (calls ++ [c]) = (run calls).step c := by
  simp [run]

theorem acceptedFrom_append (table : SymbolTable) (first second : List Call) :
    acceptedFrom table (first ++ second) =
      acceptedFrom table first ++ acceptedFrom (first.foldl step table) second := by
  induction first generalizing table with
  | nil => rfl
  | cons c first ih => simp [acceptedFrom, ih]

/-- What holds of a new table and is kept by every accepted and every refused call holds of every run. -/
theorem run_induction {P : List Call → List Call → SymbolTable → Prop} (start : P [] [] {})
    (accept : ∀ calls (c : Call), P calls (accepted calls) (run calls) → c.Allowed (run calls) →
      P (calls ++ [c]) (accepted calls ++ [c]) (c.after (run calls)))
    (refuse : ∀ calls (c : Call), P calls (accepted calls) (run calls) → ¬ c.Allowed (run calls) →
      P (calls ++ [c]) (accepted calls) (run calls))
    (calls : List Call) : P calls (accepted calls) (run calls) := by
  induction calls using List.reverseRecOn with
  | nil => exact start
  | append_singleton calls c ih =>
      have hlog : accepted (calls ++ [c]) = accepted calls ++ acceptedFrom (run calls) [c] :=
        acceptedFrom_append {} calls [c]
      rw [run_concat, hlog]
      rcases perform_cases (run calls) c with ⟨h, hc⟩ | ⟨h, d, hc⟩
      · simpa [acceptedFrom, step, hc] using accept calls c ih h
      · simpa [acceptedFrom, step, hc] using refuse calls c ih h

/-! ## Names -/

theorem names_after (table : SymbolTable) (c : Call) : (c.after table).names = table.names ++ c.name?.toList := by
  cases hs : c.symbol? <;> simp [names, Call.after, Call.name?, hs, Function.comp_def]

section
variable {table : SymbolTable} {c : Call} {name : Text} (hn : c.name? = some name)
include hn

theorem not_mem_of_allowed (h : c.Allowed table) : name ∉ table.names := by
  obtain ⟨s, hs, rfl⟩ := Option.map_eq_some_iff.mp hn
  exact find?_eq_none_iff.mp (Call.find?_of_allowed h hs)

theorem mem_of_not_allowed (h : ¬ c.Allowed table) : name ∈ table.names := by
  by_contra hm
  have hfree := find?_eq_none_iff.mpr hm
  cases c <;> cases hn <;> exact h hfree

end

theorem nodup_run (calls : List Call) : (run calls).names.Nodup := by
  refine run_induction (P := fun _ _ table => table.names.Nodup) List.nodup_nil ?_ (fun _ _ h _ => h) calls
  intro calls c h ha
  rw [names_after]
  cases hn : c.name? with
  | none => simpa using h
  | some name =>
      refine List.nodup_append'.mpr ⟨h, List.nodup_singleton name, ?_⟩
      exact List.disjoint_singleton.mpr (not_mem_of_allowed hn ha)

theorem names_accepted (calls : List Call) : (run calls).names = (accepted calls).filterMap Call.name? := by
  refine run_induction (P := fun _ log table => table.names = log.filterMap Call.name?) rfl ?_
    (fun _ _ h _ => h) calls
  intro calls c h _
  cases hn : c.name? <;> simp [names_after, h, hn]

/-- The names stand in the order in which they were first asked for. -/
theorem names_run (calls : List Call) : (run calls).names = (calls.filterMap Call.name?).eraseDups := by
  have hconcat : ∀ (known : List Text) (name : Text),
      (known ++ [name]).eraseDups = known.eraseDups ++ if name ∈ known then [] else [name] := by
    intro known name
    by_cases h : name ∈ known <;> simp [List.eraseDups_append, List.removeAll, h, List.eraseDups_cons]
  refine run_induction (P := fun calls _ table => table.names = (calls.filterMap Call.name?).eraseDups)
    rfl ?_ ?_ calls
  · intro calls c h ha
    cases hn : c.name? with
    | none => simp [names_after, h, hn]
    | some name =>
        have hnew : name ∉ calls.filterMap Call.name? := by
          rw [← List.mem_eraseDups, ← h]
          exact not_mem_of_allowed hn ha
        simp only [names_after, h, hn, List.filterMap_append, List.filterMap_cons, List.filterMap_nil, hconcat,
          if_neg hnew, Option.toList_some]
  · intro calls c h ha
    cases hn : c.name? with
    | none => simp [h, hn]
    | some name =>
        have hold : name ∈ calls.filterMap Call.name? := by
          rw [← List.mem_eraseDups, ← h]
          exact mem_of_not_allowed hn ha
        simp only [h, hn, List.filterMap_append, List.filterMap_cons, List.filterMap_nil, hconcat, if_pos hold,
          List.append_nil]

/-! ## Symbols -/

/-- A symbol after an accepted call is one from before it or the one that the call adds. -/
theorem mem_after {table : SymbolTable} {c : Call} {s : Symbol} :
    s ∈ (c.after table).symbols ↔ (∃ t ∈ table.symbols, c.change t = s) ∨ c.symbol? = some s := by
  simp [Call.after]

/-- The first call for a name defines its symbol, whatever calls for the name come later. -/
theorem first_definition (calls : List Call) :
    ∀ s ∈ (run calls).symbols, ∃ d, (calls.filterMap Call.symbol?).find? (·.name = s.name) = some d ∧
      s.kind = d.kind ∧ s.position = d.position := by
  refine run_induction (P := fun calls _ table => ∀ s ∈ table.symbols,
    ∃ d, (calls.filterMap Call.symbol?).find? (·.name = s.name) = some d ∧ s.kind = d.kind ∧
      s.position = d.position) (by simp) ?_ ?_ calls
  · intro calls c h ha s hs
    rcases mem_after.mp hs with ⟨t, ht, rfl⟩ | hs
    · obtain ⟨d, hd, hk, hp⟩ := h t ht
      refine ⟨d, ?_, by simpa using hk, by simpa using hp⟩
      rw [Call.change_name, List.filterMap_append, List.find?_append, hd, Option.some_or]
    · have hname : c.name? = some s.name := by simp [Call.name?, hs]
      have hnew : (calls.filterMap Call.symbol?).find? (·.name = s.name) = none := by
        have hnot := not_mem_of_allowed hname ha
        rw [names_run, List.mem_eraseDups] at hnot
        rw [List.find?_eq_none]
        intro t ht
        obtain ⟨c', hc', ht⟩ := List.mem_filterMap.mp ht
        simpa using fun he => hnot (List.mem_filterMap.mpr ⟨c', hc', by simp [Call.name?, ht, he]⟩)
      exact ⟨s, by simp [List.find?_append, hnew, hs], rfl, rfl⟩
  · intro calls c h _ s hs
    obtain ⟨d, hd, hkept⟩ := h s hs
    exact ⟨d, by rw [List.filterMap_append, List.find?_append, hd, Option.some_or], hkept⟩

theorem external_run (calls : List Call) :
    ∀ s ∈ (run calls).symbols, s.kind = .external → s.address = 0 ∧ s.isEntry = false := by
  refine run_induction (P := fun _ _ table => ∀ s ∈ table.symbols, s.kind = .external →
    s.address = 0 ∧ s.isEntry = false) (by simp) ?_ (fun _ _ h _ => h) calls
  intro calls c h ha s hs hk
  rcases mem_after.mp hs with ⟨t, ht, rfl⟩ | hs
  · rw [Call.change_kind] at hk
    have hsame : c.change t = t := by
      cases c with
      | entry name position =>
          -- the name of an external is never marked
          obtain ⟨u, hu, hne⟩ := ha
          have hname : t.name ≠ name := by
            rintro rfl
            rw [(find?_iff_of_nodup (nodup_run calls)).mpr ⟨ht, rfl⟩] at hu
            cases hu
            exact hne hk
          simp [Call.change, hname]
      | _ => simp [Call.change, hk]
    rw [hsame]
    exact h t ht hk
  · cases c <;> cases hs
    · split at hk <;> cases hk
    · exact ⟨rfl, rfl⟩

theorem mem_names_of_entry (calls : List Call) :
    ∀ {name position}, Call.entry name position ∈ accepted calls → name ∈ (run calls).names := by
  refine run_induction (P := fun _ log table => ∀ {name position}, Call.entry name position ∈ log →
    name ∈ table.names) (by simp) ?_ (fun _ _ h _ => h) calls
  intro calls c h ha name position hm
  rw [names_after]
  apply List.mem_append_left
  rcases List.mem_append.mp hm with hm | hm
  · exact h hm
  · rw [← List.mem_singleton.mp hm] at ha
    obtain ⟨s, hs, -⟩ := ha
    by_contra hn
    rw [find?_eq_none_iff.mpr hn] at hs
    cases hs

/-- A symbol is exported if a call for its name was accepted. -/
theorem isEntry_run (calls : List Call) :
    ∀ s ∈ (run calls).symbols, s.isEntry = true ↔ ∃ position, Call.entry s.name position ∈ accepted calls := by
  refine run_induction (P := fun _ log table => ∀ s ∈ table.symbols,
    s.isEntry = true ↔ ∃ position, Call.entry s.name position ∈ log) (by simp) ?_ (fun _ _ h _ => h) calls
  intro calls c h ha s hs
  rcases mem_after.mp hs with ⟨t, ht, rfl⟩ | hs
  · have hold := h t ht
    rw [Call.change_name]
    cases c with
    | entry name position =>
        by_cases hn : t.name = name
        · simp [Call.change, hn]
        · simp [Call.change, hn, hold]
    | _ => simp [Call.change, apply_ite Symbol.isEntry, hold]
  · have hname : c.name? = some s.name := by simp [Call.name?, hs]
    have hnone : ∀ position, Call.entry s.name position ∉ accepted calls ++ [c] := by
      intro position hm
      rcases List.mem_append.mp hm with hm | hm
      · exact not_mem_of_allowed hname ha (mem_names_of_entry calls hm)
      · rw [← List.mem_singleton.mp hm] at hname
        cases hname
    simp [Call.isEntry_symbol hs, hnone]

/-- A symbol table stays intact over every sequence of calls. Names are unique, so a lookup gives the
symbol listed under the name or nothing; there are as many symbols as distinct names were accepted, in
the order in which they were first asked for; the entries are the symbols for which an export was
accepted; an external has address 0 and is no entry; and a symbol keeps the kind and the position of the
first call for its name. A call that is refused leaves the table as it was, and all that comes later. -/
theorem integrity_of_run (calls : List Call) :
    ((run calls).symbols.map (·.name)).Nodup ∧
      (∀ name s, (run calls).find? name = some s ↔ s ∈ (run calls).symbols ∧ s.name = name) ∧
      (run calls).symbols.length = ((accepted calls).filterMap Call.name?).toFinset.card ∧
      (run calls).symbols.map (·.name) = (calls.filterMap Call.name?).eraseDups ∧
      (run calls).entries = (run calls).symbols.filter (·.isEntry) ∧
      (∀ s ∈ (run calls).symbols,
        s.isEntry = true ↔ ∃ position, Call.entry s.name position ∈ accepted calls) ∧
      (∀ s ∈ (run calls).symbols, s.kind = .external → s.address = 0 ∧ s.isEntry = false) ∧
      (∀ s ∈ (run calls).symbols, ∃ d, (calls.filterMap Call.symbol?).find? (·.name = s.name) = some d ∧
        s.kind = d.kind ∧ s.position = d.position) ∧
      ∀ c d, ((run calls).perform c).2 = some d →
        ((run calls).perform c).1 = run calls ∧ ∀ later, run (calls ++ c :: later) = run (calls ++ later) := by
  have hcount : (run calls).symbols.length = ((accepted calls).filterMap Call.name?).toFinset.card := by
    rw [List.toFinset_card_of_nodup (names_accepted calls ▸ nodup_run calls), ← names_accepted, names,
      List.length_map]
  refine ⟨nodup_run calls, fun name s => find?_iff_of_nodup (nodup_run calls), hcount, names_run calls, rfl,
    isEntry_run calls, external_run calls, first_definition calls, ?_⟩
  intro c d hc
  have hsame := fst_of_refused hc
  refine ⟨hsame, fun later => ?_⟩
  rw [run, run, List.foldl_append, List.foldl_append]
  exact congrArg (fun table => later.foldl step table) hsame

/-- Calls that are accepted, and between them calls of every kind that are refused. -/
def busyCalls : List Call :=
  [.external (Text.of "X") ⟨1, 1, 1⟩, .define (Text.of "A") 5 false ⟨2, 1, 1⟩, .define (Text.of "D") 2 true ⟨3, 1, 1⟩,
    .moveAll 100, .entry (Text.of "X") ⟨4, 1, 1⟩, .entry (Text.of "A") ⟨5, 1, 1⟩,
    .define (Text.of "A") 9 true ⟨6, 1, 1⟩, .moveData 7, .define (Text.of "L") 1 true ⟨7, 1, 1⟩, .moveData 3,
    .moveAll 100, .moveAll 100]

theorem busyCalls_intact :
    (run busyCalls).symbols.map (·.name) = [Text.of "X", Text.of "A", Text.of "D", Text.of "L"] ∧
      ((run busyCalls).perform (.moveData 3)).2 =
        some (.relocation (Text.of "relocate data symbols") (Text.of "already relocated")) ∧
      ((run busyCalls).perform (.moveData 3)).1 = run busyCalls ∧
      run (busyCalls ++ [.moveData 3, .entry (Text.of "L") ⟨8, 1, 1⟩]) =
        run (busyCalls ++ [.entry (Text.of "L") ⟨8, 1, 1⟩]) := by
  obtain ⟨-, -, -, hnames, -, -, -, -, hrefused⟩ := integrity_of_run busyCalls
  have hno : ((run busyCalls).perform (.moveData 3)).2 =
      some (.relocation (Text.of "relocate data symbols") (Text.of "already relocated")) := by decide +kernel
  obtain ⟨hsame, hlater⟩ := hrefused _ _ hno
  refine ⟨?_, hno, hsame, hlater _⟩
  rw [hnames]
  decide +kernel

/-! ## Moves -/

namespace Call

def isMove : Call → Bool
  | .moveData _ | .moveAll _ => true
  | _ => false

def offset? : Call → Option Word
  | .moveData offset => some offset
  | _ => none

def base? : Call → Option Word
  | .moveAll base => some base
  | _ => none

/-- What a sequence of calls does to a symbol of the table. -/
def changeAll (calls : List Call) (s : Symbol) : Symbol :=
  calls.foldl (fun s c => c.change s) s

theorem changeAll_concat (calls : List Call) (c : Call) (s : Symbol) :
    changeAll (calls ++ [c]) s = c.change (changeAll calls s) := by
  simp [changeAll]

@[simp] theorem changeAll_name (calls : List Call) (s : Symbol) : (changeAll calls s).name = s.name := by
  induction calls using List.reverseRecOn with
  | nil => rfl
  | append_singleton calls c ih => rw [changeAll_concat, change_name, ih]

@[simp] theorem changeAll_kind (calls : List Call) (s : Symbol) : (changeAll calls s).kind = s.kind := by
  induction calls using List.reverseRecOn with
  | nil => rfl
  | append_singleton calls c ih => rw [changeAll_concat, change_kind, ih]

/-- An address grows by the moves that concern it. -/
theorem changeAll_address {s : Symbol} (hs : s.kind ≠ .external) (calls : List Call) :
    (changeAll calls s).address =
      s.address + (if s.kind = .data then (calls.filterMap offset?).sum else 0) + (calls.filterMap base?).sum := by
  induction calls using List.reverseRecOn with
  | nil => simp [changeAll]
  | append_singleton calls c ih =>
      rw [changeAll_concat]
      cases c with
      | moveData offset =>
          by_cases hd : s.kind = .data
          · simp [change, hd, ih, offset?, base?, List.filterMap_cons, List.sum_append]
            ac_rfl
          · simp [change, hd, ih, base?, List.filterMap_cons]
      | moveAll base =>
          simp [change, hs, ih, offset?, base?, List.filterMap_cons, List.sum_append]
          ac_rfl
      | entry name position =>
          simp [change, apply_ite Symbol.address, ih, offset?, base?, List.filterMap_cons]
      | _ => simp [change, ih, offset?, base?, List.filterMap_cons]

end Call

/-- The moves that a table has accepted, by how far it has been moved. -/
def Moved (moves : List Call) : Relocation → Prop
  | .pending => moves = []
  | .dataMoved => ∃ d, moves = [.moveData d]
  | .done => ∃ d b, moves = [.moveData d, .moveAll b]

theorem moved_run (calls : List Call) : Moved ((accepted calls).filter Call.isMove) (run calls).relocation := by
  refine run_induction (P := fun _ log table => Moved (log.filter Call.isMove) table.relocation) rfl ?_
    (fun _ _ h _ => h) calls
  intro calls c h ha
  rw [List.filter_append]
  cases c with
  | moveData offset =>
      have hr : (run calls).relocation = .pending := ha
      rw [hr] at h
      exact ⟨offset, by rw [h]; rfl⟩
  | moveAll base =>
      have hr : (run calls).relocation = .dataMoved := ha
      rw [hr] at h
      obtain ⟨d, hd⟩ := h
      exact ⟨d, base, by rw [hd]; rfl⟩
  | _ => simpa [Call.after, Call.relocation, Call.isMove] using h

theorem Moved.prefix_of {moves : List Call} {r : Relocation} (h : Moved moves r) :
    ∃ d b, moves <+: [.moveData d, .moveAll b] := by
  cases r with
  | pending => exact ⟨0, 0, by rw [show moves = [] from h]; exact List.nil_prefix⟩
  | dataMoved =>
      obtain ⟨d, rfl⟩ := h
      exact ⟨d, 0, [.moveAll 0], rfl⟩
  | done =>
      obtain ⟨d, b, rfl⟩ := h
      exact ⟨d, b, List.prefix_rfl⟩

/-- A symbol is its definition with the changes of all calls accepted since. -/
theorem mem_run (calls : List Call) :
    ∀ s ∈ (run calls).symbols, ∃ before since, ∃ c : Call, ∃ d, accepted calls = before ++ c :: since ∧
      c.symbol? = some d ∧ Call.changeAll since d = s := by
  refine run_induction (P := fun _ log table => ∀ s ∈ table.symbols, ∃ before since, ∃ c : Call, ∃ d,
    log = before ++ c :: since ∧ c.symbol? = some d ∧ Call.changeAll since d = s) (by simp) ?_
    (fun _ _ h _ => h) calls
  intro calls c h _ s hs
  rcases mem_after.mp hs with ⟨t, ht, rfl⟩ | hs
  · obtain ⟨before, since, c', d, hlog, hd, rfl⟩ := h t ht
    exact ⟨before, since ++ [c], c', d, by simp [hlog], hd, Call.changeAll_concat since c d⟩
  · exact ⟨accepted calls, [], c, s, rfl, hs, rfl⟩

theorem filterMap_moves {f : Call → Option Word} (hf : ∀ c, c.isMove = false → f c = none) (log : List Call) :
    (log.filter Call.isMove).filterMap f = log.filterMap f := by
  rw [List.filterMap_filter]
  congr 1
  funext c
  cases hc : c.isMove <;> simp [hf c, hc]

/-- Where each move is made at most once, moving by all offsets of a log is moving by the one it has. -/
theorem sum_moves {log : List Call} {d b : Word}
    (h : (log.filter Call.isMove).Sublist [.moveData d, .moveAll b]) :
    (log.filterMap Call.offset?).sum = (if .moveData d ∈ log then d else 0) ∧
      (log.filterMap Call.base?).sum = if .moveAll b ∈ log then b else 0 := by
  have hd : .moveData d ∈ log ↔ .moveData d ∈ log.filter Call.isMove := by simp [Call.isMove]
  have hb : .moveAll b ∈ log ↔ .moveAll b ∈ log.filter Call.isMove := by simp [Call.isMove]
  rw [← filterMap_moves (by intro c hc; cases c <;> simp_all [Call.isMove, Call.offset?]),
    ← filterMap_moves (f := Call.base?) (by intro c hc; cases c <;> simp_all [Call.isMove, Call.base?])]
  simp only [hd, hb]
  generalize log.filter Call.isMove = moves at h ⊢
  have hcases : moves = [] ∨ moves = [.moveAll b] ∨ moves = [.moveData d] ∨ moves = [.moveData d, .moveAll b] := by
    simpa using List.mem_sublists'.mpr h
  rcases hcases with rfl | rfl | rfl | rfl <;> simp [Call.offset?, Call.base?, List.filterMap_cons]

/-- Moves are accepted once each, data symbols first, and an address is the one given in the definition
of its symbol, moved by the data move if the symbol is a data symbol and was defined before that move,
and by the other move if it was defined before that one. -/
theorem moves_once_in_order (calls : List Call) :
    ∃ d b, (accepted calls).filter Call.isMove <+: [.moveData d, .moveAll b] ∧
      ∀ s ∈ (run calls).symbols, s.kind ≠ .external → ∃ before address position since,
        accepted calls = before ++ .define s.name address (s.kind = .data) position :: since ∧
        s.address = address + (if s.kind = .data ∧ .moveData d ∈ since then d else 0) +
          (if .moveAll b ∈ since then b else 0) := by
  obtain ⟨d, b, hmoves⟩ := (moved_run calls).prefix_of
  refine ⟨d, b, hmoves, ?_⟩
  intro s hs hkind
  obtain ⟨before, since, c, s₀, hlog, hc, rfl⟩ := mem_run calls s hs
  rw [Call.changeAll_kind] at hkind
  cases c with
  | define name address isData position =>
      cases hc
      have hsince : (since.filter Call.isMove).Sublist [.moveData d, .moveAll b] := by
        refine (List.Sublist.filter _ ?_).trans hmoves.sublist
        rw [hlog]
        exact (List.sublist_cons_self _ _).trans (List.sublist_append_right _ _)
      obtain ⟨hd, hb⟩ := sum_moves hsince
      refine ⟨before, address, position, since, ?_, ?_⟩
      · rw [hlog]
        cases isData <;> simp
      · rw [Call.changeAll_address hkind, hd, hb]
        cases isData <;> simp
  | external name position =>
      cases hc
      exact absurd rfl hkind
  | _ => cases hc

theorem busyCalls_moved :
    (accepted busyCalls).filter Call.isMove = [.moveData 7, .moveAll 100] ∧
      ∃ d b before address position since,
        accepted busyCalls = before ++ .define (Text.of "D") address true position :: since ∧
        (109 : Word) = address + (if .moveData d ∈ since then d else 0) + if .moveAll b ∈ since then b else 0 := by
  obtain ⟨d, b, -, hall⟩ := moves_once_in_order busyCalls
  have hmem : (⟨Text.of "D", 109, .data, false, ⟨3, 1, 1⟩⟩ : Symbol) ∈ (run busyCalls).symbols := by decide +kernel
  obtain ⟨before, address, position, since, hlog, haddress⟩ := hall _ hmem (by decide)
  exact ⟨by decide +kernel, d, b, before, address, position, since, by simpa using hlog, by simpa using haddress⟩

end SymbolTable

end TwoPass
