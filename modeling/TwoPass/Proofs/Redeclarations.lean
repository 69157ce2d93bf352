import TwoPass.Proofs.Labels
import TwoPass.Proofs.Spacing

/-!
Names that are defined more than once. The first definition counts and every later one is reported, and
but for the report a line under a taken label does what it does without the label.
-/
namespace TwoPass

/-! ## Reports -/

namespace Diagnostic

def isRedeclared : Diagnostic → Bool
  | .redeclaredLabel .. => true
  | _ => false

theorem isRedeclared_of_isPlain {d : Diagnostic} (h : d.isPlain = true) : d.isRedeclared = false := by
  cases d <;> simp_all [isPlain, isRedeclared]

theorem filter_isRedeclared_of_plain {ds : List Diagnostic} (h : ∀ d ∈ ds, d.isPlain = true) :
    ds.filter isRedeclared = [] := by
  rw [List.filter_eq_nil_iff]
  intro d hd
  rw [isRedeclared_of_isPlain (h d hd)]
  exact Bool.false_ne_true

end Diagnostic

namespace Symbol

theorem relocate_position (base codeSize : Word) (s : Symbol) : (s.relocate base codeSize).position = s.position := by
  unfold relocate; split <;> rfl

/-- The report of a definition under a name that is taken. -/
def redeclared (s : Symbol) : Diagnostic :=
  .redeclaredLabel s.position s.name

/-- The definitions of names that are in `seen`, or that stand behind another definition of the name. -/
def repeats (seen : List Text) : List Symbol → List Symbol
  | [] => []
  | s :: symbols =>
    if seen.contains s.name then s :: repeats seen symbols else repeats (seen ++ [s.name]) symbols

end Symbol

namespace SymbolTable

theorem declareAll_cons (table : SymbolTable) (s : Symbol) (symbols : List Symbol) :
    table.declareAll (s :: symbols) = (table.declare s).declareAll symbols := rfl

section
variable {table : SymbolTable} {s : Symbol}

theorem declareAll_cons_of_taken (h : table.find? s.name ≠ none) (symbols : List Symbol) :
    table.declareAll (s :: symbols) = table.declareAll symbols := by
  rw [declareAll_cons, declare_of_taken h]

theorem clashes_cons_of_taken (h : table.find? s.name ≠ none) (symbols : List Symbol) :
    table.clashes (s :: symbols) = s.redeclared :: table.clashes symbols := by
  rw [clashes, declare_of_taken h, if_pos (Option.isSome_iff_ne_none.mpr h)]
  rfl

theorem clashes_cons_of_free (h : table.find? s.name = none) (symbols : List Symbol) :
    table.clashes (s :: symbols) = (table.declare s).clashes symbols := by
  rw [clashes, h]
  rfl

theorem names_declare_of_free (h : table.find? s.name = none) :
    (table.declare s).names = table.names ++ [s.name] := by
  rw [declare_of_free h, names, List.map_append]
  rfl

theorem repeats_cons_of_taken (h : table.find? s.name ≠ none) (symbols : List Symbol) :
    Symbol.repeats table.names (s :: symbols) = s :: Symbol.repeats table.names symbols := by
  rw [Symbol.repeats, if_pos (List.contains_iff_mem.mpr (not_not.mp (mt find?_eq_none_iff.mpr h)))]

theorem repeats_cons_of_free (h : table.find? s.name = none) (symbols : List Symbol) :
    Symbol.repeats table.names (s :: symbols) = Symbol.repeats (table.declare s).names symbols := by
  rw [Symbol.repeats, if_neg (mt List.contains_iff_mem.mp (find?_eq_none_iff.mp h)), names_declare_of_free h]

end

/-- Each repeated definition is reported. -/
theorem clashes_eq (table : SymbolTable) (symbols : List Symbol) :
    table.clashes symbols = (Symbol.repeats table.names symbols).map Symbol.redeclared := by
  induction symbols generalizing table with
  | nil => rfl
  | cons s symbols ih =>
      by_cases h : table.find? s.name = none
      · rw [clashes_cons_of_free h, repeats_cons_of_free h, ih]
      · rw [clashes_cons_of_taken h, repeats_cons_of_taken h, ih, List.map_cons]

/-- A definition is either repeated or makes a symbol. -/
theorem length_repeats (table : SymbolTable) (symbols : List Symbol) :
    (Symbol.repeats table.names symbols).length + (table.declareAll symbols).symbols.length =
      table.symbols.length + symbols.length := by
  induction symbols generalizing table with
  | nil => simp [Symbol.repeats, declareAll]
  | cons s symbols ih =>
      rw [List.length_cons]
      by_cases h : table.find? s.name = none
      · have hlength : (table.declare s).symbols.length = table.symbols.length + 1 := by
          rw [declare_of_free h, List.length_append]
          rfl
        rw [repeats_cons_of_free h, declareAll_cons, ih, hlength]
        omega
      · rw [repeats_cons_of_taken h, declareAll_cons_of_taken h, List.length_cons, Nat.add_right_comm, ih]
        omega

theorem filter_clashes (table : SymbolTable) (symbols : List Symbol) :
    (table.clashes symbols).filter Diagnostic.isRedeclared = table.clashes symbols := by
  rw [clashes_eq, List.filter_eq_self]
  intro d hd
  obtain ⟨s, -, rfl⟩ := List.mem_map.mp hd
  rfl

end SymbolTable

/-- The first pass reports the repeated definitions and no other line so. -/
theorem Layout.redeclared_ofLines (lines : List Line) :
    (ofLines lines).errors.toList.filter Diagnostic.isRedeclared =
      SymbolTable.clashes {} (Statement.definitions (Statement.ofLines lines)) := by
  induction lines using List.reverseRecOn with
  | nil => rfl
  | append_singleton lines line ih =>
      rw [ofLines_append_singleton]
      unfold addLine
      cases hp : line.parse with
      | error d =>
          have hss : Statement.ofLines (lines ++ [line]) = Statement.ofLines lines := by
            simp [Statement.ofLines, Line.statement?, hp]
          have hplain := Diagnostic.isRedeclared_of_isPlain (Line.parse_fault hp)
          simp [hss, fail, ih, hplain]
      | ok parsed =>
          cases parsed with
          | statement s =>
              have hss : Statement.ofLines (lines ++ [line]) = Statement.ofLines lines ++ [s] := by
                simp [Statement.ofLines, Line.statement?, hp]
              have hl := holds_ofLines lines
              have hown : s.ownFaults.filter Diagnostic.isRedeclared = [] :=
                Diagnostic.filter_isRedeclared_of_plain fun d hd => Statement.ownFaults_fault hd
              simp only [addStatement_eq, Array.toList_appendList, List.filter_append, ih, SymbolTable.filter_clashes,
                hown, List.append_nil]
              rw [hss, Statement.definitions_append_singleton, SymbolTable.clashes_append, ← hl.symbols, hl.place s]
          | _ => simpa [Statement.ofLines, Line.statement?, hp] using ih

namespace Assembly

/-- The definitions that a source attempts, in order: the label of a line before the name it declares. -/
def attempts (lines : List Line) : List Symbol :=
  Statement.definitions (Statement.ofLines lines)

variable {lines : List Line}

theorem redeclared_errors (hfits : Statement.Fits (Statement.ofLines lines)) :
    (ofLines lines).errors.filter Diagnostic.isRedeclared =
      (Symbol.repeats [] (attempts lines)).map Symbol.redeclared := by
  have hplain : ((Placed.list (Statement.ofLines lines)).flatMap
      (Placed.faults (Layout.finalTable (Statement.ofLines lines)))).filter Diagnostic.isRedeclared = [] := by
    apply Diagnostic.filter_isRedeclared_of_plain
    intro d hd
    obtain ⟨p, -, hp⟩ := List.mem_flatMap.mp hd
    exact Placed.faults_fault hp
  rw [errors_ofLines hfits, List.filter_append, hplain, List.append_nil, Layout.redeclared_ofLines,
    SymbolTable.clashes_eq]
  rfl

theorem length_symbols (hfits : Statement.Fits (Statement.ofLines lines)) :
    (ofLines lines).program.symbols.symbols.length =
      (SymbolTable.declareAll {} (attempts lines)).symbols.length := by
  rw [program_ofLines hfits]
  simp [SymbolTable.mark, Layout.finalTable, SymbolTable.relocate, attempts]

end Assembly

/-! ## Statements without their labels -/

namespace Statement

def unlabelled (s : Statement) : Statement :=
  { s with label := none }

@[simp] theorem codeSize_unlabelled (s : Statement) : s.unlabelled.codeSize = s.codeSize := rfl

@[simp] theorem dataWords_unlabelled (s : Statement) : s.unlabelled.dataWords = s.dataWords := rfl

end Statement

theorem Placed.definitions_of_label (code data : Nat) {s : Statement} {label : Token} (h : s.label = some label) :
    Placed.definitions ⟨code, data, s⟩ =
      labelSymbol ⟨code, data, s⟩ label :: Placed.definitions ⟨code, data, s.unlabelled⟩ := by
  simp only [definitions, h]
  rfl

/-- A taken label is reported, and all else that its statement does to the layout is done. -/
theorem Layout.addStatement_of_taken (l : Layout) {s : Statement} {label : Token} (hl : s.label = some label)
    (ht : l.symbols.find? label.value ≠ none) :
    ∃ faults : List Diagnostic,
      (l.addStatement s.unlabelled).errors = l.errors ++ faults ∧
      l.addStatement s = { l.addStatement s.unlabelled with
        statements := l.statements.push s
        errors := l.errors ++ (.redeclaredLabel label.position label.value :: faults) } := by
  have hname : l.symbols.find? (Placed.labelSymbol ⟨l.codeSize, l.data.size, s⟩ label).name ≠ none := by
    rwa [Placed.labelSymbol_name]
  have hreport : (Placed.labelSymbol ⟨l.codeSize, l.data.size, s⟩ label).redeclared =
      .redeclaredLabel label.position label.value := by
    unfold Placed.labelSymbol
    split <;> rfl
  refine ⟨_, congrArg Layout.errors (addStatement_eq l s.unlabelled), ?_⟩
  rw [addStatement_eq, addStatement_eq, Placed.definitions_of_label _ _ hl, SymbolTable.declareAll_cons_of_taken hname,
    SymbolTable.clashes_cons_of_taken hname, hreport]
  rfl

namespace Statement

/-! ## Programs -/

theorem find?_ne_none_of_mem {ss : List Statement} {name : Text} (h : name ∈ definedNames ss) :
    (SymbolTable.declareAll {} (definitions ss)).find? name ≠ none := by
  rw [Ne, SymbolTable.find?_declareAll_eq_none, map_name_definitions, not_not]
  exact h

section
variable {before after : List Statement} {s : Statement} {label : Token}

theorem flatMap_list_unlabelled {β : Type} {f : Placed → List β}
    (hf : ∀ code data, f ⟨code, data, s.unlabelled⟩ = f ⟨code, data, s⟩) :
    (Placed.list (before ++ s.unlabelled :: after)).flatMap f = (Placed.list (before ++ s :: after)).flatMap f := by
  simp only [Placed.list, Placed.listFrom_append, Placed.listFrom, List.flatMap_append, List.flatMap_cons, hf,
    codeSize_unlabelled, dataWords_unlabelled]

theorem codeTotal_unlabelled : codeTotal (before ++ s.unlabelled :: after) = codeTotal (before ++ s :: after) := by
  simp

theorem dataAll_unlabelled : dataAll (before ++ s.unlabelled :: after) = dataAll (before ++ s :: after) := by
  simp

theorem exports_unlabelled (table : SymbolTable) :
    exports table (before ++ s.unlabelled :: after) = exports table (before ++ s :: after) := by
  simp only [exports, List.filterMap_append, List.filterMap_cons]
  rfl

/-- A definition under a taken name leaves the symbols as they are. -/
theorem declareAll_unlabelled (hl : s.label = some label) (ht : label.value ∈ definedNames before) :
    SymbolTable.declareAll {} (definitions (before ++ s.unlabelled :: after)) =
      SymbolTable.declareAll {} (definitions (before ++ s :: after)) := by
  have hsplit : ∀ t : Statement, definitions (before ++ t :: after) = definitions before ++
      (Placed.definitions ⟨codeTotal before, (dataAll before).length, t⟩ ++
        (Placed.listFrom (codeTotal before + t.codeSize) ((dataAll before).length + t.dataWords.length)
          after).flatMap Placed.definitions) := by
    intro t
    simp [definitions, Placed.list, Placed.listFrom_append, Placed.listFrom]
  have htaken : (SymbolTable.declareAll {} (definitions before)).find?
      (Placed.labelSymbol ⟨codeTotal before, (dataAll before).length, s⟩ label).name ≠ none := by
    rw [Placed.labelSymbol_name]
    exact find?_ne_none_of_mem ht
  simp only [hsplit, SymbolTable.declareAll_append, Placed.definitions_of_label _ _ hl,
    SymbolTable.declareAll_cons_of_taken htaken, codeSize_unlabelled, dataWords_unlabelled]

theorem finalTable_unlabelled (hl : s.label = some label) (ht : label.value ∈ definedNames before) :
    Layout.finalTable (before ++ s.unlabelled :: after) = Layout.finalTable (before ++ s :: after) := by
  rw [Layout.finalTable, declareAll_unlabelled hl ht, codeTotal_unlabelled, Layout.finalTable]

end

end Statement

/-! ## Lines without their labels -/

namespace Statement

theorem labelSize?_eq_some {t : Text} {n : Nat} (h : labelSize? t = some n) :
    ∃ head tail, t = head ++ ':'.toUInt8 :: tail ∧ head.length = n ∧ ':'.toUInt8 ∉ head ∧ '"'.toUInt8 ∉ head := by
  unfold labelSize? at h
  dsimp only at h
  split at h
  · rename_i hcond
    cases h
    simp only [Bool.and_eq_true, decide_eq_true_eq, List.all_eq_true] at hcond
    obtain ⟨⟨hlt, -⟩, hall⟩ := hcond
    cases hd : t.dropWhile (· != ':'.toUInt8) with
    | nil =>
        have hwhole := List.takeWhile_append_dropWhile (p := (· != ':'.toUInt8)) (l := t)
        rw [hd, List.append_nil] at hwhole
        rw [hwhole] at hlt
        exact absurd hlt (Nat.lt_irrefl _)
    | cons b tail =>
        obtain ⟨ht, hfront, hb⟩ := Text.cut_iff.mp ⟨rfl, hd⟩
        have hcolon : b = ':'.toUInt8 := by simpa using hb
        refine ⟨_, tail, hcolon ▸ ht, rfl, Text.forall_ne_iff.mp hfront, fun hm => ?_⟩
        simpa using (hall _ hm).2
  · cases h

theorem readDirective_unlabelled {line label code s} (h : readDirective line label code = .ok s) :
    readDirective line none code = .ok s.unlabelled := by
  unfold readDirective at h ⊢
  dsimp only at h ⊢
  split at h
  · cases h
  · rename_i hk
    rw [if_neg hk]
    split at h
    · cases h
    · cases h
      rfl

/-- A body is read without a label wherever it stands if it is read with one. -/
theorem read_unlabelled {line : Int} (line' : Int) {label : Option Token} {body body' : Token} {b : UInt8} {s : Statement}
    (hv : body.value = body'.value)
    (h : (if b = '.'.toUInt8 then readDirective line label body else .ok (readInstruction line label body)) =
      .ok s) :
    ∃ s', (if b = '.'.toUInt8 then readDirective line' none body' else .ok (readInstruction line' none body')) =
      .ok s' ∧ s'.unplaced = s.unlabelled.unplaced := by
  by_cases hb : b = '.'.toUInt8
  · rw [if_pos hb] at h ⊢
    have hread := @readDirective_congr line line' none none body body' rfl hv
    rw [readDirective_unlabelled h] at hread
    cases hd : readDirective line' none body' with
    | error d => rw [hd] at hread; cases hread
    | ok s' =>
        rw [hd] at hread
        exact ⟨s', rfl, (Except.ok.inj hread).symm⟩
  · rw [if_neg hb] at h ⊢
    cases h
    exact ⟨_, rfl, (readInstruction_congr rfl hv).symm⟩

end Statement

namespace Text

theorem mem_trimLeft_of_ink {t : Text} {b : UInt8} (hb : isInk b = true) (h : b ∈ t) : b ∈ t.trimLeft := by
  obtain ⟨front, back, rfl⟩ := List.append_of_mem h
  rw [trimLeft_append_cons hb]
  exact List.mem_append_right _ List.mem_cons_self

/-- No comment starts in front of a byte of the code, unless a quote does. -/
theorem not_mem_of_codeEnd {front rest : Text} (hquote : '"'.toUInt8 ∉ front)
    (h : front.length < Statement.codeEnd 0 false (front ++ rest)) : ';'.toUInt8 ∉ front := by
  intro hm
  obtain ⟨x, y, rfl⟩ := List.append_of_mem hm
  have heven : Even (x.count '"'.toUInt8) := by
    rw [List.count_eq_zero.mpr fun hx => hquote (List.mem_append_left _ hx)]
    exact Even.zero
  have hle := codeEnd_of_even heven (y ++ rest)
  rw [List.append_assoc, List.length_append] at h
  exact absurd h (by simp only [List.cons_append]; omega)

/-- The code of what stands behind the first colon. -/
theorem code_behind_colon {front rest : Text} (hquote : '"'.toUInt8 ∉ front)
    (h : front.length < Statement.codeEnd 0 false (front ++ ':'.toUInt8 :: rest)) :
    ∃ tail : Text, code (front ++ ':'.toUInt8 :: rest) = trimLeft front ++ ':'.toUInt8 :: tail ∧
      tail.trim = code rest := by
  have hink : isInk ':'.toUInt8 = true := by decide
  have hclosed : Statement.Closed (front ++ [':'.toUInt8]) := by
    have hsemi := not_mem_of_codeEnd hquote h
    exact Statement.closed_of_not_mem (by simpa using ⟨hquote, by decide⟩) (by simpa using ⟨hsemi, by decide⟩)
  have hend : Statement.codeEnd 0 false (front ++ ':'.toUInt8 :: rest) =
      (front ++ [':'.toUInt8]).length + Statement.codeEnd 0 false rest := by
    have hall := hclosed 0 rest
    rw [List.append_assoc, List.singleton_append, Nat.zero_add, ← Nat.add_zero (List.length _),
      Statement.codeEnd_add] at hall
    exact hall
  refine ⟨trimRight (rest.take (Statement.codeEnd 0 false rest)), ?_, trim_trimRight _⟩
  have hsplit : front ++ ':'.toUInt8 :: rest = front ++ [':'.toUInt8] ++ rest := by simp
  rw [code, hend, hsplit, List.take_length_add_append, List.append_assoc, List.singleton_append, trim,
    trimLeft_append_cons hink, trimRight_append_cons hink]

end Text

namespace Line

/-- The line without its label: what stands behind the first colon. -/
def afterLabel (line : Line) : Line :=
  { line with text := (line.text.dropWhile (· != ':'.toUInt8)).drop 1 }

/-- The code of a line without its label is the body of its code. -/
theorem code_afterLabel {line : Line} {head tail : Text} (h : line.text.code = head ++ ':'.toUInt8 :: tail)
    (hcolon : ':'.toUInt8 ∉ head) (hquote : '"'.toUInt8 ∉ head) : line.afterLabel.text.code = tail.trim := by
  have hink : Text.isInk ':'.toUInt8 = true := by decide
  have hmem : ':'.toUInt8 ∈ line.text.code := h ▸ List.mem_append_right _ List.mem_cons_self
  obtain ⟨front, r, htake, hfront⟩ := List.eq_append_cons_of_mem (Text.mem_of_mem_trim hmem)
  obtain ⟨rest, htext⟩ : ∃ rest, line.text = front ++ ':'.toUInt8 :: rest := by
    refine ⟨r ++ line.text.drop (Statement.codeEnd 0 false line.text), ?_⟩
    rw [← List.cons_append, ← List.append_assoc, ← htake, List.take_append_drop]
  have hlt : front.length < Statement.codeEnd 0 false (front ++ ':'.toUInt8 :: rest) := by
    have hlength := congrArg List.length htake
    rw [← htext]
    simp only [List.length_take, List.length_append, List.length_cons] at hlength
    omega
  have hcut : ∀ {x y : Text}, ':'.toUInt8 ∉ x →
      (x ++ ':'.toUInt8 :: y).takeWhile (· != ':'.toUInt8) = x ∧
        (x ++ ':'.toUInt8 :: y).dropWhile (· != ':'.toUInt8) = ':'.toUInt8 :: y :=
    fun hx => Text.cut_iff.mpr ⟨rfl, Text.forall_ne_iff.mpr hx, by decide⟩
  have hleft : ':'.toUInt8 ∉ Text.trimLeft front := fun hm => hfront ((Text.dropChars_suffix _ _ _ front).subset hm)
  -- the head of the code is what stands before the colon without the white space in front
  have hhead : Text.trimLeft front = head := by
    rw [Text.code, htake, Text.trim, Text.trimLeft_append_cons hink, Text.trimRight_append_cons hink] at h
    rw [← (hcut hleft).1, h, (hcut hcolon).1]
  have hquotes : '"'.toUInt8 ∉ front := fun hm =>
    hquote (hhead ▸ Text.mem_trimLeft_of_ink (by decide) hm)
  obtain ⟨tail', hcode, htail⟩ := Text.code_behind_colon hquotes hlt
  have hsame : tail' = tail := by
    rw [htext, hcode, hhead] at h
    exact (List.cons.inj (List.append_cancel_left h)).2
  rw [afterLabel, htext, (hcut hfront).2, ← hsame, htail]
  rfl

theorem exists_readCode {line : Line} {s : Statement} (h : line.statement? = some s) :
    ∃ code, code.value = line.text.code ∧ Statement.readCode line.number code = .ok (.statement s) := by
  have hparse : line.parse = .ok (.statement s) := by
    unfold statement? at h
    split at h
    · rename_i hp
      cases h
      exact hp
    · cases h
  rcases line.parse_cases_code with ⟨-, hp | hp⟩ | ⟨-, code, hcode, hp⟩
  · rw [hp] at hparse; cases hparse
  · rw [hp] at hparse; cases hparse
  · exact ⟨code, hcode, hp.symm.trans hparse⟩

/-- What is left of a line without its label is read as the same statement, unless it has a label again. -/
theorem statement_afterLabel {line : Line} {s : Statement} {label : Token} (h : line.statement? = some s)
    (hl : s.label = some label) (hn : Statement.labelSize? line.afterLabel.text.code = none) :
    ∃ s', line.afterLabel.statement? = some s' ∧ s'.unplaced = s.unlabelled.unplaced := by
  obtain ⟨code, hcode, hread⟩ := exists_readCode h
  obtain ⟨body, b, t, hsplit, hbody, hs⟩ := Statement.readCode_eq_statement hread
  have hvalue : body.value = line.afterLabel.text.code := by
    rw [hl] at hsplit
    unfold Statement.splitLabel at hsplit
    split at hsplit
    · cases hsplit
    · rename_i n hn
      obtain ⟨u, -, hpure⟩ := bind_eq_ok.mp hsplit
      cases hpure
      obtain ⟨head, tail, hvalue, rfl, hcolon, hquote⟩ := Statement.labelSize?_eq_some hn
      rw [code_afterLabel (hcode ▸ hvalue) hcolon hquote, Token.value_sliceFrom, hvalue]
      simp
  rcases line.afterLabel.parse_cases_code with ⟨hsilent, -⟩ | ⟨-, code', hcode', hparse⟩
  · rw [speaks, ← hvalue, hbody] at hsilent
    cases hsilent
  · have hsame : body.value = code'.value := hvalue.trans hcode'.symm
    have hsplit' : Statement.splitLabel code' = .ok (none, code') := by
      rw [Statement.splitLabel, hcode', hn]
    obtain ⟨s', hs', hunplaced⟩ := Statement.read_unlabelled line.afterLabel.number hsame hs
    refine ⟨s', ?_, hunplaced⟩
    rw [Statement.readCode_eq hsplit' (hsame ▸ hbody)] at hparse
    unfold statement?
    rw [hparse]
    split at hs' <;> simp_all [Except.map]

end Line

/-! ## Sources -/

/-- The warning that a line gives. -/
def Line.warning? (line : Line) : Option Diagnostic :=
  match line.parse with
  | .ok (.labelOnly label) => some (.ignoredLabel label.position label.value)
  | _ => none

theorem Line.warning?_of_statement {line : Line} {s : Statement} (h : line.statement? = some s) :
    line.warning? = none := by
  unfold statement? at h
  unfold warning?
  split at h
  · rename_i hp
    rw [hp]
  · cases h

theorem Layout.warnings_ofLines (lines : List Line) :
    (ofLines lines).warnings.toList = lines.filterMap Line.warning? := by
  induction lines using List.reverseRecOn with
  | nil => rfl
  | append_singleton lines line ih =>
      rw [ofLines_append_singleton, List.filterMap_append, ← ih]
      unfold addLine
      cases hp : line.parse with
      | error d => simp [fail, Line.warning?, hp]
      | ok parsed =>
          cases parsed with
          | statement s => simp [addStatement_eq, Line.warning?, hp]
          | _ => simp [Line.warning?, hp]

/-- A line whose label an earlier line has defined. -/
structure Line.Redefines (before : List Line) (line : Line) (s : Statement) (label : Token) : Prop where
  statement : line.statement? = some s
  labelled : s.label = some label
  taken : label.value ∈ Statement.definedNames (Statement.ofLines before)

namespace Assembly

theorem ofLines_split (before : List Line) {line : Line} {s : Statement} (h : line.statement? = some s)
    (after : List Line) :
    Statement.ofLines (before ++ line :: after) = Statement.ofLines before ++ s :: Statement.ofLines after := by
  simp [Statement.ofLines, h]

/-- A taken label makes no difference to the program. -/
theorem program_afterLabel {before after : List Line} {line : Line} {s : Statement} {label : Token}
    (hfits : Statement.Fits (Statement.ofLines (before ++ line :: after))) (h : line.Redefines before s label)
    (hn : Statement.labelSize? line.afterLabel.text.code = none) :
    (ofLines (before ++ line.afterLabel :: after)).program.unplaced =
      (ofLines (before ++ line :: after)).program.unplaced := by
  obtain ⟨s', h', hsame⟩ := Line.statement_afterLabel h.statement h.labelled hn
  have hss := ofLines_split before h.statement after
  have hss' := ofLines_split before h' after
  have hmap : (Statement.ofLines before ++ s' :: Statement.ofLines after).map Statement.unplaced =
      (Statement.ofLines before ++ s.unlabelled :: Statement.ofLines after).map .unplaced := by
    simp [hsame]
  have hfits' : Statement.Fits (Statement.ofLines (before ++ line.afterLabel :: after)) := by
    rw [hss', ← Statement.fits_unplaced, hmap, Statement.fits_unplaced, Statement.Fits,
      Statement.codeTotal_unlabelled, Statement.dataAll_unlabelled, ← hss]
    exact hfits
  have htable := @Statement.finalTable_unlabelled _ (Statement.ofLines after) s label h.labelled h.taken
  have hwarnings : (before ++ line.afterLabel :: after).filterMap Line.warning? =
      (before ++ line :: after).filterMap Line.warning? := by
    simp [Line.warning?_of_statement h.statement, Line.warning?_of_statement h']
  rw [program_ofLines hfits, program_ofLines hfits']
  simp only [Program.unplaced, Program.mk.injEq, Layout.warnings_ofLines, hwarnings, and_true]
  rw [hss, hss']
  refine ⟨?_, ?_, ?_, ?_⟩
  · rw [← Placed.code_unplaced, hmap, Placed.code_unplaced, htable]
    exact Statement.flatMap_list_unlabelled fun _ _ => rfl
  · rw [← Statement.dataAll_unplaced, hmap, Statement.dataAll_unplaced, Statement.dataAll_unlabelled]
  · rw [← Statement.symbols_unplaced, hmap, Statement.symbols_unplaced, htable, Statement.exports_unlabelled]
  · rw [← Placed.allUses_unplaced, hmap, Placed.allUses_unplaced, htable]
    exact Statement.flatMap_list_unlabelled fun _ _ => rfl

/-- The first definition of a name wins. Each later one is reported once, so that reports and symbols
together are as many as the definitions that were attempted. A line under a taken label does the same
to both passes as without the label, but for the report, and the program is the same if the label is
taken out of the text, unless what follows it starts with a label too. -/
theorem first_definition_wins (lines : List Line) (table : SymbolTable)
    (h : (Layout.ofLines lines).finalSymbols = .ok table) :
    (ofLines lines).errors.filter Diagnostic.isRedeclared =
      (Symbol.repeats [] (attempts lines)).map Symbol.redeclared ∧
    (ofLines lines).errors.countP Diagnostic.isRedeclared + (ofLines lines).program.symbols.symbols.length =
      (attempts lines).length ∧
    (∀ name, (Layout.ofLines lines).symbols.find? name = (attempts lines).find? (·.name = name)) ∧
    (∀ symbol ∈ (ofLines lines).program.symbols.symbols,
      ∃ d, (attempts lines).find? (·.name = symbol.name) = some d ∧
        symbol.kind = d.kind ∧ symbol.position = d.position ∧
        symbol.address = (d.relocate (.ofNat Memory.base) (.ofNat (Layout.ofLines lines).codeSize)).address) ∧
    ∀ before line after s label, lines = before ++ line :: after → Line.Redefines before line s label →
      (∃ faults : List Diagnostic,
        ((Layout.ofLines before).addStatement s.unlabelled).errors = (Layout.ofLines before).errors ++ faults ∧
        (Layout.ofLines before).addStatement s = { (Layout.ofLines before).addStatement s.unlabelled with
          statements := (Layout.ofLines before).statements.push s
          errors := (Layout.ofLines before).errors ++
            (.redeclaredLabel label.position label.value :: faults) }) ∧
      (∀ e : Emission, e.addStatement s = e.addStatement s.unlabelled) ∧
      (Statement.labelSize? line.afterLabel.text.code = none →
        (ofLines (before ++ line.afterLabel :: after)).program.unplaced = (ofLines lines).program.unplaced) := by
  obtain ⟨hfits, -⟩ := Layout.finalSymbols_eq_ok.mp h
  have hreports := redeclared_errors hfits
  refine ⟨hreports, ?_, ?_, ?_, ?_⟩
  · rw [List.countP_eq_length_filter, hreports, List.length_map, length_symbols hfits]
    exact (SymbolTable.length_repeats {} (attempts lines)).trans (Nat.zero_add _)
  · intro name
    rw [(Layout.holds_ofLines lines).symbols, SymbolTable.find?_declareAll]
    simp [SymbolTable.find?, attempts]
  · intro symbol hs
    obtain ⟨d, hd, rfl⟩ := first_of_mem hfits hs
    rw [(Layout.holds_ofLines lines).codeSize]
    exact ⟨d, hd, Symbol.relocate_kind _ _ d, Symbol.relocate_position _ _ d, rfl⟩
  · rintro before line after s label rfl hr
    have htaken : (Layout.ofLines before).symbols.find? label.value ≠ none := by
      rw [(Layout.holds_ofLines before).symbols]
      exact Statement.find?_ne_none_of_mem hr.taken
    exact ⟨Layout.addStatement_of_taken _ hr.labelled htaken, fun e => rfl, program_afterLabel hfits hr⟩

/-- A source in which labels of code, labels of data and externals share names, two of them in one line. -/
def clashingSource : List Line :=
  [⟨1, Text.of "X: .extern X"⟩, ⟨2, Text.of "X: .data 1, 2"⟩, ⟨3, Text.of "Y: mov X, r1"⟩, ⟨4, Text.of ".extern Y"⟩,
    ⟨5, Text.of "Y: .extern Z"⟩, ⟨6, Text.of "  Y: prn Z ; again"⟩]

theorem clashingSource_first_wins :
    (ofLines clashingSource).errors =
      [.redeclaredLabel ⟨1, 12, 1⟩ (Text.of "X"), .redeclaredLabel ⟨2, 1, 1⟩ (Text.of "X"),
        .redeclaredLabel ⟨4, 9, 1⟩ (Text.of "Y"), .redeclaredLabel ⟨5, 1, 1⟩ (Text.of "Y"),
        .redeclaredLabel ⟨6, 3, 1⟩ (Text.of "Y")] ∧
    (attempts clashingSource).length = 8 ∧
    5 + (ofLines clashingSource).program.symbols.symbols.length = 8 ∧
    (ofLines (clashingSource.take 5 ++ [⟨6, Text.of " prn Z ; again"⟩])).program.unplaced =
      (ofLines clashingSource).program.unplaced := by
  have hfinal : (Layout.ofLines clashingSource).finalSymbols =
      .ok (Layout.finalTable (Statement.ofLines clashingSource)) := by decide +kernel
  have herrors : (ofLines clashingSource).errors =
      [.redeclaredLabel ⟨1, 12, 1⟩ (Text.of "X"), .redeclaredLabel ⟨2, 1, 1⟩ (Text.of "X"),
        .redeclaredLabel ⟨4, 9, 1⟩ (Text.of "Y"), .redeclaredLabel ⟨5, 1, 1⟩ (Text.of "Y"),
        .redeclaredLabel ⟨6, 3, 1⟩ (Text.of "Y")] := by decide +kernel
  have hattempts : (attempts clashingSource).length = 8 := by decide +kernel
  obtain ⟨-, hcount, -, -, hframe⟩ := first_definition_wins clashingSource _ hfinal
  rw [herrors, hattempts] at hcount
  have hline : clashingSource = clashingSource.take 5 ++ ⟨6, Text.of "  Y: prn Z ; again"⟩ :: [] := rfl
  have hredefines : Line.Redefines (clashingSource.take 5) ⟨6, Text.of "  Y: prn Z ; again"⟩
      { line := 6, label := some ⟨⟨6, 3, 1⟩, Text.of "Y"⟩, action := .instruction (some .prn)
        keyword := ⟨⟨6, 6, 3⟩, Text.of "prn"⟩, args := ⟨⟨6, 10, 1⟩, Text.of "Z"⟩ } ⟨⟨6, 3, 1⟩, Text.of "Y"⟩ :=
    ⟨by decide +kernel, rfl, by decide +kernel⟩
  obtain ⟨-, -, hprogram⟩ := hframe _ _ _ _ _ hline hredefines
  exact ⟨herrors, hattempts, hcount, hprogram (by decide +kernel)⟩

end Assembly

end TwoPass
