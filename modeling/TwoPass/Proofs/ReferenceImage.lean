import TwoPass.Proofs.Labels
import TwoPass.Proofs.ListingWords

/-!
Every well-formed program is assembled to the image that it stands for.
-/
namespace TwoPass.Listing

/-! ## One statement -/

namespace Item.Reads

variable {item : Item} {s : Statement}

theorem codeSize (h : item.Reads s) : s.codeSize = item.body.codeSize := by
  have ha := h.action
  have hargs := h.args
  unfold Statement.codeSize
  cases hb : item.body with
  | instruction op arguments arity =>
      rw [hb] at ha hargs
      rw [ha]
      exact size_of_args arity hargs
  | _ =>
      rw [hb] at ha
      rw [ha]
      rfl

theorem contents (h : item.Reads s) {d} (hd : item.body.action = .directive d) :
    Data.contents d s.args = { words := item.body.dataWords } := by
  have hargs := h.args
  cases hb : item.body with
  | instruction op arguments arity =>
      rw [hb] at hd
      cases hd
  | data first rest =>
      rw [hb] at hd hargs
      cases hd
      exact contents_data s.args first rest hargs
  | string letters =>
      rw [hb] at hd hargs
      cases hd
      exact contents_string s.args letters hargs
  | mat rows columns values limits cells filled =>
      rw [hb] at hd hargs
      cases hd
      exact contents_mat s.args limits cells filled hargs
  | external name =>
      rw [hb] at hd
      cases hd
      rfl
  | entry name =>
      rw [hb] at hd
      cases hd
      rfl

theorem dataWords (h : item.Reads s) : s.dataWords = item.body.dataWords := by
  unfold Statement.dataWords
  rw [h.action]
  cases ha : item.body.action with
  | directive d => simp only [h.contents ha]
  | instruction op =>
      cases hb : item.body with
      | instruction op arguments arity => rfl
      | _ => simp [hb, Body.action] at ha

theorem checkLabel_args (h : item.Reads s) {name : Label} (hn : item.body = .external name) :
    s.args.value = name.text ∧ Statement.checkLabel s.args = .ok () := by
  have hv : s.args.value = name.text := by rw [h.args, hn]; rfl
  exact ⟨hv, Statement.checkLabel_eq_ok.mpr (by rw [hv]; exact ⟨name.valid, name.free⟩)⟩

theorem ownFaults (h : item.Reads s) : s.ownFaults = [] := by
  unfold Statement.ownFaults
  rw [h.action]
  cases hb : item.body with
  | instruction op arguments arity => rfl
  | external name =>
      obtain ⟨hv, hc⟩ := h.checkLabel_args hb
      have hne : ¬ s.args.value.isEmpty = true := by
        rw [hv]
        simpa using name.isWord.ne_nil
      simp only [Body.action, hne, hc, Bool.false_eq_true, ↓reduceIte]
  | data first rest => simp only [Body.action, h.contents (d := .data) (by rw [hb]; rfl)]
  | string letters => simp only [Body.action, h.contents (d := .string) (by rw [hb]; rfl)]
  | mat rows columns values limits cells filled =>
      simp only [Body.action, h.contents (d := .mat) (by rw [hb]; rfl)]
  | entry name => rfl

theorem isData (h : item.Reads s) : s.isData = item.body.isData := by
  rw [Statement.isData, h.action]
  cases item.body <;> rfl

theorem external? (h : item.Reads s) : s.external?.map (·.value) = item.body.external? := by
  have ha := h.action
  have hargs := h.args
  unfold Statement.external?
  cases hb : item.body with
  | external name =>
      rw [hb] at ha hargs
      have hv : s.args.value = name.text := hargs
      simp [ha, Body.action, hv, name.valid, name.free, Body.external?]
  | _ =>
      rw [hb] at ha
      simp [ha, Body.action, Body.external?]

theorem names (h : item.Reads s) :
    s.names = item.label.toList.map (·.text) ++ item.body.external?.toList := by
  rw [Statement.names, ← Option.toList_map, ← Option.toList_map, h.label, h.external?, Option.toList_map]

theorem labelDefinition (h : item.Reads s) (total code data : Nat) {token : Token} {label : Label}
    (hv : token.value = label.text) :
    Definition.ofSymbol ((Placed.labelSymbol ⟨code, data, s⟩ token).relocate (.ofNat Memory.base) (.ofNat total)) =
      if item.body.isData then ⟨label.text, .ofNat (Memory.base + (total + data)), .data⟩
      else ⟨label.text, .ofNat (Memory.base + code), .code⟩ := by
  have haddress := Placed.address_labelSymbol total ⟨code, data, s⟩ token
  unfold Placed.offset at haddress
  rw [Definition.ofSymbol, haddress, Symbol.relocate_name, Symbol.relocate_kind, Placed.labelSymbol_name, hv]
  unfold Placed.labelSymbol
  simp only [h.isData]
  cases item.body.isData <;> rfl

/-- A statement defines what its item defines, once the addresses are moved. -/
theorem definitions (h : item.Reads s) (total code data : Nat) :
    (Placed.definitions ⟨code, data, s⟩).map
        (fun d => Definition.ofSymbol (d.relocate (.ofNat Memory.base) (.ofNat total))) =
      item.definitions total code data := by
  have hlabel := h.label
  have hexternal := h.external?
  unfold Placed.definitions Item.definitions
  rw [List.map_append]
  congr 1
  · cases hs : s.label with
    | none =>
        rw [hs] at hlabel
        rw [Option.map_eq_none_iff.mp hlabel.symm]
        rfl
    | some token =>
        rw [hs] at hlabel
        obtain ⟨label, hl, hv⟩ := Option.map_eq_some_iff.mp hlabel.symm
        rw [hl]
        simp only [Option.toList_some, List.map_cons, List.map_nil,
          h.labelDefinition total code data hv.symm]
  · cases hs : s.external? with
    | none =>
        rw [hs] at hexternal
        rw [← hexternal]
        rfl
    | some token =>
        rw [hs] at hexternal
        rw [← hexternal]
        rfl

theorem encoded {table : SymbolTable} {definitions : List Definition}
    (htable : table.symbols.map Definition.ofSymbol = definitions) (h : item.Reads s)
    (hd : ∀ label ∈ item.body.references, label.text ∈ definitions.map (·.name)) (code data : Nat) :
    Placed.encoded table ⟨code, data, s⟩ =
      .ok (item.body.code definitions, item.body.uses definitions (Memory.base + code)) := by
  unfold Placed.encoded
  rw [h.action]
  have hargs := h.args
  cases hb : item.body with
  | instruction op arguments arity =>
      rw [hb] at hargs hd
      apply encode_of_args htable _ arity hargs
      intro a ha label hl
      exact hd label (List.mem_filterMap.mpr ⟨a, ha, hl⟩)
  | _ => rfl

theorem exported? {table : SymbolTable} (h : item.Reads s) (hf : s.entryFault? table = none) :
    s.exported? table = item.body.entry? := by
  have hargs := h.args
  rw [Statement.exported?, h.action, hf]
  cases hb : item.body with
  | entry name =>
      rw [hb] at hargs
      have hv : s.args.value = name.text := hargs
      simp [Body.action, Body.entry?, hv]
  | _ => simp [Body.action, Body.entry?]

end Item.Reads

/-! ## All statements -/

theorem forall₂_ofLines {l : Listing} {lines : List Line} (h : lines.map (·.text) = l.map Item.render) :
    List.Forall₂ Item.Reads l (Statement.ofLines lines) ∧ ∀ line ∈ lines, ∃ parsed, line.parse = .ok parsed := by
  induction l generalizing lines with
  | nil =>
      rw [List.map_eq_nil_iff.mp h]
      exact ⟨.nil, fun line hl => absurd hl List.not_mem_nil⟩
  | cons item l ih =>
      obtain ⟨line, rest, rfl, ht, hrest⟩ := List.map_eq_cons_iff.mp h
      obtain ⟨s, hp, hr⟩ := Item.parse ht
      obtain ⟨hall, hread⟩ := ih hrest
      have hs : Statement.ofLines (line :: rest) = s :: Statement.ofLines rest := by
        simp [Statement.ofLines, Line.statement?, hp]
      rw [hs]
      exact ⟨.cons hr hall, List.forall_mem_cons.mpr ⟨⟨_, hp⟩, hread⟩⟩

section
variable {l : Listing} {ss : List Statement} (h : List.Forall₂ Item.Reads l ss)
include h

theorem codeTotal_eq : Statement.codeTotal ss = l.codeSize := by
  induction h with
  | nil => rfl
  | cons hr _ ih => rw [Statement.codeTotal_cons, ih, hr.codeSize, codeSize, codeSize, List.map_cons, List.sum_cons]

theorem dataAll_eq : Statement.dataAll ss = l.data := by
  induction h with
  | nil => rfl
  | cons hr _ ih => rw [Statement.dataAll_cons, ih, hr.dataWords, data, data, List.flatMap_cons]

theorem definedNames_eq : Statement.definedNames ss = l.names := by
  induction h with
  | nil => rfl
  | cons hr _ ih =>
      rw [Statement.definedNames, List.flatMap_cons, hr.names, names, List.flatMap_cons, ← names, ← ih]
      rfl

theorem ownFaults_eq_nil : ∀ s ∈ ss, s.ownFaults = [] := by
  induction h with
  | nil => exact fun s hs => absurd hs List.not_mem_nil
  | cons hr _ ih => exact List.forall_mem_cons.mpr ⟨hr.ownFaults, ih⟩

theorem definitionsFrom_eq (total code data : Nat) :
    ((Placed.listFrom code data ss).flatMap Placed.definitions).map
        (fun d => Definition.ofSymbol (d.relocate (.ofNat Memory.base) (.ofNat total))) =
      definitionsFrom total code data l := by
  induction h generalizing code data with
  | nil => rfl
  | cons hr _ ih =>
      rw [Placed.listFrom, List.flatMap_cons, List.map_append, hr.definitions, ih, hr.codeSize, hr.dataWords]
      rfl

theorem finalTable_eq (hn : l.names.Nodup) :
    (Layout.finalTable ss).symbols.map Definition.ofSymbol = l.definitions ∧
      ∀ s ∈ (Layout.finalTable ss).symbols, s.isEntry = false := by
  have hnames : ((Statement.definitions ss).map (·.name)).Nodup := by
    rw [Statement.map_name_definitions, definedNames_eq h]
    exact hn
  rw [Layout.finalTable, SymbolTable.relocate, SymbolTable.declareAll_of_nodup hnames, codeTotal_eq h,
    List.map_map]
  refine ⟨definitionsFrom_eq h l.codeSize 0 0, List.forall_mem_map.mpr fun d hd => ?_⟩
  obtain ⟨p, -, hp⟩ := List.mem_flatMap.mp hd
  rw [Symbol.relocate_isEntry, Placed.isEntry_of_mem_definitions hp]

end

theorem map_name_definitions (l : Listing) : l.definitions.map (·.name) = l.names := by
  have hfrom : ∀ total code data, (definitionsFrom total code data l).map (·.name) = l.names := by
    intro total
    induction l with
    | nil => intro code data; rfl
    | cons item l ih =>
        intro code data
        have hlabel : (item.definitions total code data).map (·.name) =
            item.label.toList.map (·.text) ++ item.body.external?.toList := by
          unfold Item.definitions
          cases item.label <;> cases item.body.isData <;> cases item.body.external? <;> rfl
        rw [definitionsFrom, List.map_append, ih, hlabel]
        rfl
  exact hfrom _ _ _

theorem external_of_mem {l : Listing} {d : Definition} (h : d ∈ l.definitions) (hk : d.kind = .external) :
    d.name ∈ l.externalNames := by
  have hfrom : ∀ total code data, d ∈ definitionsFrom total code data l → d.name ∈ l.externalNames := by
    clear h
    intro total
    induction l with
    | nil => intro code data h; cases h
    | cons item l ih =>
        intro code data h
        rcases List.mem_append.mp h with h | h
        · rcases List.mem_append.mp h with h | h
          · obtain ⟨label, -, rfl⟩ := List.mem_map.mp h
            split at hk <;> cases hk
          · obtain ⟨name, hn, rfl⟩ := List.mem_map.mp h
            exact List.mem_filterMap.mpr ⟨item, List.mem_cons_self, Option.mem_toList.mp hn⟩
        · obtain ⟨other, ho, he⟩ := List.mem_filterMap.mp (ih _ _ h)
          exact List.mem_filterMap.mpr ⟨other, List.mem_cons_of_mem item ho, he⟩
  exact hfrom _ _ _ h

/-! ## The second pass -/

section
variable {table : SymbolTable} {definitions : List Definition}
variable (htable : table.symbols.map Definition.ofSymbol = definitions)
include htable

theorem entryFault?_eq_none {item : Item} {s : Statement} (h : item.Reads s)
    (hd : ∀ label ∈ item.body.references, label.text ∈ definitions.map (·.name))
    (hx : ∀ name ∈ item.body.entry?, ∀ d ∈ definitions, d.name = name → d.kind ≠ .external) :
    s.entryFault? table = none := by
  have hargs := h.args
  unfold Statement.entryFault?
  rw [h.action]
  cases hb : item.body with
  | entry name =>
      rw [hb] at hargs hd hx
      have hv : s.args.value = name.text := hargs
      have hne : ¬ name.text.isEmpty = true := by
        simpa using name.isWord.ne_nil
      obtain ⟨d, hmem, hn⟩ := List.mem_map.mp (hd name List.mem_cons_self)
      rw [← htable] at hmem
      obtain ⟨symbol, hs, rfl⟩ := List.mem_map.mp hmem
      obtain ⟨found, hf⟩ : ∃ found, table.find? name.text = some found := by
        rw [← Option.isSome_iff_exists, SymbolTable.find?, List.find?_isSome]
        exact ⟨symbol, hs, decide_eq_true hn⟩
      have hname : found.name = name.text := by simpa using List.find?_some hf
      have hkind : found.kind ≠ .external :=
        hx name.text rfl (Definition.ofSymbol found)
          (htable ▸ List.mem_map_of_mem (List.mem_of_find?_eq_some hf)) hname
      simp only [Body.action, hv, hne, hf, hkind, Bool.false_eq_true, ↓reduceIte]
  | _ => rfl

theorem emitted {l : Listing} {ss : List Statement} (h : List.Forall₂ Item.Reads l ss)
    (hd : ∀ item ∈ l, ∀ label ∈ item.body.references, label.text ∈ definitions.map (·.name))
    (code data : Nat) :
    (Placed.listFrom code data ss).flatMap (Placed.codeWords table) = l.flatMap (·.body.code definitions) ∧
      (Placed.listFrom code data ss).flatMap (Placed.uses table) =
        usesFrom definitions (Memory.base + code) l := by
  induction h generalizing code data with
  | nil => exact ⟨rfl, rfl⟩
  | cons hr _ ih =>
      obtain ⟨hitem, hrest⟩ := List.forall_mem_cons.mp hd
      have he := hr.encoded htable hitem code data
      obtain ⟨hcode, huses⟩ := ih hrest (code + Statement.codeSize _) (data + (Statement.dataWords _).length)
      refine ⟨?_, ?_⟩
      · rw [Placed.listFrom, List.flatMap_cons, hcode, Placed.codeWords, he]
        rfl
      · rw [Placed.listFrom, List.flatMap_cons, huses, Placed.uses, he, hr.codeSize, ← Nat.add_assoc]
        rfl

/-- Nothing is wrong with a statement, and the entries are exported. -/
theorem exported {l : Listing} {ss : List Statement} (h : List.Forall₂ Item.Reads l ss)
    (hd : ∀ item ∈ l, ∀ label ∈ item.body.references, label.text ∈ definitions.map (·.name))
    (hx : ∀ item ∈ l, ∀ name ∈ item.body.entry?, ∀ d ∈ definitions, d.name = name → d.kind ≠ .external)
    (code data : Nat) :
    (∀ p ∈ Placed.listFrom code data ss, p.faults table = []) ∧
      Statement.exports table ss = l.entryNames := by
  induction h generalizing code data with
  | nil => exact ⟨fun p hp => absurd hp List.not_mem_nil, rfl⟩
  | cons hr _ ih =>
      obtain ⟨hd, hdrest⟩ := List.forall_mem_cons.mp hd
      obtain ⟨hx, hxrest⟩ := List.forall_mem_cons.mp hx
      have he := hr.encoded htable hd code data
      have hentry := entryFault?_eq_none htable hr hd hx
      obtain ⟨hfaults, hexports⟩ :=
        ih hdrest hxrest (code + Statement.codeSize _) (data + (Statement.dataWords _).length)
      refine ⟨List.forall_mem_cons.mpr ⟨?_, hfaults⟩, ?_⟩
      · rw [Placed.faults, he]
        simp only [hentry, Option.toList_none]
      · rw [Statement.exports] at hexports ⊢
        rw [List.filterMap_cons, hr.exported? hentry, hexports, entryNames, entryNames, List.filterMap_cons]

end

/-! ## The whole program -/

/-- The symbols of a program with their export marks. -/
def symbols (l : Listing) : List (Definition × Bool) :=
  l.definitions.map fun d => (d, l.entryNames.contains d.name)

theorem symbols_mark {l : Listing} {table : SymbolTable}
    (htable : table.symbols.map Definition.ofSymbol = l.definitions)
    (hentry : ∀ s ∈ table.symbols, s.isEntry = false) :
    (table.mark l.entryNames).symbols.map (fun s => (Definition.ofSymbol s, s.isEntry)) = l.symbols := by
  rw [symbols, ← htable, SymbolTable.mark, List.map_map, List.map_map]
  apply List.map_congr_left
  intro s hs
  have hmark : (s.mark l.entryNames).isEntry = l.entryNames.contains s.name := by
    rw [Symbol.mark, hentry s hs, Bool.false_or, List.contains_eq_mem]
  exact Prod.ext rfl hmark

/-- The exported symbols are those that an entry names. -/
theorem mem_entries {l : Listing} (h : l.WellFormed) {table : SymbolTable}
    (hs : table.symbols.map (fun s => (Definition.ofSymbol s, s.isEntry)) = l.symbols) (name : Text) :
    name ∈ table.entries.map (·.name) ↔ name ∈ l.entryNames := by
  constructor
  · intro hm
    obtain ⟨s, hs', rfl⟩ := List.mem_map.mp hm
    obtain ⟨hmem, he⟩ := List.mem_filter.mp hs'
    have hview : (Definition.ofSymbol s, s.isEntry) ∈ l.symbols := hs ▸ List.mem_map_of_mem hmem
    obtain ⟨d, -, hd⟩ := List.mem_map.mp hview
    rw [he] at hd
    obtain ⟨rfl, hentry⟩ := Prod.mk.inj hd
    exact List.contains_iff_mem.mp hentry
  · intro hm
    obtain ⟨item, hi, he⟩ := List.mem_filterMap.mp hm
    have hname : name ∈ l.names := by
      have hdefined := h.defined item hi
      cases hb : item.body with
      | entry label =>
          rw [hb] at he hdefined
          cases he
          exact hdefined label List.mem_cons_self
      | _ =>
          rw [hb] at he
          cases he
    rw [← map_name_definitions] at hname
    obtain ⟨d, hd, rfl⟩ := List.mem_map.mp hname
    have hview : (d, true) ∈ l.symbols := List.mem_map.mpr ⟨d, hd, by simp [hm]⟩
    rw [← hs] at hview
    obtain ⟨s, hs', he⟩ := List.mem_map.mp hview
    obtain ⟨rfl, hentry⟩ := Prod.mk.inj he
    exact List.mem_map.mpr ⟨s, List.mem_filter.mpr ⟨hs', hentry⟩, rfl⟩

/-- Every well-formed program is assembled to its image. However the lines are numbered, no error is
found, and the segments, the symbols with their marks, the exported names and the uses of names
defined elsewhere are those of the program. -/
theorem assembles_to_image {l : Listing} (h : l.WellFormed) {lines : List Line}
    (hlines : lines.map (·.text) = l.map Item.render) :
    (Assembly.ofLines lines).errors = [] ∧
      (Assembly.ofLines lines).program.instructions = l.code ∧
      (Assembly.ofLines lines).program.data = l.data ∧
      (Assembly.ofLines lines).program.symbols.symbols.map (fun s => (Definition.ofSymbol s, s.isEntry)) =
        l.symbols ∧
      (∀ name, name ∈ (Assembly.ofLines lines).program.symbols.entries.map (·.name) ↔ name ∈ l.entryNames) ∧
      (Assembly.ofLines lines).program.externals = l.externalUses := by
  obtain ⟨hall, hread⟩ := forall₂_ofLines hlines
  obtain ⟨htable, hentry⟩ := finalTable_eq hall h.distinct
  have hfits : Statement.Fits (Statement.ofLines lines) := by
    rw [Statement.Fits, codeTotal_eq hall, dataAll_eq hall]
    exact h.fits
  have hdefined : ∀ item ∈ l, ∀ label ∈ item.body.references, label.text ∈ l.definitions.map (·.name) := by
    rw [map_name_definitions]
    exact h.defined
  -- a name defined elsewhere comes from an external statement, and no entry may name it
  have hhere : ∀ item ∈ l, ∀ name ∈ item.body.entry?, ∀ d ∈ l.definitions, d.name = name →
      d.kind ≠ .external := by
    rintro item hi name hn d hd rfl hk
    exact h.exported d.name (List.mem_filterMap.mpr ⟨item, hi, hn⟩) (external_of_mem hd hk)
  obtain ⟨hcode, huses⟩ := emitted htable hall hdefined 0 0
  obtain ⟨hfaults, hexports⟩ := exported htable hall hdefined hhere 0 0
  have herrors : (Assembly.ofLines lines).errors = [] := by
    refine (Assembly.errors_ofLines_eq_nil lines).mpr ⟨hread, ownFaults_eq_nil hall, ?_, hfaults, hfits⟩
    rw [definedNames_eq hall]
    exact h.distinct
  have hsymbols : (Assembly.ofLines lines).program.symbols.symbols.map
      (fun s => (Definition.ofSymbol s, s.isEntry)) = l.symbols := by
    rw [Assembly.program_ofLines hfits, hexports]
    exact symbols_mark htable hentry
  refine ⟨herrors, ?_, ?_, hsymbols, mem_entries h hsymbols, ?_⟩
  · rw [Assembly.program_ofLines hfits]
    exact hcode
  · rw [Assembly.program_ofLines hfits]
    exact dataAll_eq hall
  · rw [Assembly.program_ofLines hfits]
    exact huses

/-- A program with a forward reference, a matrix, a name defined elsewhere, and a string that holds
separators. -/
def sampleListing : Listing :=
  let label (s : String) (h : Name.isValid (Text.of s) = true ∧ Name.isReserved (Text.of s) = false) : Label :=
    ⟨Text.of s, h.1, h.2⟩
  [⟨none, .external (label "X" (by decide))⟩,
    ⟨some (label "MAIN" (by decide)), .instruction .mov [.immediate (-5), .register 3] rfl⟩,
    ⟨none, .instruction .lea [.matrix (label "TABLE" (by decide)) 1 2, .direct (label "X" (by decide))] rfl⟩,
    ⟨some (label "TEXT" (by decide)), .string [⟨';', by decide, by decide⟩, ⟨'é', by decide, by decide⟩]⟩,
    ⟨some (label "TABLE" (by decide)), .mat 1 2 [7] (by decide) (by decide) (by decide)⟩,
    ⟨none, .entry (label "MAIN" (by decide))⟩,
    ⟨none, .instruction .stop [] rfl⟩]

def sampleLines : List Line :=
  sampleListing.map fun item => ⟨1, item.render⟩

theorem sampleListing_assembles :
    sampleListing.WellFormed ∧ (Assembly.ofLines sampleLines).errors = [] ∧
      (Assembly.ofLines sampleLines).program.image =
        [19, 65531, 17928, 110, 10, 0, 61440, 59, 233, 0, 7, 0] := by
  have hwf : sampleListing.WellFormed := ⟨by decide, by decide, by decide, by decide⟩
  have hlines : sampleLines.map (·.text) = sampleListing.map Item.render := by
    rw [sampleLines, List.map_map]
    rfl
  obtain ⟨herrors, hcode, hdata, -⟩ := assembles_to_image hwf hlines
  refine ⟨hwf, herrors, ?_⟩
  rw [Program.image, hcode, hdata]
  decide

end TwoPass.Listing
