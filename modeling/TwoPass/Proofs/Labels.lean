import TwoPass.Proofs.PassAgreement

/-!
Where labels lead. An address is put together from a counter at the place of definition, the size of
the code and the load address, each cut to 16 bits; the content is laid out by other means.
-/
namespace TwoPass

/-- The address under a name is that of a block of words in the image. -/
def Program.LeadsTo (p : Program) (name : Text) (words : List Word) : Prop :=
  ∃ s, p.symbols.find? name = some s ∧ Memory.base ≤ s.address.toNat ∧
    s.address.toNat - Memory.base + words.length ≤ p.size ∧
    (p.image.drop (s.address.toNat - Memory.base)).take words.length = words

theorem Program.leadsTo_of_image {p : Program} {name s words} (before after : List Word)
    (hs : p.symbols.find? name = some s) (ha : s.address.toNat = Memory.base + before.length)
    (hi : p.image = before ++ (words ++ after)) : p.LeadsTo name words := by
  have hsize : p.size = before.length + (words.length + after.length) := by
    rw [← List.length_append, ← List.length_append, ← hi, image, List.length_append, size]
  refine ⟨s, hs, by omega, by omega, ?_⟩
  rw [hi, ha, Nat.add_sub_cancel_left, List.drop_left, List.take_left]

namespace Statement

/-! ## The statement that defines a name -/

/-- The symbol found under a name comes from the first statement that defines the name. -/
theorem find?_definitions {ss : List Statement} {name s}
    (h : (definitions ss).find? (·.name = name) = some s) :
    ∃ before t after, ss = before ++ t :: after ∧ name ∉ definedNames before ∧
      (Placed.definitions ⟨codeTotal before, (dataAll before).length, t⟩).find? (·.name = name) =
        some s := by
  induction ss using List.reverseRecOn with
  | nil => cases h
  | append_singleton ss t ih =>
      rw [definitions_append_singleton, List.find?_append] at h
      cases hf : (definitions ss).find? (·.name = name) with
      | some s' =>
          rw [hf, Option.some_or] at h
          obtain ⟨before, t', after, rfl, hn, hd⟩ := ih (hf.trans h)
          exact ⟨before, t', after ++ [t], by simp, hn, hd⟩
      | none =>
          rw [hf, Option.none_or] at h
          refine ⟨ss, t, [], rfl, ?_, h⟩
          rw [← map_name_definitions]
          intro hm
          obtain ⟨s', hs', he⟩ := List.mem_map.mp hm
          exact List.find?_eq_none.mp hf s' hs' (by simp [he])

theorem find?_definitions_of_nodup {ss : List Statement} (h : (definedNames ss).Nodup) {s}
    (hs : s ∈ definitions ss) : (definitions ss).find? (·.name = s.name) = some s := by
  have hn := SymbolTable.declareAll_of_nodup (map_name_definitions ss ▸ h)
  have hf := SymbolTable.find?_of_mem_declareAll (hn.symm ▸ hs)
  rwa [SymbolTable.find?, hn] at hf

end Statement

namespace Placed

theorem find?_external {token? : Option Token} {name s}
    (h : (token?.toList.map externalSymbol).find? (·.name = name) = some s) :
    ∃ token, token? = some token ∧ token.value = name ∧ s = externalSymbol token := by
  cases token? with
  | none => cases h
  | some token =>
      simp only [Option.toList_some, List.map_cons, List.map_nil, List.find?_singleton] at h
      split at h
      · rename_i hn
        exact ⟨token, rfl, of_decide_eq_true hn, (Option.some.inj h).symm⟩
      · cases h

/-- The symbol found among those of one statement: its label before the name it declares. -/
theorem find?_definitions {p : Placed} {name s} (h : p.definitions.find? (·.name = name) = some s) :
    (∃ label, p.statement.label = some label ∧ label.value = name ∧ s = p.labelSymbol label) ∨
      (∀ label, p.statement.label = some label → label.value ≠ name) ∧
        ∃ token, p.statement.external? = some token ∧ token.value = name ∧ s = externalSymbol token := by
  unfold definitions at h
  rw [List.find?_append] at h
  cases hl : p.statement.label with
  | none =>
      rw [hl] at h
      exact Or.inr ⟨by simp, find?_external h⟩
  | some label =>
      rw [hl] at h
      by_cases hn : label.value = name
      · simp only [Option.toList_some, List.map_cons, List.map_nil, List.find?_singleton,
          labelSymbol_name, hn, decide_true, ↓reduceIte, Option.some_or, Option.some.injEq] at h
        exact Or.inl ⟨label, rfl, hn, h.symm⟩
      · simp only [Option.toList_some, List.map_cons, List.map_nil, List.find?_singleton,
          labelSymbol_name, hn, decide_false, Bool.false_eq_true, ↓reduceIte, Option.none_or] at h
        exact Or.inr ⟨by simpa using hn, find?_external h⟩

/-- The offset of a labelled statement in the image. -/
def offset (codeTotal : Nat) (p : Placed) : Nat :=
  if p.statement.isData then codeTotal + p.data else p.code

theorem address_labelSymbol (codeTotal : Nat) (p : Placed) (label : Token) :
    ((p.labelSymbol label).relocate (.ofNat Memory.base) (.ofNat codeTotal)).address =
      .ofNat (Memory.base + p.offset codeTotal) := by
  unfold labelSymbol offset
  cases p.statement.isData with
  | true =>
      simp only [↓reduceIte, Symbol.relocate, ← UInt16.ofNat_add]
      congr 1
      omega
  | false =>
      simp only [Bool.false_eq_true, ↓reduceIte, Symbol.relocate, ← UInt16.ofNat_add]
      congr 1
      omega

/-! ## The words at a place -/

theorem code_split (table : SymbolTable) {ss p} (h : p ∈ list ss) :
    ∃ before after, (list ss).flatMap (codeWords table) = before ++ (p.codeWords table ++ after) ∧
      before.length = p.code := by
  obtain ⟨pre, post, rfl, hc, hd⟩ := mem_list.mp h
  refine ⟨(list pre).flatMap (codeWords table),
    (listFrom (p.code + p.statement.codeSize) (p.data + p.statement.dataWords.length) post).flatMap
      (codeWords table), ?_, ?_⟩
  · simp [list, listFrom_append, listFrom, ← hc, ← hd]
  · rw [length_code, hc]

theorem data_split {ss p} (h : p ∈ list ss) :
    ∃ before after, Statement.dataAll ss = before ++ (p.statement.dataWords ++ after) ∧
      before.length = p.data := by
  obtain ⟨pre, post, rfl, -, hd⟩ := mem_list.mp h
  exact ⟨Statement.dataAll pre, Statement.dataAll post, by simp, hd.symm⟩

end Placed

/-! ## Both segments -/

theorem Layout.find?_finalTable (ss : List Statement) (name : Text) :
    (finalTable ss).find? name = ((Statement.definitions ss).find? (·.name = name)).map
      (Symbol.relocate (.ofNat Memory.base) (.ofNat (Statement.codeTotal ss))) := by
  rw [finalTable, SymbolTable.find?_relocate, SymbolTable.find?_declareAll]
  simp [SymbolTable.find?]

namespace Assembly

variable {lines : List Line}

theorem find?_program (h : Statement.Fits (Statement.ofLines lines)) (name : Text) :
    (ofLines lines).program.symbols.find? name =
      ((Statement.definitions (Statement.ofLines lines)).find? (·.name = name)).map fun s =>
        (s.relocate (.ofNat Memory.base) (.ofNat (Statement.codeTotal (Statement.ofLines lines)))).mark
          (Statement.exports (Layout.finalTable (Statement.ofLines lines)) (Statement.ofLines lines)) := by
  rw [program_ofLines h]
  simp only [SymbolTable.find?_mark, Layout.find?_finalTable, Option.map_map]
  rfl

theorem find?_label (hfits : Statement.Fits (Statement.ofLines lines))
    (hnodup : (Statement.definedNames (Statement.ofLines lines)).Nodup) {p : Placed} {label : Token}
    (hp : p ∈ Placed.list (Statement.ofLines lines)) (hl : p.statement.label = some label) :
    ∃ s, (ofLines lines).program.symbols.find? label.value = some s ∧
      s.address = .ofNat (Memory.base + p.offset (Statement.codeTotal (Statement.ofLines lines))) := by
  have hmem : p.labelSymbol label ∈ Statement.definitions (Statement.ofLines lines) :=
    List.mem_flatMap.mpr ⟨p, hp, by simp [Placed.definitions, hl]⟩
  have hf := Statement.find?_definitions_of_nodup hnodup hmem
  rw [Placed.labelSymbol_name] at hf
  refine ⟨_, by rw [find?_program hfits, hf]; rfl, ?_⟩
  rw [Symbol.mark_address, Placed.address_labelSymbol]

theorem leadsTo_instruction (hfits : Statement.Fits (Statement.ofLines lines))
    (hnodup : (Statement.definedNames (Statement.ofLines lines)).Nodup) {p : Placed} {label : Token}
    (hp : p ∈ Placed.list (Statement.ofLines lines)) (hl : p.statement.label = some label)
    {op words uses} (ha : p.statement.action = .instruction op)
    (he : p.encoded (Layout.finalTable (Statement.ofLines lines)) = .ok (words, uses)) :
    (ofLines lines).program.LeadsTo label.value words := by
  obtain ⟨s, hs, haddr⟩ := find?_label hfits hnodup hp hl
  obtain ⟨before, after, hcode, hlen⟩ := Placed.code_split (Layout.finalTable (Statement.ofLines lines)) hp
  have hwords : p.codeWords (Layout.finalTable (Statement.ofLines lines)) = words := by
    simp [Placed.codeWords, he]
  have hpos := Placed.codeSize_pos he ha
  have hoffset : p.offset (Statement.codeTotal (Statement.ofLines lines)) = before.length := by
    simp [Placed.offset, Statement.isData, ha, hlen]
  apply Program.leadsTo_of_image before (after ++ Statement.dataAll (Statement.ofLines lines)) hs
  · rw [haddr, hoffset, toNat_ofNat_of_lt]
    have hlt := Placed.address_lt hfits hp hpos
    rwa [Placed.address, ← hlen] at hlt
  · rw [Program.image, program_ofLines hfits]
    simp only [hcode, hwords, List.append_assoc]

theorem leadsTo_data (hfits : Statement.Fits (Statement.ofLines lines))
    (hnodup : (Statement.definedNames (Statement.ofLines lines)).Nodup) {p : Placed} {label : Token}
    (hp : p ∈ Placed.list (Statement.ofLines lines)) (hl : p.statement.label = some label)
    {d} (ha : p.statement.action = .directive d) (hw : (Data.contents d p.statement.args).words ≠ []) :
    (ofLines lines).program.LeadsTo label.value (Data.contents d p.statement.args).words := by
  obtain ⟨s, hs, haddr⟩ := find?_label hfits hnodup hp hl
  obtain ⟨before, after, hdata, hlen⟩ := Placed.data_split hp
  have hwords : p.statement.dataWords = (Data.contents d p.statement.args).words := by
    simp [Statement.dataWords, ha]
  -- the directives that place no data have no words at all
  have hisData : p.statement.isData = true := by
    cases d with
    | entry => exact absurd rfl hw
    | external => exact absurd rfl hw
    | _ => simp [Statement.isData, ha, Directive.isData]
  have hoffset : p.offset (Statement.codeTotal (Statement.ofLines lines)) =
      Statement.codeTotal (Statement.ofLines lines) + before.length := by
    simp [Placed.offset, hisData, hlen]
  have hpos := List.length_pos_iff.mpr hw
  have hlength := congrArg List.length hdata
  simp only [List.length_append, hwords] at hlength
  let code := (Placed.list (Statement.ofLines lines)).flatMap
    (Placed.codeWords (Layout.finalTable (Statement.ofLines lines)))
  have hcode : code.length = Statement.codeTotal (Statement.ofLines lines) := Placed.length_code _ _
  apply Program.leadsTo_of_image (code ++ before) after hs
  · rw [haddr, hoffset, List.length_append, hcode, toNat_ofNat_of_lt]
    have := hfits
    unfold Statement.Fits at this
    omega
  · rw [Program.image, program_ofLines hfits]
    simp only [hdata, hwords, List.append_assoc, code]

/-- Every symbol is made by the first definition of its name. -/
theorem first_of_mem (hfits : Statement.Fits (Statement.ofLines lines)) {s : Symbol}
    (hs : s ∈ (ofLines lines).program.symbols.symbols) :
    ∃ d, (Statement.definitions (Statement.ofLines lines)).find? (·.name = s.name) = some d ∧
      s = (d.relocate (.ofNat Memory.base) (.ofNat (Statement.codeTotal (Statement.ofLines lines)))).mark
        (Statement.exports (Layout.finalTable (Statement.ofLines lines)) (Statement.ofLines lines)) := by
  rw [program_ofLines hfits] at hs
  obtain ⟨r, hr, rfl⟩ := List.mem_map.mp hs
  obtain ⟨d, hd, rfl⟩ := List.mem_map.mp hr
  have hf := SymbolTable.find?_of_mem_declareAll hd
  rw [SymbolTable.find?_declareAll] at hf
  exact ⟨d, by simpa [SymbolTable.find?] using hf, rfl⟩

/-- Every symbol comes from the first statement that defines its name. -/
theorem definition_of_mem (hfits : Statement.Fits (Statement.ofLines lines)) {s : Symbol}
    (hs : s ∈ (ofLines lines).program.symbols.symbols) :
    ∃ before t after d, Statement.ofLines lines = before ++ t :: after ∧
      s.name ∉ Statement.definedNames before ∧
      (Placed.definitions ⟨Statement.codeTotal before, (Statement.dataAll before).length, t⟩).find?
        (·.name = s.name) = some d ∧
      s = (d.relocate (.ofNat Memory.base) (.ofNat (Statement.codeTotal (Statement.ofLines lines)))).mark
        (Statement.exports (Layout.finalTable (Statement.ofLines lines)) (Statement.ofLines lines)) := by
  obtain ⟨d, hf, hsd⟩ := first_of_mem hfits hs
  obtain ⟨before, t, after, hss, hn, hd⟩ := Statement.find?_definitions hf
  exact ⟨before, t, after, d, hss, hn, hd, hsd⟩

/-- Every symbol has the address that its first definition gives it. -/
theorem address_of_mem (hfits : Statement.Fits (Statement.ofLines lines)) {s : Symbol}
    (hs : s ∈ (ofLines lines).program.symbols.symbols) :
    ∃ before t after, Statement.ofLines lines = before ++ t :: after ∧
      s.name ∉ Statement.definedNames before ∧
      ((∃ label, t.label = some label ∧ label.value = s.name ∧ s.kind ≠ .external ∧
          s.address = .ofNat (Memory.base +
            Placed.offset (Statement.codeTotal (Statement.ofLines lines))
              ⟨Statement.codeTotal before, (Statement.dataAll before).length, t⟩)) ∨
        ((∀ label, t.label = some label → label.value ≠ s.name) ∧ t.action = .directive .external ∧
          t.args.value = s.name ∧ s.kind = .external ∧ s.address = 0)) := by
  obtain ⟨before, t, after, d, hss, hn, hd, hsd⟩ := definition_of_mem hfits hs
  refine ⟨before, t, after, hss, hn, ?_⟩
  rcases Placed.find?_definitions hd with ⟨label, hl, hv, rfl⟩ | ⟨hl, token, ht, hv, rfl⟩
  · refine Or.inl ⟨label, hl, hv, ?_, ?_⟩
    · rw [hsd, Symbol.mark_kind, Symbol.relocate_kind, Placed.labelSymbol_kind]
      split <;> simp
    · rw [hsd, Symbol.mark_address, Placed.address_labelSymbol]
  · obtain ⟨ha, -, rfl⟩ := Statement.external?_eq_some.mp ht
    exact Or.inr ⟨hl, ha, hv, by rw [hsd]; rfl, by rw [hsd]; rfl⟩

/-- Labels lead to their content. In a source without errors a labelled instruction is found, as it
is encoded, at the address of its label, and so are the words of a labelled data directive. In any
source that is laid out the final address of a symbol is fixed by its first definition: by the code
before a statement that places no data, by all code and the data before one that does, and 0 for a
name defined elsewhere. -/
theorem labels_lead_to_content (lines : List Line) :
    ((ofLines lines).errors = [] →
      ∀ (before : List Statement) (t : Statement) (after : List Statement) (label : Token),
        Statement.ofLines lines = before ++ t :: after → t.label = some label →
        (∀ op, t.action = .instruction op → ∃ words uses,
          Instruction.encode (ofLines lines).program.symbols
              (.ofNat (Memory.base + Statement.codeTotal before)) op t.keyword t.args = .ok (words, uses) ∧
            (ofLines lines).program.LeadsTo label.value words) ∧
        ∀ d, t.action = .directive d → (Data.contents d t.args).words ≠ [] →
          (ofLines lines).program.LeadsTo label.value (Data.contents d t.args).words) ∧
    ∀ symbols, (Layout.ofLines lines).finalSymbols = .ok symbols →
      (∀ name ∈ Statement.definedNames (Statement.ofLines lines),
        ∃ s, (ofLines lines).program.symbols.find? name = some s) ∧
      ∀ s ∈ (ofLines lines).program.symbols.symbols,
        ∃ (before : List Statement) (t : Statement) (after : List Statement),
        Statement.ofLines lines = before ++ t :: after ∧ s.name ∉ Statement.definedNames before ∧
        ((∃ label, t.label = some label ∧ label.value = s.name ∧ s.kind ≠ .external ∧
            s.address = .ofNat (Memory.base +
              if t.isData then
                Statement.codeTotal (Statement.ofLines lines) + (Statement.dataAll before).length
              else Statement.codeTotal before)) ∨
          ((∀ label, t.label = some label → label.value ≠ s.name) ∧ t.action = .directive .external ∧
            t.args.value = s.name ∧ s.kind = .external ∧ s.address = 0)) := by
  constructor
  · intro herrors before t after label hss hl
    obtain ⟨-, -, hnodup, hfaults, hfits⟩ := (errors_ofLines_eq_nil lines).mp herrors
    let p : Placed := ⟨Statement.codeTotal before, (Statement.dataAll before).length, t⟩
    have hp : p ∈ Placed.list (Statement.ofLines lines) :=
      Placed.mem_list.mpr ⟨before, after, hss, rfl, rfl⟩
    constructor
    · intro op ha
      have hf := hfaults p hp
      cases he : p.encoded (Layout.finalTable (Statement.ofLines lines)) with
      | error ds =>
          simp only [Placed.faults, he] at hf
          subst hf
          simp only [Placed.encoded, p, ha] at he
          exact (Instruction.encode_ne_error_nil _ _ _ _ _ he).elim
      | ok r =>
          obtain ⟨words, uses⟩ := r
          refine ⟨words, uses, ?_, leadsTo_instruction hfits hnodup hp hl ha he⟩
          rw [program_ofLines hfits]
          simpa only [Instruction.encode_mark, Placed.encoded, Placed.address, p, ha] using he
    · intro d ha hw
      exact leadsTo_data (p := p) hfits hnodup hp hl ha hw
  · intro symbols hsymbols
    obtain ⟨hfits, -⟩ := Layout.finalSymbols_eq_ok.mp hsymbols
    constructor
    · intro name hname
      rw [← Statement.map_name_definitions] at hname
      obtain ⟨d, hd, rfl⟩ := List.mem_map.mp hname
      rw [find?_program hfits, ← Option.isSome_iff_exists, Option.isSome_map, List.find?_isSome]
      exact ⟨d, hd, by simp⟩
    · intro s hs
      exact address_of_mem hfits hs

/-- Code and data interleaved, with a name defined elsewhere and a label on an entry directive. -/
def interleavedSource : List Line :=
  [⟨1, Text.of ".extern X"⟩, ⟨2, Text.of "A: mov V, X"⟩, ⟨3, Text.of "V: .data 5, -1"⟩,
    ⟨4, Text.of "E: .entry A"⟩, ⟨5, Text.of "S: .string \"hi\""⟩, ⟨6, Text.of "stop"⟩]

theorem interleavedSource_leads :
    (ofLines interleavedSource).errors = [] ∧
      (ofLines interleavedSource).program.LeadsTo (Text.of "V") [5, 65535] ∧
      ∀ s ∈ (ofLines interleavedSource).program.symbols.symbols, ∃ before t after,
        Statement.ofLines interleavedSource = before ++ t :: after ∧
          s.name ∉ Statement.definedNames before := by
  have herrors : (ofLines interleavedSource).errors = [] := by decide
  obtain ⟨hleads, hall⟩ := labels_lead_to_content interleavedSource
  refine ⟨herrors, ?_, ?_⟩
  · exact (hleads herrors ((Statement.ofLines interleavedSource).take 2)
      ((Statement.ofLines interleavedSource).get ⟨2, by decide⟩)
      ((Statement.ofLines interleavedSource).drop 3) ⟨⟨3, 1, 1⟩, Text.of "V"⟩ (by decide) (by decide)).2
      .data (by decide) (by decide)
  · intro s hs
    obtain ⟨before, t, after, he, hn, -⟩ := (hall (Layout.finalTable (Statement.ofLines interleavedSource))
      (by decide)).2 s hs
    exact ⟨before, t, after, he, hn⟩

end Assembly

end TwoPass
