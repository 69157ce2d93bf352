import TwoPass.Proofs.DataGrammar
import TwoPass.Proofs.ListingText

/-!
A statement that was read back places the words that its item stands for.
-/
namespace TwoPass.Listing

/-! ## Literals -/

theorem ofInt_toInt (value : Int16) : UInt16.ofInt value.toInt = value.toUInt16 := by
  have hcases : value.toInt = if 2 * value.toUInt16.toNat < 2 ^ 16 then (value.toUInt16.toNat : Int)
      else (value.toUInt16.toNat : Int) - (2 ^ 16 : Nat) := BitVec.toInt_eq_toNat_cond value.toBitVec
  have hlt : value.toUInt16.toNat < 65536 := UInt16.toNat_lt _
  have hmod : value.toInt % 2 ^ 16 = value.toUInt16.toNat := by
    split at hcases <;> omega
  rw [UInt16.ofInt, hmod, Int.toNat_natCast, UInt16.ofNat_toNat]

theorem literal_of_writes {t : Token} {value : Int16} (h : Numeral.Writes t.value value.toInt) :
    t.literal = .ok value.toUInt16 := by
  have hlow : -2 ^ 15 ≤ value.toInt := value.le_toInt
  have hhigh : value.toInt < 2 ^ 15 := value.toInt_lt
  refine Token.literal_eq_ok.mpr ⟨value.toInt, h, ?_, ?_, (ofInt_toInt value).symm⟩
  · omega
  · omega

theorem literal_of_value {t : Token} {value : Int16} (h : t.value = Text.ofInt value.toInt) :
    t.literal = .ok value.toUInt16 :=
  literal_of_writes (h ▸ Numeral.writes_ofInt _)

theorem literals_of_values {tokens : List Token} {values : List Int16}
    (h : tokens.map (·.value) = renderValues values) :
    Data.literals tokens = { words := values.map Int16.toUInt16 } := by
  induction values generalizing tokens with
  | nil =>
      rw [List.map_eq_nil_iff.mp h]
      rfl
  | cons value values ih =>
      obtain ⟨t, ts, rfl, ht, hts⟩ := List.map_eq_cons_iff.mp h
      have hrest := ih hts
      simp only [Data.literals, Data.Contents.mk.injEq] at hrest
      simp only [Data.literals, List.map_cons, literal_of_value ht, List.filterMap_cons, Data.faultOf, hrest]
      rfl

/-! ## Data -/

theorem contents_data (args : Token) (first : Int16) (rest : List Int16)
    (h : args.value = Body.args (.data first rest)) :
    Data.contents .data args = { words := Body.dataWords (.data first rest) } := by
  have hwords : ∀ t ∈ renderValues (first :: rest), Text.IsWord t := fun t => isWord_of_mem_renderValues
  have hne : args.value ≠ [] := h ▸ (firm_commas (List.cons_ne_nil _ _) hwords).ne_nil
  have hitems : (args.split ','.toUInt8).map (·.value) = renderValues (first :: rest) := by
    rw [Token.map_value_split, ← Text.items, h]
    exact items_commas (List.cons_ne_nil _ _) hwords
  rw [Data.contents, Data.numbers, if_neg (by simpa using hne), literals_of_values hitems]
  rfl

theorem contents_string (args : Token) (letters : List Letter) (h : args.value = Body.args (.string letters)) :
    Data.contents .string args = { words := Body.dataWords (.string letters) } := by
  have hquoted : Data.quoted? args.value = some (letters.flatMap fun l => Text.encodeChar l.char) := by
    rw [h]
    exact Data.quoted?_eq_some.mpr ⟨[], [], rfl, List.not_mem_nil, List.not_mem_nil⟩
  have hwords : Data.charWords? (letters.flatMap fun l => Text.encodeChar l.char) =
      some (letters.map fun l => .ofNat l.char.toNat) := by
    refine Data.charWords?_eq_some.mpr ⟨letters.map (·.char), ?_, ?_, ?_⟩
    · rw [List.flatMap_map]
    · exact List.forall_mem_map.mpr fun l _ => l.fits
    · rw [List.map_map]
      rfl
  simp only [Data.contents, Data.string, hquoted, Option.bind_some, hwords]
  rfl

theorem cells_of_values {tokens : List Token} {values : List Int16} {count : Nat}
    (h : tokens.map (·.value) = renderValues values) (hc : values.length ≤ count) :
    Data.cells count tokens =
      { words := values.map Int16.toUInt16 ++ List.replicate (count - values.length) 0 } := by
  have hlength : tokens.length = values.length := by
    have hl := congrArg List.length h
    simpa [renderValues] using hl
  have hle : tokens.length ≤ count := hlength ▸ hc
  simp only [Data.cells, List.take_of_length_le hle, List.drop_of_length_le hle, literals_of_values h, hlength,
    List.append_nil]

theorem noBrackets_ofNat (n : Nat) : (Text.ofNat n).NoBrackets := by
  obtain ⟨-, hdigits, -⟩ := Numeral.isDigits_ofNat n
  refine Text.noBrackets_of_not_mem (fun hb => ?_) fun hb => ?_
  · exact absurd (hdigits _ hb) (by decide)
  · exact absurd (hdigits _ hb) (by decide)

theorem dimension?_ofNat {n : Nat} (h : n ≤ 32767) : Data.dimension? (Text.ofNat n) = some n := by
  refine Data.dimension?_eq_some.mpr ⟨?_, h⟩
  rw [(Text.isWord_ofNat n).firm.trim]
  exact .plain (Numeral.isDigits_ofNat n)

theorem contents_mat (args : Token) {rows columns : Nat} {values : List Int16}
    (limits : rows ≤ 32767 ∧ columns ≤ 32767) (cells : rows * columns ≤ Memory.size)
    (filled : values.length ≤ rows * columns)
    (h : args.value = Body.args (.mat rows columns values limits cells filled)) :
    Data.contents .mat args = { words := Body.dataWords (.mat rows columns values limits cells filled) } := by
  obtain ⟨tail, htail⟩ : ∃ tail : Text, tail = if values = [] then [] else
    ' '.toUInt8 :: commas (renderValues values) := ⟨_, rfl⟩
  have hheader : Data.matrixHeader? args.value = some (Text.ofNat rows, Text.ofNat columns, tail) := by
    refine Data.matrixHeader?_eq_some.mpr ⟨[], ?_, noBrackets_ofNat rows, noBrackets_ofNat columns, ?_⟩
    · rw [h, htail, List.append_nil]
      rfl
    · exact fun b hb => absurd hb List.not_mem_nil
  have htrim : tail.trim = commas (renderValues values) := by
    rw [htail]
    split
    · rename_i hv
      rw [hv]
      rfl
    · rename_i hv
      exact (firm_commas (by simpa [renderValues] using hv) fun t => isWord_of_mem_renderValues).trim_space
  have hvalues : ∀ start, ((if (args.piece start tail).value.isEmpty then []
      else (args.piece start tail).split ','.toUInt8).map (·.value)) = renderValues values := by
    intro start
    rw [Text.map_value_arguments, Token.value_piece, htrim]
    exact arguments_commas fun t => isWord_of_mem_renderValues
  simp only [Data.contents, Data.matrix, hheader, dimension?_ofNat limits.1, dimension?_ofNat limits.2, cells,
    ↓reduceIte, cells_of_values (hvalues _) filled]
  rfl

/-! ## Arguments -/

/-- The shape in which an argument is read. -/
inductive Argument.Shaped : Argument → Shape → Prop
  | immediate {value literal} : literal.value = Text.ofInt value.toInt →
      Shaped (.immediate value) (.immediate literal)
  | register {r} : Shaped (.register r) (.register r)
  | direct {label token} : token.value = label.text → Shaped (.direct label) (.direct token)
  | matrix {label row column token r c} : token.value = label.text → r.value = renderRegister row →
      c.value = renderRegister column → Shaped (.matrix label row column) (.matrix token r c)

theorem parse?_renderRegister (r : Register) : Register.parse? (renderRegister r) = some r := by
  revert r
  decide

theorem noBrackets_renderRegister (r : Register) : (renderRegister r).NoBrackets := by
  have hvalid : ∀ r : Register, Name.isValid (renderRegister r) = true := by decide
  exact Name.noBrackets (hvalid r)

theorem Argument.shaped {a : Argument} {t : Token} (h : t.value = a.render) : a.Shaped (Shape.ofToken t) := by
  cases a with
  | immediate value =>
      rw [Shape.ofToken_immediate h]
      refine .immediate ?_
      rw [Token.value_sliceFrom, h]
      exact (Text.isWord_ofInt _).firm.trim
  | register r =>
      have hr : Register.parse? t.value = some r := by
        rw [h]
        exact parse?_renderRegister r
      rw [Shape.ofToken_register hr]
      exact .register
  | direct label =>
      rw [Shape.ofToken_direct (by rw [h]; exact label.valid) (by rw [h]; exact label.free)]
      exact .direct h
  | matrix label row column =>
      have hword := label.isWord
      have hhead : label.text.head? ≠ some '#'.toUInt8 := fun hh =>
        Name.not_mem_of_isValid label.valid (by decide) (List.mem_of_mem_head? hh)
      rw [Shape.ofToken_matrix h hhead hword.ne_nil (Name.noBrackets label.valid)
        (noBrackets_renderRegister row) (noBrackets_renderRegister column)]
      exact .matrix hword.firm.trim (isWord_renderRegister row).firm.trim
        (isWord_renderRegister column).firm.trim

theorem Argument.Shaped.size {a : Argument} {shape : Shape} (h : a.Shaped shape) :
    shape.mode.extraWords = a.size := by
  cases h <;> rfl

/-! ## Names -/

def Definition.ofSymbol (s : Symbol) : Definition :=
  ⟨s.name, s.address, s.kind⟩

/-- Where a label leads. -/
def target (definitions : List Definition) (label : Label) : Target :=
  ⟨addressOf definitions label, if isExternal definitions label then some label.text else none⟩

def Argument.operand (definitions : List Definition) : Argument → Operand
  | .immediate value => .immediate value.toUInt16
  | .register r => .register r
  | .direct label => .direct (target definitions label)
  | .matrix label row column => .matrix (target definitions label) row column

section
variable {table : SymbolTable} {definitions : List Definition}
variable (htable : table.symbols.map Definition.ofSymbol = definitions)
include htable

theorem lookup_eq (label : Label) :
    lookup definitions label = (table.find? label.text).map Definition.ofSymbol := by
  rw [lookup, ← htable, List.find?_map]
  rfl

theorem target_eq {label : Label} (hd : label.text ∈ definitions.map (·.name)) {t : Token}
    (ht : t.value = label.text) : Operand.target table t = .ok (target definitions label) := by
  have hlookup := lookup_eq htable label
  cases hf : table.find? label.text with
  | none =>
      rw [hf, Option.map_none, lookup, List.find?_eq_none] at hlookup
      obtain ⟨d, hmem, hn⟩ := List.mem_map.mp hd
      exact absurd hn (by simpa using hlookup d hmem)
  | some s =>
      rw [hf, Option.map_some] at hlookup
      have hname : s.name = label.text := by simpa using List.find?_some hf
      simp only [Operand.target, ht, hf, target, addressOf, isExternal, hlookup, Definition.ofSymbol, hname,
        Option.map_some, Option.getD_some, Option.any_some, decide_eq_true_eq]

theorem Argument.Shaped.ofShape {a : Argument} {shape : Shape} (h : a.Shaped shape)
    (hd : ∀ label ∈ a.label?, label.text ∈ definitions.map (·.name)) :
    Operand.ofShape table shape = .ok (a.operand definitions) := by
  cases h with
  | immediate hl => exact Operand.ofShape_immediate.mpr ⟨_, literal_of_value hl, rfl⟩
  | register => exact Operand.ofShape_register.mpr rfl
  | direct ht => exact Operand.ofShape_direct.mpr ⟨_, target_eq htable (hd _ rfl) ht, rfl⟩
  | matrix ht hr hc =>
      have hread : ∀ {t : Token} {r : Register}, t.value = renderRegister r →
          Operand.readRegister t = .ok r := by
        intro t r h
        rw [Operand.readRegister, h, parse?_renderRegister]
      exact Operand.ofShape_matrix.mpr ⟨_, _, _, hread hr, hread hc, target_eq htable (hd _ rfl) ht, rfl⟩

theorem Argument.ofToken {a : Argument} {t : Token} (h : t.value = a.render)
    (hd : ∀ label ∈ a.label?, label.text ∈ definitions.map (·.name)) :
    Operand.ofToken table t = .ok (a.operand definitions) := by
  rw [Operand.ofToken, if_neg (by rw [h]; simpa using a.isWord_render.ne_nil)]
  exact (Argument.shaped h).ofShape htable hd

end

/-! ## Instructions -/

theorem forall₂_operands {args : Token} {arguments : List Argument}
    (h : args.value = commas (arguments.map Argument.render)) :
    List.Forall₂ (fun (t : Token) (a : Argument) => t.value = a.render) (Instruction.operands args) arguments := by
  have hmap : (Instruction.operands args).map (·.value) = arguments.map Argument.render := by
    rw [Instruction.map_value_operands, h]
    exact arguments_commas (List.forall_mem_map.mpr fun a _ => a.isWord_render)
  rw [← List.forall₂_eq_eq_eq, List.forall₂_map_left_iff, List.forall₂_map_right_iff] at hmap
  exact hmap

theorem map_extraWords {ts : List Token} {arguments : List Argument}
    (h : List.Forall₂ (fun (t : Token) (a : Argument) => t.value = a.render) ts arguments) :
    ts.map (fun t => (Shape.ofToken t).mode.extraWords) = arguments.map Argument.size := by
  induction h with
  | nil => rfl
  | cons ht _ ih => rw [List.map_cons, List.map_cons, ih, (Argument.shaped ht).size]

theorem resolve_of_forall₂ {table : SymbolTable} {definitions : List Definition}
    (htable : table.symbols.map Definition.ofSymbol = definitions) {ts : List Token}
    {arguments : List Argument}
    (h : List.Forall₂ (fun (t : Token) (a : Argument) => t.value = a.render) ts arguments)
    (hd : ∀ a ∈ arguments, ∀ label ∈ a.label?, label.text ∈ definitions.map (·.name)) :
    Instruction.resolve table ts = .ok (arguments.map (Argument.operand definitions)) := by
  induction h with
  | nil => rfl
  | cons ht _ ih =>
      obtain ⟨ha, hrest⟩ := List.forall_mem_cons.mp hd
      rw [Instruction.resolve, Argument.ofToken htable ht ha, ih hrest]
      rfl

theorem size_of_args {args : Token} {op : Opcode} {arguments : List Argument}
    (arity : arguments.length = op.arity) (h : args.value = commas (arguments.map Argument.render)) :
    Instruction.size (some op) args = 1 + (arguments.map Argument.size).sum := by
  have hall := forall₂_operands h
  rw [Instruction.size_eq (hall.length_eq.trans arity), map_extraWords hall]

theorem Argument.words_operand (definitions : List Definition) (a : Argument) :
    (a.operand definitions).words = a.words definitions := by
  cases a <;> rfl

theorem Argument.field_operand (definitions : List Definition) (a : Argument) :
    (a.operand definitions).field = a.mode * 8 + a.registerNumber := by
  cases a <;> rfl

theorem mainWord_operands (definitions : List Definition) (op : Opcode) (arguments : List Argument) :
    Instruction.mainWord op (arguments.map (Argument.operand definitions)) = mainWord op arguments := by
  match arguments with
  | [] => rfl
  | [dst] =>
      simp only [List.map_cons, List.map_nil, Instruction.mainWord, mainWord, Argument.field_operand,
        Nat.add_assoc]
  | src :: dst :: rest =>
      have hsrc : (src.mode * 8 + src.registerNumber) * 64 = src.mode * 512 + src.registerNumber * 64 := by
        omega
      simp only [List.map_cons, Instruction.mainWord, mainWord, Argument.field_operand, hsrc, Nat.add_assoc]

theorem uses_operands (definitions : List Definition) (address : Nat) (arguments : List Argument) :
    Instruction.uses (.ofNat address) (arguments.map (Argument.operand definitions)) =
      argumentUses definitions address arguments := by
  induction arguments generalizing address with
  | nil => rfl
  | cons a arguments ih =>
      have hsize : (a.words definitions).length = a.size := by cases a <;> rfl
      rw [List.map_cons, Instruction.uses, Argument.words_operand, hsize, ← UInt16.ofNat_add, ih, argumentUses]
      cases a with
      | immediate value => rfl
      | register r => rfl
      | direct label =>
          cases h : isExternal definitions label <;>
            simp [Argument.operand, Argument.uses, Argument.label?, Operand.external?, target, h]
      | matrix label row column =>
          cases h : isExternal definitions label <;>
            simp [Argument.operand, Argument.uses, Argument.label?, Operand.external?, target, h]

theorem encode_of_args {table : SymbolTable} {definitions : List Definition}
    (htable : table.symbols.map Definition.ofSymbol = definitions) (address : Nat) {keyword args : Token}
    {op : Opcode} {arguments : List Argument} (arity : arguments.length = op.arity)
    (h : args.value = commas (arguments.map Argument.render))
    (hd : ∀ a ∈ arguments, ∀ label ∈ a.label?, label.text ∈ definitions.map (·.name)) :
    Instruction.encode table (.ofNat address) (some op) keyword args =
      .ok (Body.code definitions (.instruction op arguments arity),
        Body.uses definitions address (.instruction op arguments arity)) := by
  have hall := forall₂_operands h
  refine Instruction.encode_eq_ok.mpr
    ⟨op, _, rfl, hall.length_eq.trans arity, resolve_of_forall₂ htable hall hd, ?_, ?_⟩
  · rw [Instruction.words, mainWord_operands, List.flatMap_map]
    simp only [Argument.words_operand]
    rfl
  · rw [show (UInt16.ofNat address + 1) = .ofNat (address + 1) from (UInt16.ofNat_add address 1).symm,
      uses_operands]
    rfl

end TwoPass.Listing
