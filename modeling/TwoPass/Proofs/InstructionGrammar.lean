import TwoPass.Proofs.Decoding

/-!
Which instructions are encoded, and to what words, against any symbol table. A table may hold names that
look like another kind of operand, so here the order shows in which the shapes of an operand are tried. An
instruction at fault gives nothing but its faults.
-/
namespace TwoPass

/-! ## Shapes in their order -/

/-- `r` or `R` and a digit below 8. -/
def Register.Written (t : Text) (r : Register) : Prop :=
  t = ['r'.toUInt8, .ofNat (48 + r.val)] ∨ t = ['R'.toUInt8, .ofNat (48 + r.val)]

theorem Register.parse?_eq_some {t : Text} {r : Register} : parse? t = some r ↔ Written t r := by
  constructor
  · intro h
    obtain ⟨letter, digit, rfl, hletter⟩ := eq_of_parse? h
    simp only [parse?, hletter, ↓reduceIte] at h
    split at h
    · rename_i hdigit
      cases h
      have hd : digit = .ofNat (48 + (digit.toNat - 48)) := by
        rw [Nat.add_sub_cancel' hdigit.1, UInt8.ofNat_toNat]
      rw [Written, ← hd]
      exact hletter.imp (fun h => by rw [h]) fun h => by rw [h]
    · cases h
  · have hread : ∀ r : Register, parse? ['r'.toUInt8, .ofNat (48 + r.val)] = some r ∧
        parse? ['R'.toUInt8, .ofNat (48 + r.val)] = some r := by decide
    rintro (rfl | rfl)
    · exact (hread r).1
    · exact (hread r).2

theorem Register.parse?_eq_none {t : Text} : parse? t = none ↔ ∀ r, ¬ Written t r := by
  simp only [Option.eq_none_iff_forall_ne_some, ne_eq, parse?_eq_some]

namespace Shape

/-- The parts of `label[row][column]`, blanks included. -/
structure Parts (t label row column : Text) : Prop where
  text : t = matrixText label row column
  label_ne_nil : label ≠ []
  label_plain : label.NoBrackets
  row_plain : row.NoBrackets
  column_plain : column.NoBrackets

/-- The shape of an operand, whether or not the operand is in order. Where several shapes fit a text the
first of them counts. -/
inductive Reads (t : Token) : Shape → Prop
  | immediate {rest} : t.value = '#'.toUInt8 :: rest → Reads t (.immediate (t.piece 1 rest))
  | register {r} : Register.Written t.value r → Reads t (.register r)
  | matrix {label row column} : t.value.head? ≠ some '#'.toUInt8 → Parts t.value label row column →
      Reads t (.matrix (t.piece 0 label) (t.piece (label.length + 1) row)
        (t.piece (label.length + row.length + 3) column))
  | direct : t.value.head? ≠ some '#'.toUInt8 → (∀ r, ¬ Register.Written t.value r) →
      (∀ label row column, ¬ Parts t.value label row column) → Reads t (.direct t)

theorem matrix?_eq_none {t : Token} :
    matrix? t = none ↔ ∀ label row column, ¬ Parts t.value label row column := by
  constructor
  · intro h label row column hp
    rw [matrix?_eq_some.mpr ⟨label, row, column, hp.text, hp.label_ne_nil, hp.label_plain, hp.row_plain,
      hp.column_plain, rfl⟩] at h
    cases h
  · intro h
    rw [Option.eq_none_iff_forall_ne_some]
    intro shape hm
    obtain ⟨label, row, column, ht, hne, hlabel, hrow, hcolumn, -⟩ := matrix?_eq_some.mp hm
    exact h label row column ⟨ht, hne, hlabel, hrow, hcolumn⟩

theorem reads_ofToken (t : Token) : Reads t (ofToken t) := by
  unfold ofToken
  split
  · rename_i hhead
    obtain ⟨rest, hv⟩ := List.head?_eq_some_iff.mp hhead
    have hs : t.sliceFrom 1 = t.piece 1 rest := by rw [Token.sliceFrom, hv]; rfl
    rw [hs]
    exact .immediate hv
  · rename_i hhead
    split
    · rename_i r hr
      exact .register (Register.parse?_eq_some.mp hr)
    · rename_i hr
      cases hm : matrix? t with
      | none => exact .direct hhead (Register.parse?_eq_none.mp hr) (matrix?_eq_none.mp hm)
      | some shape =>
          obtain ⟨label, row, column, ht, hne, hlabel, hrow, hcolumn, rfl⟩ := matrix?_eq_some.mp hm
          exact .matrix hhead ⟨ht, hne, hlabel, hrow, hcolumn⟩

/-- A text has one shape. -/
theorem Reads.ofToken_eq {t : Token} {shape : Shape} (h : Reads t shape) : ofToken t = shape := by
  cases h with
  | immediate hv =>
      rw [ofToken_immediate hv, Token.sliceFrom, hv]
      rfl
  | register hr => exact ofToken_register (Register.parse?_eq_some.mpr hr)
  | matrix hhead hp =>
      rw [hp.text, matrixText, List.head?_append_of_ne_nil _ hp.label_ne_nil] at hhead
      exact ofToken_matrix hp.text hhead hp.label_ne_nil hp.label_plain hp.row_plain hp.column_plain
  | direct hhead hr hp =>
      simp [ofToken, hhead, Register.parse?_eq_none.mpr hr, matrix?_eq_none.mpr hp]

end Shape

/-! ## Operands -/

namespace Operand

/-- Three bits of mode and three of register. -/
def fieldBits (mode register : Nat) : Word :=
  UInt16.ofNat mode <<< 3 ||| UInt16.ofNat register

/-- What an operand puts into an instruction: its field of the main word, its extra words, and the name
defined elsewhere that the first of them refers to. A literal is stored modulo 2 ^ 16, a name as the address
it has in the table, and the two registers of a matrix as the digits of a number to the base of 8. -/
inductive Stored (table : SymbolTable) (t : Token) : Word → List Word → Option Text → Prop
  | immediate {literal n w} : Shape.Reads t (.immediate literal) → Numeral.Writes literal.value n →
      -32768 ≤ n → n ≤ 32767 → (w.toNat : Int) = n % 2 ^ 16 → Stored table t (fieldBits 0 0) [w] none
  | register {r} : Shape.Reads t (.register r) → Stored table t (fieldBits 2 r.val) [] none
  | matrix {label row column r c s w} : Shape.Reads t (.matrix label row column) →
      Register.Written row.value r → Register.Written column.value c → table.find? label.value = some s →
      w.toNat = 8 * r.val + c.val →
      Stored table t (fieldBits 3 0) [s.address, w] (if s.kind = .external then some s.name else none)
  | direct {name s} : Shape.Reads t (.direct name) → t.value ≠ [] → table.find? name.value = some s →
      Stored table t (fieldBits 1 0) [s.address] (if s.kind = .external then some s.name else none)

/-- The one fault of an operand that stands for nothing. -/
inductive Rejected (table : SymbolTable) (t : Token) : Diagnostic → Prop
  | missing : t.value = [] → Rejected table t (.missingOperand t.position)
  | literal {literal d} : Shape.Reads t (.immediate literal) → ¬ Numeral.IsLiteral literal.value →
      d.position? = some literal.position → Rejected table t d
  | row {label row column} : Shape.Reads t (.matrix label row column) → (∀ r, ¬ Register.Written row.value r) →
      Rejected table t (.invalidRegister row.position)
  | column {label row column r} : Shape.Reads t (.matrix label row column) → Register.Written row.value r →
      (∀ c, ¬ Register.Written column.value c) → Rejected table t (.invalidRegister column.position)
  | label {label row column r c} : Shape.Reads t (.matrix label row column) → Register.Written row.value r →
      Register.Written column.value c → table.find? label.value = none →
      Rejected table t (.unknownLabel label.position label.value)
  | direct {name} : Shape.Reads t (.direct name) → t.value ≠ [] → table.find? name.value = none →
      Rejected table t (.unknownLabel name.position name.value)

section
variable {table : SymbolTable} {t : Token}

theorem ofToken_of_reads {shape : Shape} (h : Shape.Reads t shape) (hne : t.value ≠ []) :
    ofToken table t = ofShape table shape := by
  rw [ofToken, if_neg (by simpa using hne), h.ofToken_eq]

theorem ne_nil_of_reads {shape : Shape} (h : Shape.Reads t shape) (hs : shape.mode ≠ .direct) : t.value ≠ [] := by
  cases h with
  | immediate hv => simp [hv]
  | register hr => rcases hr with hr | hr <;> simp [hr]
  | matrix hhead hp => simp [hp.text, Shape.matrixText, Text.inBrackets]
  | direct => exact absurd rfl hs

/-- The field of the main word that is read off an operand. -/
def bits : Operand → Word
  | .register r => fieldBits AddressMode.register.code r.val
  | op => fieldBits op.mode.code 0

theorem ofNat_field (op : Operand) : UInt16.ofNat op.field = op.bits := by
  have hfield : ∀ (mode : AddressMode) (r : Register),
      UInt16.ofNat (mode.code * 8 + r.val) = fieldBits mode.code r.val := by
    intro mode
    cases mode <;> decide
  cases op with
  | register r => exact hfield .register r
  | immediate value => exact hfield .immediate ⟨0, Nat.succ_pos 7⟩
  | direct target => exact hfield .direct ⟨0, Nat.succ_pos 7⟩
  | matrix target row column => exact hfield .matrix ⟨0, Nat.succ_pos 7⟩

theorem toNat_eq_indices {r c : Register} {w : Word} :
    w.toNat = 8 * r.val + c.val ↔ w = .ofNat (r.val * 8 + c.val) := by
  have hr : r.val < 8 := r.isLt
  have hc : c.val < 8 := c.isLt
  rw [← UInt16.toNat_inj, UInt16.toNat_ofNat']
  omega

theorem ofToken_of_stored {field : Word} {extra : List Word} {name? : Option Text}
    (h : Stored table t field extra name?) :
    ∃ op, ofToken table t = .ok op ∧ op.bits = field ∧ op.words = extra ∧ op.external? = name? := by
  cases h with
  | @immediate literal n w hs hn hlow hhigh hw =>
      rw [ofToken_of_reads hs (ne_nil_of_reads hs (by rintro ⟨⟩))]
      refine ⟨.immediate w, ofShape_immediate.mpr ⟨_, ?_, rfl⟩, rfl, rfl, rfl⟩
      exact Token.literal_eq_ok.mpr ⟨n, hn, hlow, hhigh, Numeral.eq_ofInt_iff.mpr hw⟩
  | @register r hs =>
      rw [ofToken_of_reads hs (ne_nil_of_reads hs (by rintro ⟨⟩))]
      exact ⟨.register r, ofShape_register.mpr rfl, rfl, rfl, rfl⟩
  | @matrix label row column r c s w hs hr hc hf hw =>
      rw [ofToken_of_reads hs (ne_nil_of_reads hs (by rintro ⟨⟩)), toNat_eq_indices.mp hw]
      refine ⟨.matrix s.target r c, ofShape_matrix.mpr ⟨r, c, s.target, ?_, ?_, ?_, rfl⟩, rfl, rfl, rfl⟩
      · exact readRegister_eq_ok.mpr (Register.parse?_eq_some.mpr hr)
      · exact readRegister_eq_ok.mpr (Register.parse?_eq_some.mpr hc)
      · exact target_eq_ok.mpr ⟨s, hf, rfl⟩
  | @direct name s hs hne hf =>
      rw [ofToken_of_reads hs hne]
      exact ⟨.direct s.target, ofShape_direct.mpr ⟨_, target_eq_ok.mpr ⟨s, hf, rfl⟩, rfl⟩, rfl, rfl, rfl⟩

theorem stored_of_ofToken {op : Operand} (h : ofToken table t = .ok op) :
    Stored table t op.bits op.words op.external? := by
  have hne : t.value ≠ [] := by
    intro hv
    rw [ofToken, if_pos (by simp [hv])] at h
    cases h
  have hs := Shape.reads_ofToken t
  generalize Shape.ofToken t = shape at hs
  rw [ofToken_of_reads hs hne] at h
  cases shape with
  | immediate literal =>
      obtain ⟨w, hw, rfl⟩ := ofShape_immediate.mp h
      obtain ⟨n, hn, hlow, hhigh, hw⟩ := Token.literal_eq_ok.mp hw
      exact .immediate hs hn hlow hhigh (Numeral.eq_ofInt_iff.mp hw)
  | register r =>
      obtain rfl := ofShape_register.mp h
      exact .register hs
  | matrix label row column =>
      obtain ⟨r, c, leads, hr, hc, hl, rfl⟩ := ofShape_matrix.mp h
      obtain ⟨s, hf, rfl⟩ := target_eq_ok.mp hl
      exact .matrix hs (Register.parse?_eq_some.mp (readRegister_eq_ok.mp hr))
        (Register.parse?_eq_some.mp (readRegister_eq_ok.mp hc)) hf (toNat_eq_indices.mpr rfl)
  | direct name =>
      obtain ⟨leads, hl, rfl⟩ := ofShape_direct.mp h
      obtain ⟨s, hf, rfl⟩ := target_eq_ok.mp hl
      exact .direct hs hne hf

theorem rejected_of_ofToken {d : Diagnostic} (h : ofToken table t = .error d) : Rejected table t d := by
  by_cases hne : t.value = []
  · rw [ofToken, if_pos (by simp [hne])] at h
    cases h
    exact .missing hne
  have hs := Shape.reads_ofToken t
  generalize Shape.ofToken t = shape at hs
  rw [ofToken_of_reads hs hne] at h
  cases shape with
  | immediate literal =>
      rcases bind_eq_error.mp h with h | ⟨w, -, h⟩
      · obtain ⟨hl, hp⟩ := Token.literal_eq_error h
        exact .literal hs hl hp
      · cases h
  | register r => cases h
  | matrix label row column =>
      rcases bind_eq_error.mp h with h | ⟨r, hr, h⟩
      · obtain ⟨hr, rfl⟩ := readRegister_eq_error.mp h
        exact .row hs (Register.parse?_eq_none.mp hr)
      have hr := Register.parse?_eq_some.mp (readRegister_eq_ok.mp hr)
      rcases bind_eq_error.mp h with h | ⟨c, hc, h⟩
      · obtain ⟨hc, rfl⟩ := readRegister_eq_error.mp h
        exact .column hs hr (Register.parse?_eq_none.mp hc)
      have hc := Register.parse?_eq_some.mp (readRegister_eq_ok.mp hc)
      rcases bind_eq_error.mp h with h | ⟨leads, -, h⟩
      · obtain ⟨hf, rfl⟩ := target_eq_error.mp h
        exact .label hs hr hc hf
      · cases h
  | direct name =>
      rcases bind_eq_error.mp h with h | ⟨leads, -, h⟩
      · obtain ⟨hf, rfl⟩ := target_eq_error.mp h
        exact .direct hs hne hf
      · cases h

end

end Operand

/-! ## Instructions -/

namespace Instruction

/-- The fields of a main word, shifted to their places. A single operand is the destination. -/
def packed (op : Opcode) : List Word → Word
  | [] => UInt16.ofNat op.code <<< 12
  | [dst] => UInt16.ofNat op.code <<< 12 ||| dst
  | src :: dst :: _ => UInt16.ofNat op.code <<< 12 ||| src <<< 6 ||| dst

/-- What operands put into an instruction, one after the other, if their extra words start at `start`: their
fields, their extra words, and where these refer to a name defined elsewhere. -/
inductive Laid (table : SymbolTable) : Word → List Token → List Word → List Word → List ExternalUse → Prop
  | nil {start} : Laid table start [] [] [] []
  | cons {start t field extra name? ts fields extras uses} : Operand.Stored table t field extra name? →
      Laid table (start + .ofNat extra.length) ts fields extras uses →
      Laid table start (t :: ts) (field :: fields) (extra ++ extras)
        (name?.toList.map (ExternalUse.mk · start) ++ uses)

/-- One fault for each operand that stands for nothing, in the order of the operands. -/
inductive Faults (table : SymbolTable) : List Token → List Diagnostic → Prop
  | nil : Faults table [] []
  | good {t field extra name? ts ds} : Operand.Stored table t field extra name? → Faults table ts ds →
      Faults table (t :: ts) ds
  | bad {t d ts ds} : (∀ field extra name?, ¬ Operand.Stored table t field extra name?) →
      Operand.Rejected table t d → Faults table ts ds → Faults table (t :: ts) (d :: ds)

theorem ofNat_fields {code src dst : Nat} (hcode : code < 16) (hsrc : src < 64) (hdst : dst < 64) :
    UInt16.ofNat (code * 4096 + src * 64 + dst) =
      UInt16.ofNat code <<< 12 ||| UInt16.ofNat src <<< 6 ||| UInt16.ofNat dst := by
  have hlow : 64 * src + dst = 64 * src ||| dst := Nat.two_pow_add_eq_or_of_lt (i := 6) hdst src
  have hall : 4096 * code + (64 * src + dst) = 4096 * code ||| (64 * src + dst) :=
    Nat.two_pow_add_eq_or_of_lt (i := 12) (by omega) code
  have hword : code * 4096 + src * 64 + dst = code * 4096 ||| src * 64 ||| dst := by
    rw [Nat.or_assoc, Nat.mul_comm code, Nat.mul_comm src, ← hlow, ← hall, Nat.add_assoc]
  have hsize : UInt16.size = 65536 := rfl
  have hshift : ∀ {n i : Nat}, n * 2 ^ i < 65536 → n < 65536 → i < 16 →
      (UInt16.ofNat n <<< UInt16.ofNat i).toNat = n * 2 ^ i := by
    intro n i hn hn' hi
    rw [UInt16.toNat_shiftLeft, Nat.shiftLeft_eq, UInt16.toNat_ofNat_of_lt' hn',
      UInt16.toNat_ofNat_of_lt' (by omega), Nat.mod_eq_of_lt hi, Nat.mod_eq_of_lt hn]
  have hcodes : (UInt16.ofNat code <<< 12).toNat = code * 4096 := hshift (i := 12) (by omega) (by omega) (by omega)
  have hsrcs : (UInt16.ofNat src <<< 6).toNat = src * 64 := hshift (i := 6) (by omega) (by omega) (by omega)
  apply UInt16.toNat_inj.mp
  rw [UInt16.toNat_or, UInt16.toNat_or, hcodes, hsrcs, UInt16.toNat_ofNat_of_lt' (by omega),
    UInt16.toNat_ofNat_of_lt' (by omega), hword]

theorem mainWord_eq_packed (op : Opcode) (ops : List Operand) : mainWord op ops = packed op (ops.map Operand.bits) := by
  have hlt : ∀ op : Operand, op.field < 64 := fun op => op.field_lt.trans (by decide)
  rcases ops with _ | ⟨src, _ | ⟨dst, rest⟩⟩
  · have h := ofNat_fields op.code_lt (show 0 < 64 by decide) (show 0 < 64 by decide)
    simpa [mainWord, packed] using h
  · have h := ofNat_fields op.code_lt (show 0 < 64 by decide) (hlt src)
    simpa [mainWord, packed, Operand.ofNat_field] using h
  · rw [mainWord, ofNat_fields op.code_lt (hlt src) (hlt dst), Operand.ofNat_field, Operand.ofNat_field]
    rfl

section
variable {table : SymbolTable} {ts : List Token}

theorem uses_cons (start : Word) (op : Operand) (ops : List Operand) :
    uses start (op :: ops) =
      op.external?.toList.map (ExternalUse.mk · start) ++ uses (start + .ofNat op.words.length) ops := by
  cases h : op.external? <;> simp [uses, h]

/-- The operands that are looked up put into the instruction what is laid out for their texts. -/
theorem laid_iff {start : Word} {fields extras : List Word} {us : List ExternalUse} :
    Laid table start ts fields extras us ↔ ∃ ops, resolve table ts = .ok ops ∧
      ops.map Operand.bits = fields ∧ ops.flatMap Operand.words = extras ∧ uses start ops = us := by
  simp only [resolve_eq_ok]
  constructor
  · intro h
    induction h with
    | nil => exact ⟨[], .nil, rfl, rfl, rfl⟩
    | cons ht _ ih =>
        obtain ⟨op, hop, rfl, rfl, rfl⟩ := Operand.ofToken_of_stored ht
        obtain ⟨ops, hops, rfl, rfl, rfl⟩ := ih
        exact ⟨op :: ops, .cons hop hops, rfl, rfl, uses_cons _ op ops⟩
  · rintro ⟨ops, hops, rfl, rfl, rfl⟩
    induction hops generalizing start with
    | nil => exact .nil
    | @cons t op ts ops hop _ ih =>
        rw [uses_cons]
        exact .cons (Operand.stored_of_ofToken hop) ih

theorem faults_of_resolve_ok {ops : List Operand} (h : resolve table ts = .ok ops) : Faults table ts [] := by
  rw [resolve_eq_ok] at h
  induction h with
  | nil => exact .nil
  | cons ht _ ih => exact .good (Operand.stored_of_ofToken ht) ih

theorem faults_of_resolve {ds : List Diagnostic} (h : resolve table ts = .error ds) : Faults table ts ds := by
  induction ts generalizing ds with
  | nil => cases h
  | cons t ts ih =>
      cases ht : Operand.ofToken table t with
      | ok op =>
          cases hs : resolve table ts with
          | ok ops => simp [resolve, ht, hs] at h
          | error es =>
              simp only [resolve, ht, hs, Except.error.injEq] at h
              exact .good (Operand.stored_of_ofToken ht) (h ▸ ih hs)
      | error d =>
          have hno : ∀ field extra name?, ¬ Operand.Stored table t field extra name? := by
            intro field extra name? hop
            obtain ⟨op, hop, -⟩ := Operand.ofToken_of_stored hop
            rw [hop] at ht
            cases ht
          have hd := Operand.rejected_of_ofToken ht
          cases hs : resolve table ts with
          | ok ops =>
              simp only [resolve, ht, hs, Except.error.injEq] at h
              exact h ▸ .bad hno hd (faults_of_resolve_ok hs)
          | error es =>
              simp only [resolve, ht, hs, Except.error.injEq] at h
              exact h ▸ .bad hno hd (ih hs)

end

/-- An instruction is encoded if its mnemonic is known and its operands are as many as the operation takes
and all stand for something. Its words are then the main word, packed from their fields, and what is stored
for the operands in their order. Otherwise there are only faults: one for an unknown mnemonic or a wrong
number of operands, and else one for each operand that stands for nothing. -/
theorem encode_all_or_nothing (table : SymbolTable) (pc : Word) (op : Option Opcode) (keyword args : Token) :
    (operands args).map (·.value) = args.value.arguments ∧
    (∀ words uses, encode table pc op keyword args = .ok (words, uses) ↔
      ∃ o fields extras, op = some o ∧ (operands args).length = o.arity ∧
        Laid table (pc + 1) (operands args) fields extras uses ∧ words = packed o fields :: extras) ∧
    ∀ faults, encode table pc op keyword args = .error faults →
      (op = none ∧ faults = [.unknownInstruction keyword.position keyword.value]) ∨
      ∃ o, op = some o ∧
        (((operands args).length ≠ o.arity ∧
          faults = [.argumentCount keyword.position o.arity (operands args).length]) ∨
        ((operands args).length = o.arity ∧ faults ≠ [] ∧ Faults table (operands args) faults)) := by
  refine ⟨map_value_operands args, fun words uses => ?_, fun faults h => ?_⟩
  · simp only [encode_eq_ok, laid_iff, Instruction.words, mainWord_eq_packed]
    constructor
    · rintro ⟨o, ops, ho, hcount, hops, rfl, rfl⟩
      exact ⟨o, _, _, ho, hcount, ⟨ops, hops, rfl, rfl, rfl⟩, rfl⟩
    · rintro ⟨o, _, _, ho, hcount, ⟨ops, hops, rfl, rfl, rfl⟩, rfl⟩
      exact ⟨o, ops, ho, hcount, hops, rfl, rfl⟩
  · cases op with
    | none =>
        cases h
        exact Or.inl ⟨rfl, rfl⟩
    | some o =>
        refine Or.inr ⟨o, rfl, ?_⟩
        by_cases ha : (operands args).length = o.arity
        · cases hr : resolve table (operands args) with
          | ok ops => simp [encode, ha, hr] at h
          | error es =>
              simp only [encode, ha, hr, ↓reduceIte, Except.error.injEq] at h
              subst h
              refine Or.inr ⟨ha, fun he => ?_, faults_of_resolve hr⟩
              exact resolve_ne_error_nil table (operands args) (he ▸ hr)
        · simp only [encode, ha, ↓reduceIte, Except.error.injEq] at h
          exact Or.inl ⟨ha, h.symm⟩

/-- A table of names that look like a literal, a register and a matrix. -/
def lookalikes : SymbolTable :=
  { symbols := [
      { name := Text.of "#1x", address := 100, kind := .code, position := ⟨1, 1, 3⟩ },
      { name := Text.of "r1", address := 101, kind := .code, position := ⟨2, 1, 2⟩ },
      { name := Text.of "M[ r1 ][R2]", address := 102, kind := .data, position := ⟨3, 1, 11⟩ },
      { name := Text.of "M", address := 300, kind := .data, position := ⟨4, 1, 1⟩ },
      { name := Text.of "X", address := 0, kind := .external, position := ⟨5, 1, 1⟩ }] }

theorem lookalikes_encode :
    (∃ fields, Laid lookalikes 201 (operands ⟨⟨9, 5, 16⟩, Text.of "#-3, M[ r1 ][R2]"⟩) fields [65533, 300, 10] [] ∧
      packed .mov fields = 0b0000000000011000) ∧
    (∃ fields, Laid lookalikes 201 (operands ⟨⟨9, 5, 5⟩, Text.of "M,X"⟩) fields [300, 0] [⟨Text.of "X", 202⟩] ∧
      packed .cmp fields = 0b0001001000001000) ∧
    (∃ fields, Laid lookalikes 201 (operands ⟨⟨9, 5, 2⟩, Text.of "r1"⟩) fields [] [] ∧
      packed .inc fields = 0b0111000000010001) ∧
    Faults lookalikes (operands ⟨⟨9, 5, 12⟩, Text.of "#1x,M[r8][] "⟩)
      [.invalidLiteral ⟨9, 6, 2⟩, .invalidRegister ⟨9, 11, 2⟩] := by
  have hgood : ∀ keyword {o args main extras uses},
      encode lookalikes 200 (some o) keyword args = .ok (main :: extras, uses) →
      ∃ fields, Laid lookalikes 201 (operands args) fields extras uses ∧ packed o fields = main := by
    intro keyword o args main extras uses h
    obtain ⟨-, hok, -⟩ := encode_all_or_nothing lookalikes 200 (some o) keyword args
    obtain ⟨_, fields, _, ho, -, hlaid, hwords⟩ := (hok _ _).mp h
    cases ho
    cases hwords
    exact ⟨fields, hlaid, rfl⟩
  have hbad : encode lookalikes 200 (some .mov) ⟨⟨9, 1, 3⟩, Text.of "mov"⟩
      ⟨⟨9, 5, 12⟩, Text.of "#1x,M[r8][] "⟩ =
        .error [.invalidLiteral ⟨9, 6, 2⟩, .invalidRegister ⟨9, 11, 2⟩] := by decide +kernel
  obtain ⟨-, -, herror⟩ := encode_all_or_nothing lookalikes 200 (some .mov) ⟨⟨9, 1, 3⟩, Text.of "mov"⟩
    ⟨⟨9, 5, 12⟩, Text.of "#1x,M[r8][] "⟩
  refine ⟨hgood ⟨⟨9, 1, 3⟩, Text.of "mov"⟩ (by decide +kernel),
    hgood ⟨⟨9, 1, 3⟩, Text.of "cmp"⟩ (by decide +kernel), hgood ⟨⟨9, 1, 3⟩, Text.of "inc"⟩ (by decide +kernel), ?_⟩
  rcases herror _ hbad with ⟨ho, -⟩ | ⟨o, ho, ⟨hcount, -⟩ | ⟨-, -, hfaults⟩⟩
  · cases ho
  · cases ho
    exact absurd (by decide +kernel) hcount
  · exact hfaults

end Instruction

end TwoPass
