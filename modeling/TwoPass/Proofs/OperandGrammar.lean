import TwoPass.Machine.Name
import TwoPass.Proofs.Encoding
import TwoPass.Proofs.Numerals
import TwoPass.Proofs.Tokens

/-!
Which texts are operands and instructions. A shape is read off the text in a fixed order, but a name is never a
register and holds neither brackets nor a number sign, so the order does not show in the grammar.
-/
namespace TwoPass

/-! ## Names -/

namespace Name

theorem ne_nil_of_isValid {t : Text} (h : isValid t = true) : t ≠ [] := by
  rintro rfl
  cases h

theorem isNameByte_of_isLetter {b : UInt8} (h : Text.isLetter b = true) : isNameByte b = true := by
  simp [isNameByte, h]

theorem isNameByte_of_mem {t : Text} (h : isValid t = true) {b : UInt8} (hb : b ∈ t) :
    isNameByte b = true := by
  cases t with
  | nil => cases hb
  | cons a t =>
      simp only [isValid, Bool.and_eq_true, List.all_eq_true] at h
      rcases List.mem_cons.mp hb with rfl | hb
      · exact isNameByte_of_isLetter h.1.2
      · exact h.2 b hb

theorem not_mem_of_isValid {t : Text} (h : isValid t = true) {b : UInt8} (hb : isNameByte b = false) :
    b ∉ t := by
  intro hm
  rw [isNameByte_of_mem h hm] at hb
  cases hb

theorem noBrackets {t : Text} (h : isValid t = true) : t.NoBrackets :=
  Text.noBrackets_of_not_mem (not_mem_of_isValid h (by decide)) (not_mem_of_isValid h (by decide))

theorem isReserved_of_register {t : Text} {r : Register} (h : Register.parse? t = some r) :
    isReserved t = true := by
  simp [isReserved, h]

end Name

theorem Register.eq_of_parse? {t : Text} {r : Register} (h : Register.parse? t = some r) :
    ∃ letter digit, t = [letter, digit] ∧ (letter = 'r'.toUInt8 ∨ letter = 'R'.toUInt8) := by
  unfold Register.parse? at h
  split at h
  · rename_i letter digit
    split at h
    · rename_i hl
      exact ⟨letter, digit, rfl, hl⟩
    · cases h
  · cases h

/-! ## Shapes -/

namespace Shape

/-- `label[row][column]` -/
def matrixText (label row column : Text) : Text :=
  label ++ (row.inBrackets ++ column.inBrackets)

theorem matrix?_eq_some {t : Token} {shape : Shape} :
    matrix? t = some shape ↔
      ∃ label row column : Text, t.value = matrixText label row column ∧ label ≠ [] ∧
        label.NoBrackets ∧ row.NoBrackets ∧ column.NoBrackets ∧
        shape = .matrix (t.piece 0 label) (t.piece (label.length + 1) row)
          (t.piece (label.length + row.length + 3) column) := by
  constructor
  · intro h
    unfold matrix? at h
    dsimp only at h
    split at h
    · cases h
    · rename_i hne
      split at h
      · cases h
      · rename_i row rest hr
        split at h
        · rename_i column hc
          cases h
          obtain ⟨hdrop, hrow⟩ := Text.bracketed?_eq_some.mp hr
          obtain ⟨rfl, hcolumn⟩ := Text.bracketed?_eq_some.mp hc
          refine ⟨_, row, column, ?_, by simpa using hne, fun b hb => ?_, hrow, hcolumn, rfl⟩
          · rw [List.append_nil] at hdrop
            rw [matrixText, ← hdrop]
            exact (List.prefix_iff_eq_append.mp (List.takeWhile_prefix _)).symm
          · simpa using List.mem_takeWhile_imp hb
        · cases h
  · rintro ⟨label, row, column, hv, hne, hlabel, hrow, hcolumn, rfl⟩
    have htake : t.value.takeWhile (!Text.isBracket ·) = label :=
      (Text.cut_iff.mpr ⟨hv, fun b hb => by simp [hlabel b hb], by decide⟩).1
    have hr : Text.bracketed? (t.value.drop label.length) = some (row, column.inBrackets) := by
      rw [hv, matrixText, List.drop_left]
      exact Text.bracketed?_eq_some.mpr ⟨rfl, hrow⟩
    have hc : Text.bracketed? column.inBrackets = some (column, []) :=
      Text.bracketed?_eq_some.mpr ⟨(List.append_nil _).symm, hcolumn⟩
    simp [matrix?, htake, hne, hr, hc]

theorem ofToken_immediate {t : Token} {rest : Text} (h : t.value = '#'.toUInt8 :: rest) :
    ofToken t = .immediate (t.sliceFrom 1) := by
  simp [ofToken, h]

theorem ofToken_register {t : Token} {r : Register} (h : Register.parse? t.value = some r) :
    ofToken t = .register r := by
  obtain ⟨letter, digit, hv, hl⟩ := Register.eq_of_parse? h
  have hhead : t.value.head? ≠ some '#'.toUInt8 := by
    rw [hv, List.head?_cons, ne_eq, Option.some.injEq]
    rcases hl with rfl | rfl <;> decide
  simp [ofToken, hhead, h]

theorem ofToken_matrix {t : Token} {label row column : Text} (hv : t.value = matrixText label row column)
    (hhead : label.head? ≠ some '#'.toUInt8) (hne : label ≠ []) (hlabel : label.NoBrackets)
    (hrow : row.NoBrackets) (hcolumn : column.NoBrackets) :
    ofToken t = .matrix (t.piece 0 label) (t.piece (label.length + 1) row)
      (t.piece (label.length + row.length + 3) column) := by
  have hm := matrix?_eq_some.mpr ⟨label, row, column, hv, hne, hlabel, hrow, hcolumn, rfl⟩
  have hr : Register.parse? t.value = none := by
    rw [Option.eq_none_iff_forall_ne_some]
    intro r hr
    obtain ⟨letter, digit, hv', -⟩ := Register.eq_of_parse? hr
    have hlen := congrArg List.length (hv'.symm.trans hv)
    simp [matrixText, Text.inBrackets] at hlen
    omega
  have hhead' : t.value.head? ≠ some '#'.toUInt8 := by
    rwa [hv, matrixText, List.head?_append_of_ne_nil _ hne]
  simp [ofToken, hhead', hr, hm]

/-- Only the trimmed label is a name, so a number sign in front of it has to be traced through `trim`. -/
theorem ofToken_matrix_of_isValid {t : Token} {label row column : Text} (hv : t.value = matrixText label row column)
    (hvalid : Name.isValid label.trim = true) (hlabel : label.NoBrackets) (hrow : row.NoBrackets)
    (hcolumn : column.NoBrackets) :
    ofToken t = .matrix (t.piece 0 label) (t.piece (label.length + 1) row)
      (t.piece (label.length + row.length + 3) column) := by
  have hne : label ≠ [] := by
    rintro rfl
    exact Name.ne_nil_of_isValid hvalid rfl
  have hhead : label.head? ≠ some '#'.toUInt8 := by
    intro hh
    obtain ⟨rest, rfl⟩ := List.head?_eq_some_iff.mp hh
    rw [Text.trim_cons (by decide)] at hvalid
    exact Name.not_mem_of_isValid hvalid (by decide) List.mem_cons_self
  exact ofToken_matrix hv hhead hne hlabel hrow hcolumn

theorem ofToken_direct {t : Token} (hv : Name.isValid t.value = true)
    (hr : Name.isReserved t.value = false) : ofToken t = .direct t := by
  have hhead : t.value.head? ≠ some '#'.toUInt8 := fun h =>
    Name.not_mem_of_isValid hv (by decide) (List.mem_of_mem_head? h)
  have hreg : Register.parse? t.value = none := by
    rw [Option.eq_none_iff_forall_ne_some]
    intro r h
    rw [Name.isReserved_of_register h] at hr
    cases hr
  have hm : matrix? t = none := by
    rw [Option.eq_none_iff_forall_ne_some]
    intro shape h
    obtain ⟨label, row, column, ht, -⟩ := matrix?_eq_some.mp h
    have hb : '['.toUInt8 ∈ t.value := by simp [ht, matrixText, Text.inBrackets]
    exact Name.not_mem_of_isValid hv (by decide) hb
  simp [ofToken, hhead, hreg, hm]

end Shape

/-! ## Operands -/

namespace Operand

/-- The texts of operands, for a given notion of which names are defined. -/
inductive Written (defined : Text → Prop) : Text → Prop
  | immediate {t} : Numeral.IsLiteral (Text.trim t) → Written defined ('#'.toUInt8 :: t)
  | register {t r} : Register.parse? t = some r → Written defined t
  | matrix {label row column r c} : label.NoBrackets → row.NoBrackets → column.NoBrackets →
      Register.parse? row.trim = some r → Register.parse? column.trim = some c → defined label.trim →
      Written defined (Shape.matrixText label row column)
  | direct {t} : defined t → Written defined t

/-- What the text of an operand stands for. -/
inductive Denotes (table : SymbolTable) : Text → Operand → Prop
  | immediate {t n} : Numeral.Writes (Text.trim t) n → -32768 ≤ n → n ≤ 32767 →
      Denotes table ('#'.toUInt8 :: t) (.immediate (.ofInt n))
  | register {t r} : Register.parse? t = some r → Denotes table t (.register r)
  | matrix {label row column r c s} : label.NoBrackets → row.NoBrackets → column.NoBrackets →
      Register.parse? row.trim = some r → Register.parse? column.trim = some c →
      table.find? label.trim = some s →
      Denotes table (Shape.matrixText label row column) (.matrix s.target r c)
  | direct {t s} : table.find? t = some s → Denotes table t (.direct s.target)

theorem denotes_of_ofToken {table : SymbolTable} {t : Token} {op} (h : ofToken table t = .ok op) :
    Denotes table t.value op := by
  unfold ofToken at h
  split at h
  · cases h
  · unfold Shape.ofToken at h
    split at h
    · rename_i hhead
      obtain ⟨rest, hv⟩ := List.head?_eq_some_iff.mp hhead
      obtain ⟨w, hw, rfl⟩ := ofShape_immediate.mp h
      obtain ⟨n, hn, hlow, hhigh, rfl⟩ := Token.literal_eq_ok.mp hw
      rw [Token.value_sliceFrom, hv] at hn
      rw [hv]
      exact .immediate hn hlow hhigh
    · split at h
      · rename_i r hr
        obtain rfl := ofShape_register.mp h
        exact .register hr
      · cases hm : Shape.matrix? t with
        | none =>
            rw [hm] at h
            obtain ⟨leads, hl, rfl⟩ := ofShape_direct.mp h
            obtain ⟨s, hs, rfl⟩ := target_eq_ok.mp hl
            exact .direct hs
        | some shape =>
            rw [hm] at h
            obtain ⟨label, row, column, hv, -, hlabel, hrow, hcolumn, rfl⟩ := Shape.matrix?_eq_some.mp hm
            obtain ⟨r, c, leads, hr, hc, hl, rfl⟩ := ofShape_matrix.mp h
            obtain ⟨s, hs, rfl⟩ := target_eq_ok.mp hl
            rw [hv]
            exact .matrix hlabel hrow hcolumn (readRegister_eq_ok.mp hr) (readRegister_eq_ok.mp hc) hs

/-- Each way to write an operand is read as such, because defined names cannot be mistaken. -/
theorem ofToken_of_denotes {table : SymbolTable}
    (hnames : ∀ name, table.find? name ≠ none → Name.isValid name = true ∧ Name.isReserved name = false)
    {t : Token} {op} (h : Denotes table t.value op) : ofToken table t = .ok op := by
  have hread : t.value ≠ [] → ofToken table t = ofShape table (Shape.ofToken t) :=
    fun hne => if_neg (by simpa using hne)
  generalize hv : t.value = text at h
  cases h with
  | immediate hn hlow hhigh =>
      rw [hread (by simp [hv]), Shape.ofToken_immediate hv]
      refine ofShape_immediate.mpr ⟨_, Token.literal_eq_ok.mpr ⟨_, ?_, hlow, hhigh, rfl⟩, rfl⟩
      rwa [Token.value_sliceFrom, hv]
  | register hr =>
      obtain ⟨letter, digit, rfl, -⟩ := Register.eq_of_parse? hr
      rw [hread (by simp [hv]), Shape.ofToken_register (hv ▸ hr)]
      exact ofShape_register.mpr rfl
  | matrix hlabel hrow hcolumn hr hc hs =>
      rename_i label row column r c s
      obtain ⟨hvalid, -⟩ := hnames _ (Option.ne_none_iff_exists'.mpr ⟨s, hs⟩)
      rw [hread (by simp [hv, Shape.matrixText, Text.inBrackets]),
        Shape.ofToken_matrix_of_isValid hv hvalid hlabel hrow hcolumn]
      exact ofShape_matrix.mpr ⟨r, c, _, readRegister_eq_ok.mpr hr, readRegister_eq_ok.mpr hc,
        target_eq_ok.mpr ⟨s, hs, rfl⟩, rfl⟩
  | direct hs =>
      subst hv
      rename_i s
      obtain ⟨hvalid, hres⟩ := hnames _ (Option.ne_none_iff_exists'.mpr ⟨s, hs⟩)
      rw [hread (Name.ne_nil_of_isValid hvalid), Shape.ofToken_direct hvalid hres]
      exact ofShape_direct.mpr ⟨_, target_eq_ok.mpr ⟨s, hs, rfl⟩, rfl⟩

theorem ofToken_eq_ok {table : SymbolTable}
    (hnames : ∀ name, table.find? name ≠ none → Name.isValid name = true ∧ Name.isReserved name = false)
    {t : Token} {op} : ofToken table t = .ok op ↔ Denotes table t.value op :=
  ⟨denotes_of_ofToken, ofToken_of_denotes hnames⟩

theorem exists_denotes {table : SymbolTable} {t : Text} :
    (∃ op, Denotes table t op) ↔ Written (fun name => table.find? name ≠ none) t := by
  constructor
  · rintro ⟨op, h⟩
    cases h with
    | immediate hn hlow hhigh => exact .immediate ⟨_, hn, hlow, hhigh⟩
    | register hr => exact .register hr
    | matrix hlabel hrow hcolumn hr hc hs => exact .matrix hlabel hrow hcolumn hr hc (by simp [hs])
    | direct hs => exact .direct (by simp [hs])
  · intro h
    cases h with
    | immediate hl =>
        obtain ⟨n, hn, hlow, hhigh⟩ := hl
        exact ⟨_, .immediate hn hlow hhigh⟩
    | register hr => exact ⟨_, .register hr⟩
    | matrix hlabel hrow hcolumn hr hc hd =>
        obtain ⟨s, hs⟩ := Option.ne_none_iff_exists'.mp hd
        exact ⟨_, .matrix hlabel hrow hcolumn hr hc hs⟩
    | direct hd =>
        obtain ⟨s, hs⟩ := Option.ne_none_iff_exists'.mp hd
        exact ⟨_, .direct hs⟩

end Operand

namespace Instruction

/-- An instruction with a known mnemonic and as many operands as its operation takes. -/
def Written (defined : Text → Prop) (op : Option Opcode) (args : Text) : Prop :=
  ∃ o, op = some o ∧ args.arguments.length = o.arity ∧ ∀ t ∈ args.arguments, Operand.Written defined t

theorem exists_resolve {table : SymbolTable} {ts : List Token} :
    (∃ ops, resolve table ts = .ok ops) ↔ ∀ t ∈ ts, ∃ op, Operand.ofToken table t = .ok op := by
  simp only [resolve_eq_ok]
  induction ts with
  | nil => simp
  | cons t ts ih =>
      rw [List.forall_mem_cons, ← ih]
      constructor
      · rintro ⟨_, h⟩
        cases h with
        | cons ht hs => exact ⟨⟨_, ht⟩, ⟨_, hs⟩⟩
      · rintro ⟨⟨op, ht⟩, ⟨ops, hs⟩⟩
        exact ⟨op :: ops, .cons ht hs⟩

theorem map_value_operands (args : Token) : (operands args).map (·.value) = args.value.arguments :=
  Text.map_value_arguments args

theorem exists_encode {table : SymbolTable}
    (hnames : ∀ name, table.find? name ≠ none → Name.isValid name = true ∧ Name.isReserved name = false)
    (pc : Word) (op : Option Opcode) (keyword args : Token) :
    (∃ r, encode table pc op keyword args = .ok r) ↔
      Written (fun name => table.find? name ≠ none) op args.value := by
  have hresolve : (∃ ops, resolve table (operands args) = .ok ops) ↔
      ∀ t ∈ args.value.arguments, Operand.Written (fun name => table.find? name ≠ none) t := by
    rw [exists_resolve, ← map_value_operands, List.forall_mem_map]
    simp only [Operand.ofToken_eq_ok hnames, Operand.exists_denotes]
  unfold Written
  rw [← hresolve, ← map_value_operands, List.length_map]
  constructor
  · rintro ⟨⟨words, uses⟩, h⟩
    obtain ⟨o, ops, ho, ha, hr, -, -⟩ := encode_eq_ok.mp h
    exact ⟨o, ho, ha, ops, hr⟩
  · rintro ⟨o, ho, ha, ops, hr⟩
    exact ⟨(_, _), encode_eq_ok.mpr ⟨o, ops, ho, ha, hr, rfl, rfl⟩⟩

end Instruction

end TwoPass
