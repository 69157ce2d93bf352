import TwoPass.Data
import TwoPass.Proofs.Numerals
import TwoPass.Proofs.Tokens
import TwoPass.Proofs.Utf8

/-!
Which arguments a data directive takes without a fault.
-/
namespace TwoPass.Data

/-! ## Lists of literals -/

theorem faultOf_eq_none {r : Except Diagnostic Word} : faultOf r = none ↔ ∃ w, r = .ok w := by
  cases r <;> simp [faultOf]

theorem faults_literals {tokens : List Token} :
    (literals tokens).faults = [] ↔ ∀ item ∈ tokens.map (·.value), Numeral.IsLiteral item := by
  simp only [literals, List.filterMap_eq_nil_iff, List.forall_mem_map, faultOf_eq_none, Token.exists_literal]

/-- The arguments of a list of numbers: at least one item, and each a literal. -/
def IsNumbers (t : Text) : Prop :=
  t ≠ [] ∧ ∀ item ∈ t.items, Numeral.IsLiteral item

theorem faults_numbers {args : Token} : (numbers args).faults = [] ↔ IsNumbers args.value := by
  unfold numbers IsNumbers
  by_cases he : args.value = []
  · simp [he, fault]
  · rw [if_neg (by simpa using he), faults_literals, Token.map_value_split]
    simp [he, Text.items]

/-! ## Strings -/

/-- A text between the first and the last quote of another. -/
def IsQuoted (t inner : Text) : Prop :=
  ∃ before after, t = before ++ '"'.toUInt8 :: inner ++ '"'.toUInt8 :: after ∧
    '"'.toUInt8 ∉ before ∧ '"'.toUInt8 ∉ after

/-- The arguments of a string: valid UTF-8 between quotes, of characters that each fit a word. -/
def IsString (t : Text) : Prop :=
  ∃ cs : List Char, IsQuoted t (cs.flatMap Text.encodeChar) ∧ ∀ c ∈ cs, c.toNat ≤ 0xFFFF

theorem quoted?_eq_some {t inner : Text} : quoted? t = some inner ↔ IsQuoted t inner := by
  constructor
  · intro h
    unfold quoted? at h
    split at h
    · cases h
    · rename_i b rest hb
      split at h
      · cases h
      · rename_i d back hd
        cases h
        obtain ⟨before, ht, hbefore, hq⟩ := Text.dropWhile_eq_cons.mp hb
        obtain ⟨after, hr, hafter, hq'⟩ := Text.dropWhile_eq_cons.mp hd
        have hb : b = '"'.toUInt8 := by simpa using hq
        have hd : d = '"'.toUInt8 := by simpa using hq'
        have hrest : rest = back.reverse ++ '"'.toUInt8 :: after.reverse := by
          rw [← List.reverse_reverse rest, hr, hd]
          simp
        refine ⟨before, after.reverse, ?_, Text.forall_ne_iff.mp hbefore, ?_⟩
        · rw [ht, hb, hrest]
          simp
        · rw [List.mem_reverse]
          exact Text.forall_ne_iff.mp hafter
  · rintro ⟨before, after, rfl, hbefore, hafter⟩
    have hfirst : (before ++ '"'.toUInt8 :: inner ++ '"'.toUInt8 :: after).dropWhile (· != '"'.toUInt8) =
        '"'.toUInt8 :: (inner ++ '"'.toUInt8 :: after) :=
      Text.dropWhile_eq_cons.mpr ⟨before, by simp, Text.forall_ne_iff.mpr hbefore, by decide⟩
    have hlast : (inner ++ '"'.toUInt8 :: after).reverse.dropWhile (· != '"'.toUInt8) =
        '"'.toUInt8 :: inner.reverse :=
      Text.dropWhile_eq_cons.mpr ⟨after.reverse, by simp,
        Text.forall_ne_iff.mpr (mt List.mem_reverse.mp hafter), by decide⟩
    simp only [quoted?, hfirst, hlast, List.reverse_reverse]

theorem charWords?_eq_some {t : Text} {words : List Word} :
    charWords? t = some words ↔
      ∃ cs : List Char, t = cs.flatMap Text.encodeChar ∧ (∀ c ∈ cs, c.toNat ≤ 0xFFFF) ∧
        words = cs.map fun c => .ofNat c.toNat := by
  unfold charWords?
  rw [Option.bind_eq_bind, Option.bind_eq_some_iff]
  apply exists_congr
  intro cs
  rw [Text.chars?_eq_some]
  apply and_congr_right
  intro _
  have hall : (cs.all fun c => decide (c.toNat ≤ 0xFFFF)) = true ↔ ∀ c ∈ cs, c.toNat ≤ 0xFFFF := by
    simp only [List.all_eq_true, decide_eq_true_eq]
  rw [Option.ite_none_right_eq_some, hall, Option.some.injEq]
  exact and_congr_right fun _ => eq_comm

theorem faults_string {args : Token} : (string args).faults = [] ↔ IsString args.value := by
  have hsome : (∃ words, (quoted? args.value).bind charWords? = some words) ↔ IsString args.value := by
    simp only [Option.bind_eq_some_iff, quoted?_eq_some, charWords?_eq_some]
    constructor
    · rintro ⟨words, _, hq, cs, rfl, hcs, -⟩
      exact ⟨cs, hq, hcs⟩
    · rintro ⟨cs, hq, hcs⟩
      exact ⟨_, _, hq, cs, rfl, hcs, rfl⟩
  rw [← hsome, string]
  cases (quoted? args.value).bind charWords? with
  | none => simp [fault]
  | some words => simp

/-! ## Matrices -/

/-- A matrix header: two texts in brackets, with gaps between the brackets. -/
def IsHeader (t rows columns rest : Text) : Prop :=
  ∃ gap, t = rows.inBrackets ++ gap ++ columns.inBrackets ++ rest ∧
    rows.NoBrackets ∧ columns.NoBrackets ∧ ∀ b ∈ gap, isGap b = true

/-- A dimension of a matrix. -/
def IsDimension (t : Text) (n : Nat) : Prop :=
  Numeral.Writes t.trim n ∧ n ≤ 32767

/-- The arguments of a matrix: a header that asks for no more cells than memory has, and at most as
many literals as there are cells. -/
def IsMatrix (t : Text) : Prop :=
  ∃ rows columns rest r c, IsHeader t rows columns rest ∧ IsDimension rows r ∧ IsDimension columns c ∧
    r * c ≤ Memory.size ∧ rest.trim.arguments.length ≤ r * c ∧
    ∀ item ∈ rest.trim.arguments, Numeral.IsLiteral item

theorem matrixHeader?_eq_some {t rows columns rest : Text} :
    matrixHeader? t = some (rows, columns, rest) ↔ IsHeader t rows columns rest := by
  unfold matrixHeader?
  simp only [Option.bind_eq_bind, Option.bind_eq_some_iff, Prod.exists, Option.pure_def, Option.some.injEq,
    Prod.mk.injEq, Text.bracketed?_eq_some]
  constructor
  · rintro ⟨_, middle, ⟨rfl, hr⟩, _, _, ⟨hm, hc⟩, rfl, rfl, rfl⟩
    obtain ⟨gap, rfl, hg, -⟩ := Text.dropWhile_eq_cons.mp hm
    exact ⟨gap, by simp [Text.inBrackets], hr, hc, hg⟩
  · rintro ⟨gap, rfl, hr, hc, hg⟩
    refine ⟨rows, gap ++ (columns.inBrackets ++ rest), ⟨by simp, hr⟩, columns, rest, ⟨?_, hc⟩, rfl, rfl, rfl⟩
    exact Text.dropWhile_eq_cons.mpr ⟨gap, rfl, hg, by decide⟩

theorem dimension?_eq_some {t : Text} {n : Nat} : dimension? t = some n ↔ IsDimension t n := by
  unfold dimension? IsDimension
  constructor
  · intro h
    split at h
    · rename_i m hm
      split at h
      · rename_i hpos
        cases h
        obtain ⟨hw, -, hle⟩ := Numeral.read16_eq_ok.mp hm
        rw [Int.toNat_of_nonneg hpos]
        exact ⟨hw, by omega⟩
      · cases h
    · cases h
  · rintro ⟨hw, hle⟩
    have hread : Numeral.read16 t.trim = .ok (n : Int) :=
      Numeral.read16_eq_ok.mpr ⟨hw, by omega, by omega⟩
    simp [hread]

theorem faults_cells {count : Nat} {tokens : List Token} :
    (cells count tokens).faults = [] ↔
      tokens.length ≤ count ∧ ∀ item ∈ tokens.map (·.value), Numeral.IsLiteral item := by
  unfold cells
  rw [List.append_eq_nil_iff, faults_literals, and_comm]
  by_cases hl : tokens.length ≤ count
  · rw [List.take_of_length_le hl, List.drop_of_length_le hl]
    simp [hl]
  · cases hd : tokens.drop count with
    | nil => exact absurd (List.drop_eq_nil_iff.mp hd) hl
    | cons item rest => simp [hl]

theorem faults_matrix {args : Token} : (matrix args).faults = [] ↔ IsMatrix args.value := by
  simp only [IsMatrix, ← matrixHeader?_eq_some, ← dimension?_eq_some]
  unfold matrix
  cases hh : matrixHeader? args.value with
  | none => simp [fault]
  | some header =>
      obtain ⟨rows, columns, rest⟩ := header
      simp only [Option.some.injEq, Prod.mk.injEq]
      cases hr : dimension? rows with
      | none => simp [fault, hr]
      | some r =>
          cases hc : dimension? columns with
          | none => simp [fault, hc]
          | some c =>
              by_cases hs : r * c ≤ Memory.size
              · simp only [hs, ↓reduceIte, faults_cells]
                rw [← List.length_map (·.value), Text.map_value_arguments, Token.value_piece]
                simp [hr, hc, hs]
              · simp [fault, hr, hc, hs]

end TwoPass.Data
