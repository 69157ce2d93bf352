import Mathlib
import TwoPass.Statement.Literal

/-!
Signed decimal numerals: which texts are read, and that what is printed is read back.
-/
namespace TwoPass

theorem Text.isDigit_iff {b : UInt8} : isDigit b = true ↔ 48 ≤ b.toNat ∧ b.toNat ≤ 57 := by
  unfold isDigit
  rw [Bool.and_eq_true, decide_eq_true_eq, decide_eq_true_eq, UInt8.le_iff_toNat_le,
    UInt8.le_iff_toNat_le]
  exact Iff.rfl

namespace Numeral

/-- The number that digits stand for when they are read onto `n`. -/
def digitsOnto (n : Nat) (t : Text) : Nat :=
  t.foldl (fun n b => 10 * n + (b.toNat - 48)) n

/-- One or more decimal digits and the number they stand for. -/
def IsDigits (t : Text) (n : Nat) : Prop :=
  t ≠ [] ∧ (∀ b ∈ t, Text.isDigit b = true) ∧ digitsOnto 0 t = n

/-- A text is an optional sign and decimal digits, and stands for a number. -/
inductive Writes : Text → Int → Prop
  | plain {t n} : IsDigits t n → Writes t n
  | plus {t n} : IsDigits t n → Writes ('+'.toUInt8 :: t) n
  | minus {t n} : IsDigits t n → Writes ('-'.toUInt8 :: t) (-(n : Int))

/-- A text is a decimal literal that fits a signed word. -/
def IsLiteral (t : Text) : Prop :=
  ∃ n, Writes t n ∧ -32768 ≤ n ∧ n ≤ 32767

theorem IsDigits.unique {t : Text} {m n : Nat} (hm : IsDigits t m) (hn : IsDigits t n) : m = n :=
  hm.2.2.symm.trans hn.2.2

theorem le_digitsOnto (n : Nat) (t : Text) : n ≤ digitsOnto n t := by
  induction t generalizing n with
  | nil => exact Nat.le_refl n
  | cons b t ih =>
      have h := ih (10 * n + (b.toNat - 48))
      change n ≤ digitsOnto (10 * n + (b.toNat - 48)) t
      omega

/-- A magnitude above the limit ends the reading, but it would not come down again. -/
theorem magnitude_eq_ok {n m : Nat} {t : Text} (hn : n ≤ 65535) :
    magnitude n t = .ok m ↔ (∀ b ∈ t, Text.isDigit b = true) ∧ digitsOnto n t = m ∧ m ≤ 65535 := by
  induction t generalizing n with
  | nil =>
      simp only [magnitude, Except.ok.injEq, digitsOnto, List.foldl_nil, List.not_mem_nil, false_imp_iff,
        implies_true, true_and]
      omega
  | cons b t ih =>
      have hstep : digitsOnto n (b :: t) = digitsOnto (10 * n + (b.toNat - 48)) t := rfl
      by_cases hb : Text.isDigit b = true
      · by_cases hle : 10 * n + (b.toNat - 48) ≤ 65535
        · simp [magnitude, hb, hle, ih hle, hstep]
        · have hge := le_digitsOnto (10 * n + (b.toNat - 48)) t
          simp only [magnitude, hb, hle, ↓reduceIte, reduceCtorEq, hstep, false_iff, not_and]
          omega
      · simp [magnitude, hb]

theorem unsigned?_eq_ok {t : Text} {m : Nat} : unsigned? t = .ok m ↔ IsDigits t m ∧ m ≤ 65535 := by
  cases t with
  | nil => simp [unsigned?, IsDigits]
  | cons b t =>
      rw [unsigned?, magnitude_eq_ok (by decide)]
      · simp [IsDigits, and_assoc]
      · simp

theorem not_isDigits_of_sign {b : UInt8} {t : Text} {n : Nat} (hb : Text.isDigit b = false) :
    ¬ IsDigits (b :: t) n := by
  rintro ⟨-, hd, -⟩
  rw [hd b List.mem_cons_self] at hb
  cases hb

theorem not_writes_nil {n : Int} : ¬ Writes [] n := by
  intro h
  cases h with
  | plain h => exact h.1 rfl

theorem writes_minus {t : Text} {n : Int} :
    Writes ('-'.toUInt8 :: t) n ↔ ∃ m, IsDigits t m ∧ -(m : Int) = n := by
  constructor
  · intro h
    cases h with
    | plain h => exact (not_isDigits_of_sign (by decide) h).elim
    | minus h => exact ⟨_, h, rfl⟩
  · rintro ⟨m, h, rfl⟩
    exact .minus h

theorem writes_plus {t : Text} {n : Int} :
    Writes ('+'.toUInt8 :: t) n ↔ ∃ m, IsDigits t m ∧ (m : Int) = n := by
  constructor
  · intro h
    cases h with
    | plain h => exact (not_isDigits_of_sign (by decide) h).elim
    | plus h => exact ⟨_, h, rfl⟩
  · rintro ⟨m, h, rfl⟩
    exact .plus h

theorem writes_plain {b : UInt8} {t : Text} {n : Int} (hm : b ≠ '-'.toUInt8) (hp : b ≠ '+'.toUInt8) :
    Writes (b :: t) n ↔ ∃ m, IsDigits (b :: t) m ∧ (m : Int) = n := by
  constructor
  · intro h
    cases h with
    | plain h => exact ⟨_, h, rfl⟩
    | plus h => exact absurd rfl hp
    | minus h => exact absurd rfl hm
  · rintro ⟨m, h, rfl⟩
    exact .plain h

theorem unsigned?_bounded {t : Text} {limit : Nat} (hl : limit ≤ 65535) (f : Nat → Int) (n : Int) :
    (do let m ← unsigned? t; if m ≤ limit then Except.ok (f m) else .error .outOfRange) = .ok n ↔
      ∃ m, IsDigits t m ∧ f m = n ∧ m ≤ limit := by
  cases hu : unsigned? t with
  | error e =>
      simp only [bind, Except.bind, reduceCtorEq, false_iff, not_exists, not_and]
      intro m hd _ hle
      rw [unsigned?_eq_ok.mpr ⟨hd, hle.trans hl⟩] at hu
      cases hu
  | ok m =>
      obtain ⟨hd, -⟩ := unsigned?_eq_ok.mp hu
      have huniq : ∀ k, IsDigits t k ↔ k = m := by
        intro k
        constructor
        · exact fun hk => hk.unique hd
        · rintro rfl
          exact hd
      by_cases hle : m ≤ limit <;> simp [bind, Except.bind, hle, huniq]

/-- The numbers that are read are those in range, if the limit on the digits is the one that goes with the sign. -/
theorem bounded_eq_ok {t digits : Text} {limit : Nat} {f : Nat → Int} {n : Int} (hl : limit ≤ 65535)
    (hw : Writes t n ↔ ∃ m, IsDigits digits m ∧ f m = n)
    (hr : ∀ m, m ≤ limit ↔ -32768 ≤ f m ∧ f m ≤ 32767) :
    (do let m ← unsigned? digits; if m ≤ limit then Except.ok (f m) else .error .outOfRange) = .ok n ↔
      Writes t n ∧ -32768 ≤ n ∧ n ≤ 32767 := by
  rw [unsigned?_bounded hl, hw]
  constructor
  · rintro ⟨m, hd, rfl, hle⟩
    exact ⟨⟨m, hd, rfl⟩, (hr m).mp hle⟩
  · rintro ⟨⟨m, hd, rfl⟩, hrange⟩
    exact ⟨m, hd, rfl, (hr m).mpr hrange⟩

/-- The texts that are read are the decimal literals in range. -/
theorem read16_eq_ok {t : Text} {n : Int} :
    read16 t = .ok n ↔ Writes t n ∧ -32768 ≤ n ∧ n ≤ 32767 := by
  cases t with
  | nil => simp [read16, not_writes_nil]
  | cons b t =>
      by_cases hm : b = '-'.toUInt8
      · subst hm
        simp only [read16, ↓reduceIte]
        exact bounded_eq_ok (by decide) writes_minus (by omega)
      · by_cases hp : b = '+'.toUInt8
        · subst hp
          simp only [read16, hm, ↓reduceIte]
          exact bounded_eq_ok (by decide) writes_plus (by omega)
        · simp only [read16, hm, hp, ↓reduceIte]
          exact bounded_eq_ok (by decide) (writes_plain hm hp) (by omega)

/-! ## Printed numbers -/

theorem toUInt8_of_isDigit {c : Char} (h : c.isDigit = true) :
    c.toUInt8.toNat = c.toNat ∧ Text.isDigit c.toUInt8 = true := by
  obtain ⟨h₁, h₂⟩ := Char.isDigit_iff_toNat.mp h
  have hn : c.toUInt8.toNat = c.toNat := by
    have hmod : c.toUInt8.toNat = c.toNat % 2 ^ 8 := UInt32.toNat_toUInt8 c.val
    have h9 : '9'.toNat = 57 := rfl
    omega
  refine ⟨hn, ?_⟩
  rw [Text.isDigit_iff, hn]
  exact ⟨h₁, h₂⟩

theorem digitsOnto_map {cs : List Char} (h : ∀ c ∈ cs, c.isDigit = true) (n : Nat) :
    digitsOnto n (cs.map Char.toUInt8) = Nat.ofDigitChars 10 cs n := by
  induction cs generalizing n with
  | nil => simp [digitsOnto]
  | cons c cs ih =>
      have hc := (toUInt8_of_isDigit (h c List.mem_cons_self)).1
      rw [Nat.ofDigitChars_cons, ← ih fun c hc => h c (List.mem_cons_of_mem _ hc), ← hc]
      rfl

theorem isDigits_ofNat (n : Nat) : IsDigits (Text.ofNat n) n := by
  have hdigit : ∀ c ∈ Nat.toDigits 10 n, c.isDigit = true :=
    fun c hc => Nat.isDigit_of_mem_toDigits (by decide) (by decide) hc
  refine ⟨?_, ?_, ?_⟩
  · simp [Text.ofNat]
  · intro b hb
    obtain ⟨c, hc, rfl⟩ := List.mem_map.mp hb
    exact (toUInt8_of_isDigit (hdigit c hc)).2
  · rw [Text.ofNat, digitsOnto_map hdigit, Nat.ofDigitChars_ten_toDigits]

theorem isDigits_leadingZeros {t : Text} {n : Nat} (k : Nat) (h : IsDigits t n) :
    IsDigits (List.replicate k '0'.toUInt8 ++ t) n := by
  induction k with
  | zero => exact h
  | succ k ih =>
      obtain ⟨-, hd, hn⟩ := ih
      exact ⟨List.cons_ne_nil _ _, List.forall_mem_cons.mpr ⟨by decide, hd⟩, hn⟩

/-- A printed number with `k` zeros more in front of its digits. -/
def padded (k : Nat) : Int → Text
  | .ofNat n => List.replicate k '0'.toUInt8 ++ Text.ofNat n
  | .negSucc n => '-'.toUInt8 :: (List.replicate k '0'.toUInt8 ++ Text.ofNat (n + 1))

theorem padded_zero (n : Int) : padded 0 n = Text.ofInt n := by
  cases n <;> rfl

theorem writes_padded (k : Nat) (n : Int) : Writes (padded k n) n := by
  cases n with
  | ofNat n => exact .plain (isDigits_leadingZeros k (isDigits_ofNat n))
  | negSucc n => exact .minus (isDigits_leadingZeros k (isDigits_ofNat (n + 1)))

theorem writes_ofInt (n : Int) : Writes (Text.ofInt n) n :=
  padded_zero n ▸ writes_padded 0 n

theorem toNat?_eq_some {t : Text} {n : Nat} : t.toNat? = some n ↔ IsDigits t n := by
  have htest : (!t.isEmpty && t.all Text.isDigit) = true ↔ t ≠ [] ∧ ∀ b ∈ t, Text.isDigit b = true := by simp
  rw [Text.toNat?, IsDigits, ← and_assoc, ← htest, digitsOnto, Option.ite_none_right_eq_some, Option.some.injEq]

theorem toInt?_ofInt (n : Int) : (Text.ofInt n).toInt? = some n := by
  cases n with
  | negSucc n =>
      have hread : (Text.ofNat (n + 1)).toNat? = some (n + 1) := toNat?_eq_some.mpr (isDigits_ofNat (n + 1))
      simp [Text.ofInt, Text.toInt?, hread, Int.negSucc_eq]
  | ofNat n =>
      have hdigits := isDigits_ofNat n
      have hread := toNat?_eq_some.mpr hdigits
      obtain ⟨b, t, ht⟩ := List.exists_cons_of_ne_nil hdigits.1
      have hb : b ≠ '-'.toUInt8 := by
        rintro rfl
        exact absurd (hdigits.2.1 _ (ht ▸ List.mem_cons_self)) (by decide)
      rw [Text.ofInt, ht, Text.toInt?, if_neg hb, ← ht, hread]
      rfl

/-- Two's complement is the number modulo the size of a word. -/
theorem eq_ofInt_iff {w : Word} {n : Int} : w = .ofInt n ↔ (w.toNat : Int) = n % 2 ^ 16 := by
  have hlow : 0 ≤ n % 2 ^ 16 := Int.emod_nonneg n (by decide)
  have hhigh : n % 2 ^ 16 < 2 ^ 16 := Int.emod_lt_of_pos n (by decide)
  rw [← UInt16.toNat_inj, UInt16.ofInt, UInt16.toNat_ofNat']
  omega

end Numeral

/-- Decimal literals in range are stored in two's complement. -/
theorem Token.literal_eq_ok {t : Token} {w : Word} :
    t.literal = .ok w ↔ ∃ n : Int, Numeral.Writes t.value n ∧ -32768 ≤ n ∧ n ≤ 32767 ∧ w = .ofInt n := by
  unfold literal
  by_cases he : t.value.isEmpty = true
  · simp only [he, ↓reduceIte, reduceCtorEq, false_iff, not_exists, not_and]
    intro n hw
    rw [List.isEmpty_iff.mp he] at hw
    exact absurd hw Numeral.not_writes_nil
  · simp only [he, Bool.false_eq_true, ↓reduceIte]
    cases hr : Numeral.read16 t.value with
    | error e =>
        have hno : ∀ n, ¬ (Numeral.Writes t.value n ∧ -32768 ≤ n ∧ n ≤ 32767) := by
          intro n hn
          rw [Numeral.read16_eq_ok.mpr hn] at hr
          cases hr
        cases e <;>
          exact ⟨fun h => (by cases h), fun ⟨n, h, h₁, h₂, _⟩ => (hno n ⟨h, h₁, h₂⟩).elim⟩
    | ok n =>
        simp only [Except.ok.injEq]
        constructor
        · rintro rfl
          obtain ⟨h, h₁, h₂⟩ := Numeral.read16_eq_ok.mp hr
          exact ⟨n, h, h₁, h₂, rfl⟩
        · rintro ⟨m, h, h₁, h₂, rfl⟩
          rw [Numeral.read16_eq_ok.mpr ⟨h, h₁, h₂⟩] at hr
          cases hr
          rfl

instance Numeral.decidableIsLiteral (t : Text) : Decidable (IsLiteral t) :=
  decidable_of_iff ((read16 t).toOption.isSome = true) <| by
    simp only [IsLiteral, ← read16_eq_ok]
    cases read16 t <;> simp [Except.toOption]

theorem Token.exists_literal {t : Token} : (∃ w, t.literal = .ok w) ↔ Numeral.IsLiteral t.value := by
  constructor
  · rintro ⟨w, hw⟩
    obtain ⟨n, h, h₁, h₂, -⟩ := literal_eq_ok.mp hw
    exact ⟨n, h, h₁, h₂⟩
  · rintro ⟨n, h, h₁, h₂⟩
    exact ⟨_, literal_eq_ok.mpr ⟨n, h, h₁, h₂, rfl⟩⟩

/-- A token that is no literal has one fault, at its own place. -/
theorem Token.literal_eq_error {t : Token} {d : Diagnostic} (h : t.literal = .error d) :
    ¬ Numeral.IsLiteral t.value ∧ d.position? = some t.position := by
  constructor
  · intro hl
    obtain ⟨w, hw⟩ := exists_literal.mpr hl
    rw [h] at hw
    cases hw
  · unfold literal at h
    split at h
    · cases h; rfl
    · split at h <;> cases h <;> rfl

end TwoPass
