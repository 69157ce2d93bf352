import TwoPass.Proofs.DataRecovery
import TwoPass.Proofs.ListingWords

/-!
What becomes of a token that is read as a literal: it is a word, or it has one of three faults. Digits that
exceed a word end the reading, so a text can be too large without being a numeral.
-/
namespace TwoPass

namespace Numeral

/-! ## Leading digits -/

/-- Some digits in front of a text exceed a word when they are read onto `n`. -/
def Overruns (n : Nat) (t : Text) : Prop :=
  ∃ ds, ds <+: t ∧ (∀ b ∈ ds, Text.isDigit b = true) ∧ 65535 < digitsOnto n ds

theorem overruns_of_lt {n : Nat} (h : 65535 < n) (t : Text) : Overruns n t :=
  ⟨[], List.nil_prefix, fun _ hb => (List.not_mem_nil hb).elim, h⟩

theorem not_overruns_nil {n : Nat} (hn : n ≤ 65535) : ¬ Overruns n [] := by
  rintro ⟨ds, hds, -, hlt⟩
  rw [List.prefix_nil.mp hds] at hlt
  exact Nat.not_lt.mpr hn hlt

theorem overruns_cons {n : Nat} {b : UInt8} {t : Text} (hn : n ≤ 65535) :
    Overruns n (b :: t) ↔ Text.isDigit b = true ∧ Overruns (10 * n + (b.toNat - 48)) t := by
  constructor
  · rintro ⟨ds, hds, hdigit, hlt⟩
    rcases List.prefix_cons_iff.mp hds with rfl | ⟨ds, rfl, hrest⟩
    · exact absurd hlt (Nat.not_lt.mpr hn)
    · exact ⟨hdigit b List.mem_cons_self, ds, hrest, fun c hc => hdigit c (List.mem_cons_of_mem b hc), hlt⟩
  · rintro ⟨hb, ds, hds, hdigit, hlt⟩
    exact ⟨b :: ds, List.cons_prefix_cons.mpr ⟨rfl, hds⟩, List.forall_mem_cons.mpr ⟨hb, hdigit⟩, hlt⟩

theorem magnitude_eq_outOfRange {n : Nat} {t : Text} (hn : n ≤ 65535) :
    magnitude n t = .error .outOfRange ↔ Overruns n t := by
  induction t generalizing n with
  | nil => simp [magnitude, not_overruns_nil hn]
  | cons b t ih =>
      rw [overruns_cons hn]
      by_cases hb : Text.isDigit b = true
      · by_cases hle : 10 * n + (b.toNat - 48) ≤ 65535
        · simp [magnitude, hb, hle, ih hle]
        · -- The reading ends here, and so does a run of digits that exceeds a word.
          simp [magnitude, hb, hle, overruns_of_lt (Nat.not_le.mp hle) t]
      · simp [magnitude, hb]

theorem unsigned?_eq_outOfRange {t : Text} : unsigned? t = .error .outOfRange ↔ Overruns 0 t := by
  cases t with
  | nil => simp [unsigned?, not_overruns_nil]
  | cons b t => exact magnitude_eq_outOfRange (Nat.zero_le _)

theorem overruns_zero {t : Text} : Overruns 0 t ↔ ∃ ds m, ds <+: t ∧ IsDigits ds m ∧ 65535 < m := by
  constructor
  · rintro ⟨ds, hds, hdigit, hlt⟩
    refine ⟨ds, _, hds, ⟨?_, hdigit, rfl⟩, hlt⟩
    rintro rfl
    exact absurd hlt (by decide)
  · rintro ⟨ds, m, hds, ⟨-, hdigit, rfl⟩, hlt⟩
    exact ⟨ds, hds, hdigit, hlt⟩

/-- A number above the limit is out of range, whether it is read to its end or not. -/
theorem bounded_eq_outOfRange {t : Text} {limit : Nat} (f : Nat → Int) :
    (do let m ← unsigned? t; if m ≤ limit then Except.ok (f m) else .error .outOfRange) =
        .error Fault.outOfRange ↔
      Overruns 0 t ∨ ∃ m, IsDigits t m ∧ limit < m := by
  cases hu : unsigned? t with
  | error e =>
      -- Digits to the end would have been read, or they exceed a word.
      have hoverruns : ∀ m, IsDigits t m → Overruns 0 t := by
        intro m hm
        by_cases hle : m ≤ 65535
        · rw [unsigned?_eq_ok.mpr ⟨hm, hle⟩] at hu
          cases hu
        · exact overruns_zero.mpr ⟨t, m, List.prefix_rfl, hm, Nat.not_le.mp hle⟩
      have hor : (Overruns 0 t ∨ ∃ m, IsDigits t m ∧ limit < m) ↔ Overruns 0 t :=
        or_iff_left_of_imp fun ⟨m, hm, _⟩ => hoverruns m hm
      rw [hor, ← unsigned?_eq_outOfRange, hu]
      simp [bind, Except.bind]
  | ok m =>
      obtain ⟨hm, -⟩ := unsigned?_eq_ok.mp hu
      have hno : ¬ Overruns 0 t := by
        rw [← unsigned?_eq_outOfRange, hu]
        rintro ⟨⟩
      have huniq : (∃ k, IsDigits t k ∧ limit < k) ↔ limit < m := by
        constructor
        · rintro ⟨k, hk, hlt⟩
          rwa [hm.unique hk]
        · exact fun hlt => ⟨m, hm, hlt⟩
      rw [or_iff_right hno, huniq]
      by_cases hle : m ≤ limit
      · simp [bind, Except.bind, hle]
      · simp [bind, Except.bind, hle, Nat.not_le.mp hle]

/-! ## Texts that are too large -/

/-- A text begins with an optional sign and digits that exceed 65535, whatever follows them. -/
def Overflows (t : Text) : Prop :=
  ∃ u n, u <+: t ∧ Writes u n ∧ 65535 < n.natAbs

/-- A text overflows, or it stands for a number that a signed word does not hold. -/
def IsOversized (t : Text) : Prop :=
  Overflows t ∨ ∃ n, Writes t n ∧ (n < -32768 ∨ 32767 < n)

/-- Behind a sign it is the digits that overflow. -/
theorem overflows_sign {b : UInt8} {t : Text} {f : Nat → Int} (hf : ∀ m, (f m).natAbs = m)
    (hw : ∀ {t n}, Writes (b :: t) n ↔ ∃ m, IsDigits t m ∧ f m = n) : Overflows (b :: t) ↔ Overruns 0 t := by
  rw [overruns_zero]
  constructor
  · rintro ⟨u, n, hu, hn, hlt⟩
    rcases List.prefix_cons_iff.mp hu with rfl | ⟨ds, rfl, hds⟩
    · exact absurd hn not_writes_nil
    · obtain ⟨m, hm, rfl⟩ := hw.mp hn
      exact ⟨ds, m, hds, hm, hf m ▸ hlt⟩
  · rintro ⟨ds, m, hds, hm, hlt⟩
    exact ⟨b :: ds, f m, List.cons_prefix_cons.mpr ⟨rfl, hds⟩, hw.mpr ⟨m, hm, rfl⟩, (hf m).symm ▸ hlt⟩

theorem overflows_plain {b : UInt8} {t : Text} (hm : b ≠ '-'.toUInt8) (hp : b ≠ '+'.toUInt8) :
    Overflows (b :: t) ↔ Overruns 0 (b :: t) := by
  rw [overruns_zero]
  constructor
  · rintro ⟨u, n, hu, hn, hlt⟩
    rcases List.prefix_cons_iff.mp hu with rfl | ⟨ds, rfl, hds⟩
    · exact absurd hn not_writes_nil
    · obtain ⟨m, hd, rfl⟩ := (writes_plain hm hp).mp hn
      exact ⟨b :: ds, m, hu, hd, hlt⟩
  · rintro ⟨ds, m, hds, hd, hlt⟩
    exact ⟨ds, m, hds, .plain hd, hlt⟩

theorem isOversized_iff {t digits : Text} {limit : Nat} {f : Nat → Int} (ho : Overflows t ↔ Overruns 0 digits)
    (hw : ∀ {n}, Writes t n ↔ ∃ m, IsDigits digits m ∧ f m = n)
    (hr : ∀ m, limit < m ↔ f m < -32768 ∨ 32767 < f m) :
    IsOversized t ↔ Overruns 0 digits ∨ ∃ m, IsDigits digits m ∧ limit < m := by
  refine or_congr ho ⟨?_, ?_⟩
  · rintro ⟨n, hn, hrange⟩
    obtain ⟨m, hm, rfl⟩ := hw.mp hn
    exact ⟨m, hm, (hr m).mpr hrange⟩
  · rintro ⟨m, hm, hlt⟩
    exact ⟨f m, hw.mpr ⟨m, hm, rfl⟩, (hr m).mp hlt⟩

theorem not_isOversized_nil : ¬ IsOversized [] := by
  rintro (⟨u, n, hu, hn, -⟩ | ⟨n, hn, -⟩)
  · rw [List.prefix_nil.mp hu] at hn
    exact not_writes_nil hn
  · exact not_writes_nil hn

/-- The texts that are out of range are those that are too large. -/
theorem read16_eq_outOfRange {t : Text} : read16 t = .error .outOfRange ↔ IsOversized t := by
  cases t with
  | nil => simp [read16, not_isOversized_nil]
  | cons b t =>
      -- The limit on the digits is 32768 behind a minus and 32767 otherwise.
      by_cases hm : b = '-'.toUInt8
      · subst hm
        simp only [read16, ↓reduceIte, bounded_eq_outOfRange]
        refine (isOversized_iff (overflows_sign (f := fun m => -(m : Int)) ?_ writes_minus) writes_minus ?_).symm
        · omega
        · omega
      · by_cases hp : b = '+'.toUInt8
        · subst hp
          simp only [read16, hm, ↓reduceIte, bounded_eq_outOfRange]
          refine (isOversized_iff (overflows_sign (f := fun m => (m : Int)) ?_ writes_plus) writes_plus ?_).symm
          · omega
          · omega
        · simp only [read16, hm, hp, ↓reduceIte, bounded_eq_outOfRange]
          refine (isOversized_iff (overflows_plain hm hp) (writes_plain hm hp) ?_).symm
          omega

instance decidableIsOversized (t : Text) : Decidable (IsOversized t) :=
  decidable_of_iff (read16 t = .error .outOfRange) read16_eq_outOfRange

example : IsOversized (Text.of "65536x") ∧ ¬ IsOversized (Text.of "65535x") := by decide

theorem read16_eq_malformed {t : Text} : read16 t = .error .malformed ↔ ¬ IsLiteral t ∧ ¬ IsOversized t := by
  have hliteral : IsLiteral t ↔ ∃ n, read16 t = .ok n := by simp only [IsLiteral, read16_eq_ok]
  rw [hliteral, ← read16_eq_outOfRange]
  rcases read16 t with (_ | _) | n <;> simp

end Numeral

namespace Token

/-! ## Tokens -/

/-- What becomes of a token that is read as a literal. -/
inductive Judged (t : Token) : Except Diagnostic Word → Prop
  | word {n} : Numeral.Writes t.value n → -32768 ≤ n → n ≤ 32767 → Judged t (.ok (.ofInt n))
  | missing : t.value = [] → Judged t (.error (.missingOperand t.position))
  | oversized : Numeral.IsOversized t.value →
      Judged t (.error (.oversizedLiteral t.position (Text.of "[-32768, 32767]") t.value))
  | invalid : t.value ≠ [] → ¬ Numeral.IsLiteral t.value → ¬ Numeral.IsOversized t.value →
      Judged t (.error (.invalidLiteral t.position))

theorem judged_literal (t : Token) : Judged t t.literal := by
  unfold literal
  by_cases he : t.value = []
  · rw [if_pos (List.isEmpty_iff.mpr he)]
    exact .missing he
  · rw [if_neg (by simpa using he)]
    cases hr : Numeral.read16 t.value with
    | ok n =>
        obtain ⟨hn, hlow, hhigh⟩ := Numeral.read16_eq_ok.mp hr
        exact .word hn hlow hhigh
    | error e =>
        cases e with
        | outOfRange => exact .oversized (Numeral.read16_eq_outOfRange.mp hr)
        | malformed =>
            obtain ⟨hl, ho⟩ := Numeral.read16_eq_malformed.mp hr
            exact .invalid he hl ho

theorem Judged.literal_eq {t : Token} {r : Except Diagnostic Word} (h : Judged t r) : t.literal = r := by
  cases h with
  | word hn hlow hhigh => exact literal_eq_ok.mpr ⟨_, hn, hlow, hhigh, rfl⟩
  | missing he => rw [literal, if_pos (List.isEmpty_iff.mpr he)]
  | oversized ho =>
      have he : t.value ≠ [] := fun he => Numeral.not_isOversized_nil (he ▸ ho)
      rw [literal, if_neg (by simpa using he), Numeral.read16_eq_outOfRange.mpr ho]
  | invalid he hl ho =>
      rw [literal, if_neg (by simpa using he), Numeral.read16_eq_malformed.mpr ⟨hl, ho⟩]

theorem literal_eq_iff {t : Token} {r : Except Diagnostic Word} : t.literal = r ↔ Judged t r :=
  ⟨fun h => h ▸ judged_literal t, Judged.literal_eq⟩

theorem literal_eq_word {t : Token} {w : Word} :
    t.literal = .ok w ↔
      ∃ v, Numeral.Writes t.value v ∧ -32768 ≤ v ∧ v ≤ 32767 ∧ (w.toNat : Int) = v % 2 ^ 16 := by
  simp only [literal_eq_ok, Numeral.eq_ofInt_iff]

theorem literal_eq_missing {t : Token} {q : Span} :
    t.literal = .error (.missingOperand q) ↔ t.value = [] ∧ q = t.position := by
  rw [literal_eq_iff]
  constructor
  · intro h
    cases h with
    | missing he => exact ⟨he, rfl⟩
  · rintro ⟨he, rfl⟩
    exact .missing he

theorem literal_eq_oversized {t : Token} {q : Span} {want found : Text} :
    t.literal = .error (.oversizedLiteral q want found) ↔
      Numeral.IsOversized t.value ∧ q = t.position ∧ want = Text.of "[-32768, 32767]" ∧ found = t.value := by
  rw [literal_eq_iff]
  constructor
  · intro h
    cases h with
    | oversized ho => exact ⟨ho, rfl, rfl, rfl⟩
  · rintro ⟨ho, rfl, rfl, rfl⟩
    exact .oversized ho

theorem literal_eq_invalid {t : Token} {q : Span} :
    t.literal = .error (.invalidLiteral q) ↔
      (t.value ≠ [] ∧ ¬ Numeral.IsLiteral t.value ∧ ¬ Numeral.IsOversized t.value) ∧ q = t.position := by
  rw [literal_eq_iff]
  constructor
  · intro h
    cases h with
    | invalid he hl ho => exact ⟨⟨he, hl, ho⟩, rfl⟩
  · rintro ⟨⟨he, hl, ho⟩, rfl⟩
    exact .invalid he hl ho

/-- Whatever items follow it, a token at fault is stored as 0. -/
theorem literal_eq_error_iff {t : Token} {d : Diagnostic} (items : List Token) :
    t.literal = .error d ↔ Data.literals (t :: items) =
      { words := 0 :: (Data.literals items).words, faults := d :: (Data.literals items).faults } := by
  constructor
  · exact fun h => Data.literals_cons_of_error h items
  · intro h
    cases hl : t.literal with
    | ok w =>
        rw [Data.literals_cons_of_ok hl, Data.Contents.mk.injEq] at h
        exact absurd h.2.symm (List.cons_ne_self _ _)
    | error d' =>
        rw [Data.literals_cons_of_error hl, Data.Contents.mk.injEq, List.cons.injEq d'] at h
        rw [h.2.1]

/-- Literals are exactly the signed decimal numerals of a word: which texts give a word, which fault each other
text has, and that a fault goes with the word 0. So a printed word is read back, with any zeros in front. -/
theorem literal_recognises_numerals (p : Span) (s : Text) :
    (∀ w, literal ⟨p, s⟩ = .ok w ↔
      ∃ v, Numeral.Writes s v ∧ -32768 ≤ v ∧ v ≤ 32767 ∧ (w.toNat : Int) = v % 2 ^ 16) ∧
    (∀ q, literal ⟨p, s⟩ = .error (.missingOperand q) ↔ s = [] ∧ q = p) ∧
    (∀ q want found, literal ⟨p, s⟩ = .error (.oversizedLiteral q want found) ↔
      Numeral.IsOversized s ∧ q = p ∧ want = Text.of "[-32768, 32767]" ∧ found = s) ∧
    (∀ q, literal ⟨p, s⟩ = .error (.invalidLiteral q) ↔
      (s ≠ [] ∧ ¬ Numeral.IsLiteral s ∧ ¬ Numeral.IsOversized s) ∧ q = p) ∧
    (∀ d items, literal ⟨p, s⟩ = .error d ↔ Data.literals (⟨p, s⟩ :: items) =
      { words := 0 :: (Data.literals items).words, faults := d :: (Data.literals items).faults }) ∧
    ∀ (k : Nat) (v : Int16), literal ⟨p, Numeral.padded k v.toInt⟩ = .ok v.toUInt16 := by
  refine ⟨fun w => literal_eq_word, fun q => literal_eq_missing, fun q want found => literal_eq_oversized,
    fun q => literal_eq_invalid, fun d items => literal_eq_error_iff items, ?_⟩
  intro k v
  exact Listing.literal_of_writes (Numeral.writes_padded k v.toInt)

end Token

end TwoPass
