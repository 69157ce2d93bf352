import Mathlib
import TwoPass.Text.Utf8

/-!
UTF-8 decoding accepts exactly what encoding gives. The decoder takes one byte at a time and passes
over the rest of a character by a count, so it is first cut at the characters.
-/
namespace TwoPass.Text

/-! ## One character -/

theorem isTail_iff {b : UInt8} : isTail b = true ↔ 0x80 ≤ b.toNat ∧ b.toNat ≤ 0xBF := by
  unfold isTail
  rw [Bool.and_eq_true, decide_eq_true_eq, decide_eq_true_eq, UInt8.le_iff_toNat_le,
    UInt8.le_iff_toNat_le]
  exact Iff.rfl

theorem scalar?_eq_some {least n : Nat} {c : Char} :
    scalar? least n = some c ↔ least ≤ n ∧ c.toNat = n := by
  unfold scalar?
  split
  · rename_i h
    rw [Option.some.injEq]
    constructor
    · rintro rfl
      exact ⟨h.1, rfl⟩
    · rintro ⟨-, rfl⟩
      exact Char.ext (UInt32.toNat_inj.mp rfl)
  · rename_i h
    simp only [reduceCtorEq, false_iff, not_and]
    rintro hl rfl
    exact h ⟨hl, c.valid⟩

theorem ofNat_eq {n : Nat} {b : UInt8} (h : n = b.toNat) : UInt8.ofNat n = b := by
  subst h
  exact UInt8.ofNat_toNat

theorem toNat_ofUInt8 (a : UInt8) : (Char.ofUInt8 a).toNat = a.toNat := by
  simp [Char.ofUInt8, Char.toNat]

theorem toNat_ofNat8 {n : Nat} (h : n < 256) : (UInt8.ofNat n).toNat = n :=
  UInt8.toNat_ofNat_of_lt h

theorem between_iff {low high a : UInt8} :
    (decide (low ≤ a) && decide (a ≤ high)) = true ↔ low.toNat ≤ a.toNat ∧ a.toNat ≤ high.toNat := by
  rw [Bool.and_eq_true, decide_eq_true_eq, decide_eq_true_eq, UInt8.le_iff_toNat_le,
    UInt8.le_iff_toNat_le]

theorem not_between {low high a : UInt8} (h : high.toNat < a.toNat) :
    ¬ (decide (low ≤ a) && decide (a ≤ high)) = true :=
  fun hb => absurd (between_iff.mp hb).2 (Nat.not_le.mpr h)

theorem not_lt_of_toNat {a b : UInt8} (h : b.toNat ≤ a.toNat) : ¬ a < b :=
  fun hl => absurd (UInt8.lt_iff_toNat_lt.mp hl) (Nat.not_lt.mpr h)

section
variable {a b d e : UInt8} {c : Char}

theorem encodeChar_two (ha : 0xC0 ≤ a.toNat ∧ a.toNat ≤ 0xDF) (hb : isTail b = true)
    (h : scalar? 0x80 ((a.toNat - 0xC0) * 64 + tailBits b) = some c) : encodeChar c = [a, b] := by
  obtain ⟨hl, hn⟩ := scalar?_eq_some.mp h
  obtain ⟨hb₁, hb₂⟩ := isTail_iff.mp hb
  unfold tailBits at hl hn
  have h₁ : ¬ c.toNat < 0x80 := by omega
  have h₂ : c.toNat < 0x800 := by omega
  have ea : UInt8.ofNat (0xC0 + c.toNat / 64) = a := ofNat_eq (by omega)
  have eb : UInt8.ofNat (0x80 + c.toNat % 64) = b := ofNat_eq (by omega)
  simp only [encodeChar, h₁, h₂, ↓reduceIte, ea, eb]

theorem encodeChar_three (ha : 0xE0 ≤ a.toNat ∧ a.toNat ≤ 0xEF) (hb : isTail b = true)
    (hd : isTail d = true)
    (h : scalar? 0x800 ((a.toNat - 0xE0) * 4096 + tailBits b * 64 + tailBits d) = some c) :
    encodeChar c = [a, b, d] := by
  obtain ⟨hl, hn⟩ := scalar?_eq_some.mp h
  obtain ⟨hb₁, hb₂⟩ := isTail_iff.mp hb
  obtain ⟨hd₁, hd₂⟩ := isTail_iff.mp hd
  unfold tailBits at hl hn
  have h₁ : ¬ c.toNat < 0x80 := by omega
  have h₂ : ¬ c.toNat < 0x800 := by omega
  have h₃ : c.toNat < 0x10000 := by omega
  have ea : UInt8.ofNat (0xE0 + c.toNat / 4096) = a := ofNat_eq (by omega)
  have eb : UInt8.ofNat (0x80 + c.toNat / 64 % 64) = b := ofNat_eq (by omega)
  have ed : UInt8.ofNat (0x80 + c.toNat % 64) = d := ofNat_eq (by omega)
  simp only [encodeChar, h₁, h₂, h₃, ↓reduceIte, ea, eb, ed]

theorem encodeChar_four (ha : 0xF0 ≤ a.toNat ∧ a.toNat ≤ 0xF7) (hb : isTail b = true)
    (hd : isTail d = true) (he : isTail e = true)
    (h : scalar? 0x10000 ((a.toNat - 0xF0) * 262144 + tailBits b * 4096 + tailBits d * 64 + tailBits e) =
      some c) : encodeChar c = [a, b, d, e] := by
  obtain ⟨hl, hn⟩ := scalar?_eq_some.mp h
  obtain ⟨hb₁, hb₂⟩ := isTail_iff.mp hb
  obtain ⟨hd₁, hd₂⟩ := isTail_iff.mp hd
  obtain ⟨he₁, he₂⟩ := isTail_iff.mp he
  unfold tailBits at hl hn
  have h₁ : ¬ c.toNat < 0x80 := by omega
  have h₂ : ¬ c.toNat < 0x800 := by omega
  have h₃ : ¬ c.toNat < 0x10000 := by omega
  have ea : UInt8.ofNat (0xF0 + c.toNat / 262144) = a := ofNat_eq (by omega)
  have eb : UInt8.ofNat (0x80 + c.toNat / 4096 % 64) = b := ofNat_eq (by omega)
  have ed : UInt8.ofNat (0x80 + c.toNat / 64 % 64) = d := ofNat_eq (by omega)
  have ee : UInt8.ofNat (0x80 + c.toNat % 64) = e := ofNat_eq (by omega)
  simp only [encodeChar, h₁, h₂, h₃, ↓reduceIte, ea, eb, ed, ee]

theorem firstChar?_two (ha : 0xC0 ≤ a.toNat ∧ a.toNat ≤ 0xDF) (hb : isTail b = true) (t : Text) :
    firstChar? (a :: b :: t) = (scalar? 0x80 ((a.toNat - 0xC0) * 64 + tailBits b)).map (·, 1) := by
  have h₁ : ¬ a < 0x80 := not_lt_of_toNat (show 0x80 ≤ a.toNat by omega)
  have h₂ : (decide (0xC0 ≤ a) && decide (a ≤ 0xDF)) = true := between_iff.mpr ha
  simp only [firstChar?, h₁, h₂, hb, ↓reduceIte]

theorem firstChar?_three (ha : 0xE0 ≤ a.toNat ∧ a.toNat ≤ 0xEF) (hb : isTail b = true)
    (hd : isTail d = true) (t : Text) :
    firstChar? (a :: b :: d :: t) =
      (scalar? 0x800 ((a.toNat - 0xE0) * 4096 + tailBits b * 64 + tailBits d)).map (·, 2) := by
  have h₁ : ¬ a < 0x80 := not_lt_of_toNat (show 0x80 ≤ a.toNat by omega)
  have h₂ : ¬ (decide (0xC0 ≤ a) && decide (a ≤ 0xDF)) = true := not_between (show 0xDF < a.toNat by omega)
  have h₃ : (decide (0xE0 ≤ a) && decide (a ≤ 0xEF)) = true := between_iff.mpr ha
  simp only [firstChar?, h₁, h₂, h₃, hb, hd, Bool.and_self, Bool.false_eq_true, ↓reduceIte]

theorem firstChar?_four (ha : 0xF0 ≤ a.toNat ∧ a.toNat ≤ 0xF7) (hb : isTail b = true)
    (hd : isTail d = true) (he : isTail e = true) (t : Text) :
    firstChar? (a :: b :: d :: e :: t) =
      (scalar? 0x10000 ((a.toNat - 0xF0) * 262144 + tailBits b * 4096 + tailBits d * 64 + tailBits e)).map
        (·, 3) := by
  have h₁ : ¬ a < 0x80 := not_lt_of_toNat (show 0x80 ≤ a.toNat by omega)
  have h₂ : ¬ (decide (0xC0 ≤ a) && decide (a ≤ 0xDF)) = true := not_between (show 0xDF < a.toNat by omega)
  have h₃ : ¬ (decide (0xE0 ≤ a) && decide (a ≤ 0xEF)) = true := not_between (show 0xEF < a.toNat by omega)
  have h₄ : (decide (0xF0 ≤ a) && decide (a ≤ 0xF7)) = true := between_iff.mpr ha
  simp only [firstChar?, h₁, h₂, h₃, h₄, hb, hd, he, Bool.and_self, Bool.false_eq_true, ↓reduceIte]

end

/-- What stands at the front of a text is a character only if the text starts with its encoding. -/
theorem encodeChar_of_firstChar? {t : Text} {c : Char} {n : Nat} (h : firstChar? t = some (c, n)) :
    ∃ rest, t = encodeChar c ++ rest ∧ (encodeChar c).length = n + 1 := by
  have hdone : ∀ bytes rest : Text, encodeChar c = bytes → bytes.length = n + 1 →
      ∃ rest', bytes ++ rest = encodeChar c ++ rest' ∧ (encodeChar c).length = n + 1 := by
    intro bytes rest he hl
    exact ⟨rest, by rw [he], by rw [he, hl]⟩
  -- the first byte tells the length, and each length has its own lemma above
  match t with
  | [] => cases h
  | a :: t =>
      unfold firstChar? at h
      dsimp only at h
      split at h
      · rename_i ha
        simp only [Option.some.injEq, Prod.mk.injEq] at h
        obtain ⟨rfl, rfl⟩ := h
        have hlt : (Char.ofUInt8 a).toNat < 0x80 := by
          rw [toNat_ofUInt8]
          exact UInt8.lt_iff_toNat_lt.mp ha
        have henc : encodeChar (Char.ofUInt8 a) = [a] := by
          simp only [encodeChar, hlt, ↓reduceIte, ofNat_eq (toNat_ofUInt8 a)]
        exact hdone [a] t henc rfl
      · split at h
        · rename_i ha
          cases t with
          | nil => cases h
          | cons b t =>
              dsimp only at h
              split at h
              · rename_i hb
                obtain ⟨d, hs, he⟩ := Option.map_eq_some_iff.mp h
                cases he
                exact hdone [a, b] t (encodeChar_two (between_iff.mp ha) hb hs) rfl
              · cases h
        · split at h
          · rename_i ha
            match t with
            | [] => cases h
            | [_] => cases h
            | b :: d :: t =>
                dsimp only at h
                split at h
                · rename_i hb
                  obtain ⟨hb, hd⟩ := Bool.and_eq_true_iff.mp hb
                  obtain ⟨x, hs, he⟩ := Option.map_eq_some_iff.mp h
                  cases he
                  exact hdone [a, b, d] t (encodeChar_three (between_iff.mp ha) hb hd hs) rfl
                · cases h
          · split at h
            · rename_i ha
              match t with
              | [] => cases h
              | [_] => cases h
              | [_, _] => cases h
              | b :: d :: e :: t =>
                  dsimp only at h
                  split at h
                  · rename_i hb
                    obtain ⟨hb, he'⟩ := Bool.and_eq_true_iff.mp hb
                    obtain ⟨hb, hd⟩ := Bool.and_eq_true_iff.mp hb
                    obtain ⟨x, hs, he⟩ := Option.map_eq_some_iff.mp h
                    cases he
                    exact hdone [a, b, d, e] t
                      (encodeChar_four (between_iff.mp ha) hb hd he' hs) rfl
                  · cases h
            · cases h

theorem isTail_ofNat {n : Nat} (h : n < 64) : isTail (.ofNat (0x80 + n)) = true := by
  rw [isTail_iff, toNat_ofNat8 (by omega)]
  omega

theorem tailBits_ofNat {n : Nat} (h : n < 64) : tailBits (.ofNat (0x80 + n)) = n := by
  have hn := toNat_ofNat8 (show 0x80 + n < 256 by omega)
  unfold tailBits
  omega

theorem toNat_lt (c : Char) : c.toNat < 0x110000 := by
  have hvalid := c.valid
  have hval : c.val.toNat = c.toNat := rfl
  rw [UInt32.isValidChar, Nat.isValidChar, hval] at hvalid
  omega

theorem firstChar?_encodeChar (c : Char) (rest : Text) :
    firstChar? (encodeChar c ++ rest) = some (c, (encodeChar c).length - 1) := by
  have hmax := toNat_lt c
  have hscalar : ∀ least n, n = c.toNat → least ≤ n → scalar? least n = some c :=
    fun least n hn hl => scalar?_eq_some.mpr ⟨hl, hn.symm⟩
  have hbits : ∀ n, tailBits (.ofNat (0x80 + n % 64)) = n % 64 :=
    fun n => tailBits_ofNat (Nat.mod_lt n (by decide))
  have htail : ∀ n, isTail (.ofNat (0x80 + n % 64)) = true :=
    fun n => isTail_ofNat (Nat.mod_lt n (by decide))
  unfold encodeChar
  dsimp only
  split
  · rename_i h₁
    have hn := toNat_ofNat8 (show c.toNat < 256 by omega)
    have hlt : UInt8.ofNat c.toNat < 0x80 := UInt8.lt_iff_toNat_lt.mpr (by rw [hn]; exact h₁)
    have hc : Char.ofUInt8 (.ofNat c.toNat) = c :=
      Char.toNat_inj.mp (by rw [toNat_ofUInt8, hn])
    simp [firstChar?, hlt, hc]
  · rename_i h₁
    split
    · rename_i h₂
      have hn := toNat_ofNat8 (show 0xC0 + c.toNat / 64 < 256 by omega)
      simp only [List.cons_append]
      rw [firstChar?_two (by omega) (htail _), hn, hbits, hscalar _ _ (by omega) (by omega)]
      rfl
    · rename_i h₂
      split
      · rename_i h₃
        have hn := toNat_ofNat8 (show 0xE0 + c.toNat / 4096 < 256 by omega)
        simp only [List.cons_append]
        rw [firstChar?_three (by omega) (htail _) (htail _), hn, hbits, hbits,
          hscalar _ _ (by omega) (by omega)]
        rfl
      · rename_i h₃
        have hn := toNat_ofNat8 (show 0xF0 + c.toNat / 262144 < 256 by omega)
        simp only [List.cons_append]
        rw [firstChar?_four (by omega) (htail _) (htail _) (htail _), hn, hbits, hbits, hbits,
          hscalar _ _ (by omega) (by omega)]
        rfl

/-! ## All characters -/

theorem decodeOnto_eq (done : List (Option Char)) (n : Nat) (t : Text) :
    decodeOnto done n t = done.reverse ++ decode (t.drop n) := by
  induction t generalizing done n with
  | nil => simp [decode, decodeOnto]
  | cons a t ih =>
      cases n with
      | succ n => exact ih done n
      | zero =>
          simp only [decode, List.drop_zero, decodeOnto]
          cases firstChar? (a :: t) with
          | none => simp [ih]
          | some p => simp [ih]

theorem length_encodeChar_pos (c : Char) : 0 < (encodeChar c).length := by
  unfold encodeChar
  dsimp only
  split_ifs <;> simp

theorem decode_cons_of_some {a : UInt8} {t : Text} {c : Char} {n : Nat}
    (h : firstChar? (a :: t) = some (c, n)) : decode (a :: t) = some c :: decode (t.drop n) := by
  rw [decode, decodeOnto]
  simp [h, decodeOnto_eq]

theorem decode_cons_of_none {a : UInt8} {t : Text} (h : firstChar? (a :: t) = none) :
    decode (a :: t) = none :: decode t := by
  rw [decode, decodeOnto]
  simp [h, decodeOnto_eq]

theorem decode_encodeChar (c : Char) (rest : Text) :
    decode (encodeChar c ++ rest) = some c :: decode rest := by
  have hfirst := firstChar?_encodeChar c rest
  obtain ⟨a, t, ht⟩ := List.exists_cons_of_ne_nil (List.ne_nil_of_length_pos (length_encodeChar_pos c))
  rw [ht, List.cons_append] at hfirst ⊢
  rw [decode_cons_of_some hfirst]
  simp

/-- A text that starts with a character is its encoding and what is decoded next. -/
theorem decode_eq_cons_some {t : Text} {c : Char} {ds : List (Option Char)} (h : decode t = some c :: ds) :
    ∃ rest, t = encodeChar c ++ rest ∧ decode rest = ds := by
  cases t with
  | nil => cases h
  | cons a t =>
      cases hf : firstChar? (a :: t) with
      | none =>
          rw [decode_cons_of_none hf] at h
          cases h
      | some p =>
          obtain ⟨d, n⟩ := p
          rw [decode_cons_of_some hf] at h
          cases h
          obtain ⟨rest, ht, hl⟩ := encodeChar_of_firstChar? hf
          refine ⟨rest, ht, ?_⟩
          have hrest : rest = (a :: t).drop (n + 1) := by
            rw [ht, ← hl, List.drop_left]
          rw [hrest, List.drop_succ_cons]

theorem decode_eq_nil {t : Text} : decode t = [] ↔ t = [] := by
  cases t with
  | nil => exact iff_of_true rfl rfl
  | cons a t =>
      cases hf : firstChar? (a :: t) with
      | none => simp [decode_cons_of_none hf]
      | some p => simp [decode_cons_of_some hf]

theorem decode_eq_map_some {t : Text} {cs : List Char} :
    decode t = cs.map some ↔ t = cs.flatMap encodeChar := by
  constructor
  · intro h
    induction cs generalizing t with
    | nil => exact decode_eq_nil.mp h
    | cons c cs ih =>
        obtain ⟨rest, rfl, hrest⟩ := decode_eq_cons_some h
        rw [List.flatMap_cons, ih hrest]
  · rintro rfl
    induction cs with
    | nil => rfl
    | cons c cs ih => rw [List.flatMap_cons, decode_encodeChar, ih, List.map_cons]

/-- A text is valid UTF-8 if it is the encoding of some characters, which are then its own. -/
theorem chars?_eq_some {t : Text} {cs : List Char} : t.chars? = some cs ↔ t = cs.flatMap encodeChar := by
  have hall : ∀ ds : List (Option Char), ds.mapM id = some cs ↔ ds = cs.map some := by
    intro ds
    induction ds generalizing cs with
    | nil => cases cs <;> simp
    | cons d ds ih =>
        cases d with
        | none => cases cs <;> simp
        | some c => cases cs <;> simp [Option.bind_eq_some_iff, ih, and_comm]
  rw [chars?, hall, decode_eq_map_some]

/-- An ASCII byte in an encoding is the whole of it. -/
theorem eq_ofUInt8_of_mem_encodeChar {c : Char} {b : UInt8} (hb : b.toNat < 0x80) (h : b ∈ encodeChar c) :
    c = Char.ofUInt8 b := by
  have hmax := toNat_lt c
  have hhigh : ∀ n, 0x80 ≤ n → n < 256 → b ≠ .ofNat n := by
    rintro n h₁ h₂ rfl
    rw [toNat_ofNat8 h₂] at hb
    omega
  unfold encodeChar at h
  dsimp only at h
  split_ifs at h with h₁ h₂ h₃
  · rw [List.mem_singleton.mp h]
    exact Char.toNat_inj.mp (by rw [toNat_ofUInt8, toNat_ofNat8 (by omega)])
  all_goals simp only [List.mem_cons, List.not_mem_nil, or_false] at h
  · rcases h with h | h <;> exact absurd h (hhigh _ (by omega) (by omega))
  · rcases h with h | h | h <;> exact absurd h (hhigh _ (by omega) (by omega))
  · rcases h with h | h | h | h <;> exact absurd h (hhigh _ (by omega) (by omega))

end TwoPass.Text
