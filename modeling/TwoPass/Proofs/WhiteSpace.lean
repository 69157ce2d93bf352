import TwoPass.Proofs.Tokens

/-!
White space. The bytes that are dropped around a text are those of whole white-space characters.
-/
namespace TwoPass.Text

/-- The characters with the Unicode property White_Space. -/
def whiteChars : List Char :=
  [0x09, 0x0A, 0x0B, 0x0C, 0x0D, 0x20, 0x85, 0xA0, 0x1680, 0x2000, 0x2001, 0x2002, 0x2003, 0x2004, 0x2005,
    0x2006, 0x2007, 0x2008, 0x2009, 0x200A, 0x2028, 0x2029, 0x202F, 0x205F, 0x3000].map .ofNat

/-- A text of white-space characters only. -/
def IsWhite (t : Text) : Prop :=
  ∃ cs : List Char, (∀ c ∈ cs, c ∈ whiteChars) ∧ cs.flatMap encodeChar = t

/-- Whether a text is one character of the three kinds. -/
def isChar (one : UInt8 → Bool) (two : UInt8 → UInt8 → Bool) (three : UInt8 → UInt8 → UInt8 → Bool) : Text → Bool
  | [a] => one a
  | [a, b] => two a b
  | [a, b, c] => three a b c
  | _ => false

/-- Whether a text is one white-space character. -/
def isSpaceChar (t : Text) : Bool :=
  isChar isSpace1 isSpace2 isSpace3 t

theorem isSpaceChar_encodeChar : ∀ c ∈ whiteChars, isSpaceChar (encodeChar c) = true :=
  List.all_eq_true.mp (by decide)

theorem isWhite_nil : IsWhite [] := ⟨[], by simp, rfl⟩

theorem isWhite_encodeChar {c : Char} (h : c ∈ whiteChars) : IsWhite (encodeChar c) :=
  ⟨[c], by simpa using h, by simp⟩

/-- White space is read one character at a time. -/
theorem IsWhite.induction {P : Text → Prop} {t : Text} (h : IsWhite t) (nil : P [])
    (one : ∀ a t, isSpace1 a = true → P t → P (a :: t))
    (two : ∀ a b t, isSpace2 a b = true → P t → P (a :: b :: t))
    (three : ∀ a b c t, isSpace3 a b c = true → P t → P (a :: b :: c :: t)) : P t := by
  obtain ⟨cs, hcs, rfl⟩ := h
  induction cs with
  | nil => exact nil
  | cons c cs ih =>
      have hrest := ih fun c hc => hcs c (List.mem_cons_of_mem _ hc)
      have hc := isSpaceChar_encodeChar c (hcs c List.mem_cons_self)
      rw [List.flatMap_cons]
      generalize encodeChar c = first at hc ⊢
      match first, hc with
      | [a], hc => exact one a _ hc hrest
      | [a, b], hc => exact two a b _ hc hrest
      | [a, b, c], hc => exact three a b c _ hc hrest

/-- The bytes that can start a white-space character, as far as they can not go on with one. -/
def StartsChar (b : UInt8) : Prop :=
  (∀ x, isSpace2 x b = false) ∧ (∀ x y, isSpace3 x b y = false) ∧ ∀ x y, isSpace3 x y b = false

theorem startsChar_of_one {a : UInt8} (h : isSpace1 a = true) : StartsChar a := by
  refine ⟨?_, ?_, ?_⟩ <;> grind [isSpace1, isSpace2, isSpace3]

theorem startsChar_of_two {a b : UInt8} (h : isSpace2 a b = true) : isSpace1 a = false ∧ StartsChar a := by
  refine ⟨?_, ?_, ?_, ?_⟩ <;> grind [isSpace1, isSpace2, isSpace3]

theorem startsChar_of_three {a b c : UInt8} (h : isSpace3 a b c = true) :
    isSpace1 a = false ∧ isSpace2 a b = false ∧ StartsChar a := by
  refine ⟨?_, ?_, ?_, ?_, ?_⟩ <;> grind [isSpace1, isSpace2, isSpace3]

theorem not_space_last_of_two {a b : UInt8} (h : isSpace2 a b = true) : isSpace1 b = false := by
  grind [isSpace1, isSpace2]

theorem not_space_last_of_three {a b c : UInt8} (h : isSpace3 a b c = true) :
    isSpace1 c = false ∧ isSpace2 b c = false := by
  constructor <;> grind [isSpace1, isSpace2, isSpace3]

theorem trimLeft_append_white {w : Text} (h : IsWhite w) (t : Text) : trimLeft (w ++ t) = trimLeft t := by
  refine h.induction (P := fun w => trimLeft (w ++ t) = trimLeft t) rfl ?_ ?_ ?_
  · intro a w ha ih
    exact (dropChars_cons_of_one ha _).trans ih
  · intro a b w ha ih
    exact (dropChars_cons_of_two (startsChar_of_two ha).1 ha _).trans ih
  · intro a b c w ha ih
    obtain ⟨h₁, h₂, -⟩ := startsChar_of_three ha
    exact (dropChars_cons_of_three h₁ h₂ ha _).trans ih

theorem trimRight_append_white {w : Text} (h : IsWhite w) (t : Text) : trimRight (t ++ w) = trimRight t := by
  revert t
  refine h.induction (P := fun w => ∀ t, trimRight (t ++ w) = trimRight t) (by simp) ?_ ?_ ?_
  · intro a w ha ih t
    rw [← List.singleton_append, ← List.append_assoc, ih, trimRight, trimRight, List.reverse_append]
    exact congrArg List.reverse (dropChars_cons_of_one ha _)
  · intro a b w ha ih t
    have hsplit : t ++ a :: b :: w = t ++ [a, b] ++ w := by simp
    rw [hsplit, ih, trimRight, trimRight, List.reverse_append]
    exact congrArg List.reverse (dropChars_cons_of_two (not_space_last_of_two ha) ha _)
  · intro a b c w ha ih t
    have hsplit : t ++ a :: b :: c :: w = t ++ [a, b, c] ++ w := by simp
    rw [hsplit, ih, trimRight, trimRight, List.reverse_append]
    obtain ⟨h₁, h₂⟩ := not_space_last_of_three ha
    exact congrArg List.reverse (dropChars_cons_of_three h₁ h₂ ha _)

theorem IsWhite.trimLeft {w : Text} (h : IsWhite w) : w.trimLeft = [] := by
  have hall := trimLeft_append_white h []
  rwa [List.append_nil] at hall

theorem startsChar_of_isWhite {b : UInt8} {w : Text} (h : IsWhite (b :: w)) : StartsChar b := by
  suffices hhead : ∀ c ∈ (b :: w).head?, StartsChar c from hhead b rfl
  refine h.induction (P := fun t => ∀ c ∈ t.head?, StartsChar c) (by simp) ?_ ?_ ?_
  · intro a t ha _ c hc
    cases hc
    exact startsChar_of_one ha
  · intro a b t ha _ c hc
    cases hc
    exact (startsChar_of_two ha).2
  · intro a b c t ha _ c hc
    cases hc
    exact (startsChar_of_three ha).2.2

theorem trim_pad {left right : Text} (hl : IsWhite left) (hr : IsWhite right) (t : Text) :
    trim (left ++ t ++ right) = trim t := by
  rw [trim, List.append_assoc, trimLeft_append_white hl]
  cases hw : right with
  | nil => rw [List.append_nil, trim]
  | cons b w =>
      obtain ⟨h₂, h₃, h₃'⟩ := startsChar_of_isWhite (hw ▸ hr)
      have hleft : trimLeft (t ++ b :: w) = if t.trimLeft = [] then trimLeft (b :: w) else t.trimLeft ++ b :: w :=
        dropChars_append h₂ h₃ h₃' w t
      rw [hleft, ← hw, hr.trimLeft]
      split
      · rename_i he
        rw [trim, he]
      · exact trimRight_append_white hr _

theorem mem_whiteChars_of_one {a : UInt8} (h : isSpace1 a = true) : [a] ∈ whiteChars.map encodeChar := by
  have ha : a = 9 ∨ a = 10 ∨ a = 11 ∨ a = 12 ∨ a = 13 ∨ a = 32 := by grind [isSpace1]
  rcases ha with rfl | rfl | rfl | rfl | rfl | rfl <;> decide

theorem mem_whiteChars_of_two {a b : UInt8} (h : isSpace2 a b = true) : [a, b] ∈ whiteChars.map encodeChar := by
  have ha : a = 0xC2 ∧ (b = 0x85 ∨ b = 0xA0) := by grind [isSpace2]
  rcases ha with ⟨rfl, rfl | rfl⟩ <;> decide

theorem mem_whiteChars_of_three {a b c : UInt8} (h : isSpace3 a b c = true) :
    [a, b, c] ∈ whiteChars.map encodeChar := by
  have hab : a = 0xE1 ∧ b = 0x9A ∨ a = 0xE2 ∧ b = 0x80 ∨ a = 0xE2 ∧ b = 0x81 ∨ a = 0xE3 ∧ b = 0x80 := by
    grind [isSpace3]
  revert c
  rcases hab with ⟨rfl, rfl⟩ | ⟨rfl, rfl⟩ | ⟨rfl, rfl⟩ | ⟨rfl, rfl⟩ <;> decide +kernel

theorem mem_whiteChars {s : Text} (h : isSpaceChar s = true) : s ∈ whiteChars.map encodeChar := by
  rcases s with - | ⟨a, - | ⟨b, - | ⟨c, - | ⟨d, s⟩⟩⟩⟩
  · cases h
  · exact mem_whiteChars_of_one h
  · exact mem_whiteChars_of_two h
  · exact mem_whiteChars_of_three h
  · cases h

theorem isWhite_flatten {parts : List Text} (h : ∀ s ∈ parts, isSpaceChar s = true) : IsWhite parts.flatten := by
  induction parts with
  | nil => exact isWhite_nil
  | cons s parts ih =>
      obtain ⟨c, hc, rfl⟩ := List.mem_map.mp (mem_whiteChars (h s List.mem_cons_self))
      obtain ⟨cs, hcs, hrest⟩ := ih fun s hs => h s (List.mem_cons_of_mem _ hs)
      exact ⟨c :: cs, List.forall_mem_cons.mpr ⟨hc, hcs⟩, by simp [hrest]⟩

/-- What is dropped are characters of the three kinds. -/
theorem exists_dropped (one : UInt8 → Bool) (two : UInt8 → UInt8 → Bool) (three : UInt8 → UInt8 → UInt8 → Bool)
    (t : Text) : ∃ parts : List Text,
      (∀ s ∈ parts, isChar one two three s = true) ∧ t = parts.flatten ++ dropChars one two three t := by
  have hcons : ∀ {s rest left : Text}, isChar one two three s = true →
      (∃ parts : List Text, (∀ s ∈ parts, isChar one two three s = true) ∧ rest = parts.flatten ++ left) →
      ∃ parts : List Text, (∀ s ∈ parts, isChar one two three s = true) ∧ s ++ rest = parts.flatten ++ left := by
    rintro s rest left hs ⟨parts, hparts, rfl⟩
    exact ⟨s :: parts, List.forall_mem_cons.mpr ⟨hs, hparts⟩, by simp⟩
  have hnone : ∀ t : Text, ∃ parts : List Text,
      (∀ s ∈ parts, isChar one two three s = true) ∧ t = parts.flatten ++ t :=
    fun t => ⟨[], by simp, rfl⟩
  fun_induction dropChars one two three t with
  | case1 => exact hnone []
  | case2 a h => exact hcons (s := [a]) h (hnone [])
  | case3 a h => exact hnone [a]
  | case4 a b h ih => exact hcons (s := [a]) h ih
  | case5 a b h h' => exact hcons (s := [a, b]) h' (hnone [])
  | case6 a b h h' => exact hnone [a, b]
  | case7 a b c t h ih => exact hcons (s := [a]) h ih
  | case8 a b c t h h' ih => exact hcons (s := [a, b]) h' ih
  | case9 a b c t h h' h'' ih => exact hcons (s := [a, b, c]) h'' ih
  | case10 a b c t h h' h'' => exact hnone (a :: b :: c :: t)

theorem isSpaceChar_reverse {s : Text}
    (h : isChar isSpace1 (fun a b => isSpace2 b a) (fun a b c => isSpace3 c b a) s = true) :
    isSpaceChar s.reverse = true := by
  rcases s with - | ⟨a, - | ⟨b, - | ⟨c, - | ⟨d, s⟩⟩⟩⟩
  · exact h
  · exact h
  · exact h
  · exact h
  · cases h

theorem exists_white_trimLeft (t : Text) : ∃ w, IsWhite w ∧ t = w ++ trimLeft t := by
  obtain ⟨parts, hparts, ht⟩ := exists_dropped isSpace1 isSpace2 isSpace3 t
  exact ⟨parts.flatten, isWhite_flatten hparts, ht⟩

theorem exists_white_trimRight (t : Text) : ∃ w, IsWhite w ∧ t = trimRight t ++ w := by
  obtain ⟨parts, hparts, ht⟩ :=
    exists_dropped isSpace1 (fun a b => isSpace2 b a) (fun a b c => isSpace3 c b a) t.reverse
  refine ⟨(parts.map List.reverse).reverse.flatten, isWhite_flatten ?_, ?_⟩
  · intro s hs
    obtain ⟨u, hu, rfl⟩ := List.mem_map.mp (List.mem_reverse.mp hs)
    exact isSpaceChar_reverse (hparts u hu)
  · rw [trimRight, ← List.reverse_inj, ← List.reverse_flatten, List.reverse_append, List.reverse_reverse,
      List.reverse_reverse]
    exact ht

/-- A text is trimmed to a word exactly if it is the word with white space around it. -/
theorem trim_eq_iff {t word : Text} (h : Firm word) :
    t.trim = word ↔ ∃ left right, IsWhite left ∧ IsWhite right ∧ t = left ++ word ++ right := by
  constructor
  · rintro rfl
    obtain ⟨left, hl, ht⟩ := exists_white_trimLeft t
    obtain ⟨right, hr, hs⟩ := exists_white_trimRight t.trimLeft
    refine ⟨left, right, hl, hr, ?_⟩
    rw [List.append_assoc]
    exact ht.trans (congrArg (left ++ ·) hs)
  · rintro ⟨left, right, hl, hr, rfl⟩
    rw [trim_pad hl hr, h.trim]

theorem trim_trimRight (t : Text) : trim (trimRight t) = trim t := by
  obtain ⟨w, hw, hsplit⟩ := exists_white_trimRight t
  have hpad := trim_pad isWhite_nil hw (trimRight t)
  rw [List.nil_append, ← hsplit] at hpad
  exact hpad.symm

theorem IsWhite.not_mem {w : Text} (h : IsWhite w) {b : UInt8} (hb : isInk b = true) : b ∉ w := by
  obtain ⟨h₁, h₂, h₃⟩ := isInk_not_space hb
  obtain ⟨h₂', h₃', h₃''⟩ := isInk_not_space_last hb
  refine h.induction (P := fun w => b ∉ w) List.not_mem_nil ?_ ?_ ?_
  · intro a w ha ih hm
    rcases List.mem_cons.mp hm with rfl | hm
    · rw [h₁] at ha; cases ha
    · exact ih hm
  · intro a c w ha ih hm
    rcases List.mem_cons.mp hm with rfl | hm
    · rw [h₂] at ha; cases ha
    · rcases List.mem_cons.mp hm with rfl | hm
      · rw [h₂'] at ha; cases ha
      · exact ih hm
  · intro a c d w ha ih hm
    simp only [List.mem_cons] at hm
    rcases hm with rfl | rfl | rfl | hm
    · rw [h₃] at ha; cases ha
    · rw [h₃''] at ha; cases ha
    · rw [h₃'] at ha; cases ha
    · exact ih hm

end TwoPass.Text
