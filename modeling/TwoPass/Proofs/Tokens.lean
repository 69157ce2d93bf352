import Mathlib
import TwoPass.Statement.Token
import TwoPass.Text.Bracket

/-!
How tokens are cut out of a line. Only the texts of the pieces matter here, not their places.
-/
namespace TwoPass

namespace Token

@[simp] theorem value_piece (t : Token) (start : Nat) (s : Text) : (t.piece start s).value = s.trim := rfl

@[simp] theorem value_slice (t : Token) (start stop : Nat) :
    (t.slice start stop).value = Text.trim ((t.value.drop start).take (stop - start)) := rfl

@[simp] theorem value_sliceFrom (t : Token) (start : Nat) :
    (t.sliceFrom start).value = Text.trim (t.value.drop start) := rfl

theorem map_value_split (t : Token) (sep : UInt8) :
    (t.split sep).map (·.value) = (t.value.splitOn sep).map Text.trim := by
  have hfold : ∀ (pieces : List Text) (acc : Nat × Array Token),
      (pieces.foldl (fun acc s => (acc.1 + s.length + 1, acc.2.push (t.piece acc.1 s))) acc).2.toList.map
          (·.value) =
        acc.2.toList.map (·.value) ++ pieces.map Text.trim := by
    intro pieces
    induction pieces with
    | nil => simp
    | cons s pieces ih => intro acc; simp [ih]
  exact hfold (t.value.splitOn sep) (0, #[])

end Token

namespace Text

/-- The items of a list with commas. -/
def items (t : Text) : List Text :=
  (t.splitOn ','.toUInt8).map trim

/-- The arguments that a text lists. An empty text lists none. -/
def arguments (t : Text) : List Text :=
  if t = [] then [] else t.items

theorem map_value_arguments (t : Token) :
    (if t.value.isEmpty then [] else t.split ','.toUInt8).map (·.value) = arguments t.value := by
  unfold arguments
  by_cases h : t.value = []
  · simp [h]
  · simp [h, Token.map_value_split, items]

/-! ## Separators -/

theorem splitOn_cons (sep b : UInt8) (t : Text) :
    splitOn sep (b :: t) =
      if b = sep then [] :: splitOn sep t
      else match splitOn sep t with
        | [] => [[b]]
        | p :: ps => (b :: p) :: ps := rfl

theorem splitOn_ne_nil (sep : UInt8) (t : Text) : splitOn sep t ≠ [] := by
  cases t with
  | nil => simp [splitOn]
  | cons b t =>
      rw [splitOn_cons]
      split
      · simp
      · split <;> simp

theorem splitOn_of_not_mem {sep : UInt8} {t : Text} (h : sep ∉ t) : splitOn sep t = [t] := by
  induction t with
  | nil => rfl
  | cons b t ih =>
      obtain ⟨hb, ht⟩ := not_or.mp (fun hm => h (List.mem_cons.mpr hm))
      rw [splitOn_cons, if_neg (fun he => hb he.symm), ih ht]

theorem splitOn_append_sep (sep : UInt8) (s t : Text) :
    splitOn sep (s ++ sep :: t) = splitOn sep s ++ splitOn sep t := by
  induction s with
  | nil => simp [splitOn]
  | cons b s ih =>
      rw [List.cons_append, splitOn_cons, splitOn_cons, ih]
      obtain ⟨p, ps, hs⟩ := List.exists_cons_of_ne_nil (splitOn_ne_nil sep s)
      split <;> simp [hs]

theorem splitOn_append {sep : UInt8} {t : Text} (h : sep ∉ t) (rest : Text) :
    splitOn sep (t ++ sep :: rest) = t :: splitOn sep rest := by
  rw [splitOn_append_sep, splitOn_of_not_mem h, List.singleton_append]

theorem mem_splitOn {sep : UInt8} {t p : Text} (h : p ∈ splitOn sep t) : sep ∉ p ∧ ∀ b ∈ p, b ∈ t := by
  induction t generalizing p with
  | nil =>
      rw [List.mem_singleton.mp h]
      exact ⟨List.not_mem_nil, fun b hb => hb⟩
  | cons c t ih =>
      obtain ⟨q, qs, hs⟩ := List.exists_cons_of_ne_nil (splitOn_ne_nil sep t)
      have hmem : ∀ p ∈ q :: qs, sep ∉ p ∧ ∀ b ∈ p, b ∈ t := fun p hp => ih (hs ▸ hp)
      rw [splitOn_cons, hs] at h
      split at h
      · rcases List.mem_cons.mp h with rfl | h
        · exact ⟨List.not_mem_nil, fun b hb => absurd hb List.not_mem_nil⟩
        · exact ⟨(hmem p h).1, fun b hb => List.mem_cons_of_mem c ((hmem p h).2 b hb)⟩
      · rename_i hc
        rcases List.mem_cons.mp h with rfl | h
        · obtain ⟨hsep, hall⟩ := hmem q List.mem_cons_self
          refine ⟨?_, fun b hb => ?_⟩
          · exact List.not_mem_cons_of_ne_of_not_mem (Ne.symm hc) hsep
          · exact (List.mem_cons.mp hb).elim (fun he => he ▸ List.mem_cons_self)
              fun hb => List.mem_cons_of_mem c (hall b hb)
        · obtain ⟨hsep, hall⟩ := hmem p (List.mem_cons_of_mem q h)
          exact ⟨hsep, fun b hb => List.mem_cons_of_mem c (hall b hb)⟩

/-! ## Delimiters -/

section
variable {α : Type} {p : α → Bool} {t front rest : List α} {b : α}

/-- A list is cut at the first item that fails a test. -/
theorem cut_iff : t.takeWhile p = front ∧ t.dropWhile p = b :: rest ↔
    t = front ++ b :: rest ∧ (∀ x ∈ front, p x = true) ∧ p b = false := by
  constructor
  · rintro ⟨rfl, h⟩
    refine ⟨?_, fun x hx => List.mem_takeWhile_imp hx, ?_⟩
    · rw [← h, List.takeWhile_append_dropWhile]
    · have hb := List.head?_dropWhile_not p t
      rwa [h] at hb
  · rintro ⟨rfl, hf, hb⟩
    have hb : ¬ p b = true := by simp [hb]
    rw [List.takeWhile_append_of_pos hf, List.dropWhile_append_of_pos hf, List.takeWhile_cons_of_neg hb,
      List.dropWhile_cons_of_neg hb, List.append_nil]
    exact ⟨rfl, rfl⟩

theorem dropWhile_eq_cons : t.dropWhile p = b :: rest ↔
    ∃ front, t = front ++ b :: rest ∧ (∀ x ∈ front, p x = true) ∧ p b = false := by
  simp only [← cut_iff, exists_eq_left']

end

theorem forall_ne_iff {t : Text} {b : UInt8} : (∀ x ∈ t, (x != b) = true) ↔ b ∉ t := by
  simp only [bne_iff_ne, ne_eq]
  exact ⟨fun h hb => h b hb rfl, fun h x hx he => h (he ▸ hx)⟩

theorem cut?_append {sep : UInt8} {front : Text} (h : sep ∉ front) (rest : Text) :
    (front ++ sep :: rest).cut? sep = some (front, rest) := by
  have hsep : (sep != sep) = false := by simp
  obtain ⟨htake, hdrop⟩ := cut_iff.mpr ⟨rfl, forall_ne_iff.mpr h, hsep⟩
  rw [cut?, hdrop, htake]

def NoBrackets (t : Text) : Prop :=
  ∀ b ∈ t, isBracket b = false

theorem noBrackets_of_not_mem {t : Text} (hopen : '['.toUInt8 ∉ t) (hclose : ']'.toUInt8 ∉ t) : NoBrackets t := by
  intro b hb
  have ho : b ≠ '['.toUInt8 := fun he => hopen (he ▸ hb)
  have hc : b ≠ ']'.toUInt8 := fun he => hclose (he ▸ hb)
  simp [isBracket, ho, hc]

def inBrackets (t : Text) : Text :=
  '['.toUInt8 :: t ++ [']'.toUInt8]

theorem bracketed?_eq_some {t inner rest : Text} :
    bracketed? t = some (inner, rest) ↔ t = inBrackets inner ++ rest ∧ NoBrackets inner := by
  constructor
  · intro h
    cases t with
    | nil => cases h
    | cons b t =>
        rw [bracketed?] at h
        split at h
        · rename_i hb
          split at h
          · cases h
          · rename_i c after hd
            split at h
            · rename_i hc
              obtain ⟨ht, hf, -⟩ := cut_iff.mp ⟨rfl, hd⟩
              simp only [Option.some.injEq, Prod.mk.injEq] at h
              obtain ⟨hi, rfl⟩ := h
              rw [hi] at ht hf
              refine ⟨?_, fun x hx => ?_⟩
              · rw [ht, hb, hc]
                simp [inBrackets]
              · simpa using hf x hx
            · cases h
        · cases h
  · rintro ⟨rfl, hn⟩
    have hcut : (inner ++ ']'.toUInt8 :: rest).takeWhile (!isBracket ·) = inner ∧
        (inner ++ ']'.toUInt8 :: rest).dropWhile (!isBracket ·) = ']'.toUInt8 :: rest :=
      cut_iff.mpr ⟨rfl, fun x hx => by simp [hn x hx], by decide⟩
    simp [inBrackets, bracketed?, hcut.1, hcut.2]

/-! ## White space -/

/-- A visible ASCII byte. No white-space character starts or ends with one. -/
def isInk (b : UInt8) : Bool :=
  0x21 ≤ b && b ≤ 0x7E

theorem isInk_not_space {b : UInt8} (h : isInk b = true) :
    isSpace1 b = false ∧ (∀ x, isSpace2 b x = false) ∧ (∀ x y, isSpace3 b x y = false) := by
  refine ⟨?_, ?_, ?_⟩
  · grind [isInk, isSpace1]
  · grind [isInk, isSpace2]
  · grind [isInk, isSpace3]

theorem isInk_not_space_last {b : UInt8} (h : isInk b = true) :
    (∀ x, isSpace2 x b = false) ∧ (∀ x y, isSpace3 y x b = false) ∧ (∀ x y, isSpace3 y b x = false) := by
  refine ⟨?_, ?_, ?_⟩
  · grind [isInk, isSpace2]
  · grind [isInk, isSpace3]
  · grind [isInk, isSpace3]

section
variable {one : UInt8 → Bool} {two : UInt8 → UInt8 → Bool} {three : UInt8 → UInt8 → UInt8 → Bool} {b : UInt8}

theorem dropChars_cons_of_one (h : one b = true) (t : Text) :
    dropChars one two three (b :: t) = dropChars one two three t := by
  match t with
  | [] => simp [dropChars, h]
  | [x] => simp [dropChars, h]
  | x :: y :: t => simp [dropChars, h]

theorem dropChars_cons_of_not (h₁ : one b = false) (h₂ : ∀ x, two b x = false)
    (h₃ : ∀ x y, three b x y = false) (t : Text) : dropChars one two three (b :: t) = b :: t := by
  match t with
  | [] => simp [dropChars, h₁]
  | [x] => simp [dropChars, h₁, h₂]
  | x :: y :: t => simp [dropChars, h₁, h₂, h₃]

theorem dropChars_cons_of_two {a : UInt8} (h₁ : one a = false) (h₂ : two a b = true) (t : Text) :
    dropChars one two three (a :: b :: t) = dropChars one two three t := by
  cases t <;> simp [dropChars, h₁, h₂]

theorem dropChars_cons_of_three {a c : UInt8} (h₁ : one a = false) (h₂ : two a b = false)
    (h₃ : three a b c = true) (t : Text) : dropChars one two three (a :: b :: c :: t) = dropChars one two three t := by
  simp [dropChars, h₁, h₂, h₃]

/-- What is dropped are whole characters from the front. -/
theorem dropChars_suffix (one : UInt8 → Bool) (two : UInt8 → UInt8 → Bool)
    (three : UInt8 → UInt8 → UInt8 → Bool) (t : Text) : dropChars one two three t <:+ t := by
  fun_induction dropChars one two three t with
  | case1 => exact List.suffix_rfl
  | case2 a h => exact List.nil_suffix
  | case3 a h => exact List.suffix_rfl
  | case4 a b h ih => exact ih.trans (List.suffix_cons a [b])
  | case5 a b h h' => exact List.nil_suffix
  | case6 a b h h' => exact List.suffix_rfl
  | case7 a b c t h ih => exact ih.trans (List.suffix_cons a _)
  | case8 a b c t h h' ih => exact ih.trans (List.suffix_append [a, b] _)
  | case9 a b c t h h' h'' ih => exact ih.trans (List.suffix_append [a, b, c] _)
  | case10 a b c t h h' h'' => exact List.suffix_rfl

/-- What stands before a byte that no character goes on with is dropped as if it stood alone. -/
theorem dropChars_append (h₂ : ∀ x, two x b = false) (h₃ : ∀ x y, three x b y = false)
    (h₃' : ∀ x y, three x y b = false) (s t : Text) :
    dropChars one two three (t ++ b :: s) =
      if dropChars one two three t = [] then dropChars one two three (b :: s)
      else dropChars one two three t ++ b :: s := by
  fun_induction dropChars one two three t with
  | case1 => rfl
  | case2 a h => exact dropChars_cons_of_one h _
  | case3 a h => cases s <;> simp [dropChars, h, h₂, h₃]
  | case4 a c h ih =>
      rw [← ih]
      exact dropChars_cons_of_one h _
  | case5 a c h h' => simpa using dropChars_cons_of_two (by simpa using h) h' (b :: s)
  | case6 a c h h' => simp [dropChars, h, h', h₃']
  | case7 a c d t h ih =>
      rw [← ih]
      exact dropChars_cons_of_one h _
  | case8 a c d t h h' ih =>
      rw [← ih]
      exact dropChars_cons_of_two (by simpa using h) h' _
  | case9 a c d t h h' h'' ih =>
      rw [← ih]
      exact dropChars_cons_of_three (by simpa using h) (by simpa using h') h'' _
  | case10 a c d t h h' h'' => simp [dropChars, h, h', h'']

/-- Dropping characters stops at a byte that is in no character to be dropped. -/
theorem dropChars_append_cons (h₁ : one b = false) (h₂ : ∀ x, two b x = false) (h₂' : ∀ x, two x b = false)
    (h₃ : ∀ x y, three b x y = false) (h₃' : ∀ x y, three x b y = false) (h₃'' : ∀ x y, three x y b = false)
    (s t : Text) : dropChars one two three (t ++ b :: s) = dropChars one two three t ++ b :: s := by
  rw [dropChars_append h₂' h₃' h₃'', dropChars_cons_of_not h₁ h₂ h₃]
  split
  · rename_i h
    rw [h, List.nil_append]
  · rfl

end

theorem trimLeft_cons {b : UInt8} (h : isInk b = true) (t : Text) : trimLeft (b :: t) = b :: t := by
  obtain ⟨h₁, h₂, h₃⟩ := isInk_not_space h
  exact dropChars_cons_of_not h₁ h₂ h₃ t

/-- Trimming on the left stops at a visible byte. -/
theorem trimLeft_append_cons {b : UInt8} (h : isInk b = true) (s t : Text) :
    trimLeft (t ++ b :: s) = trimLeft t ++ b :: s := by
  obtain ⟨h₁, h₂, h₃⟩ := isInk_not_space h
  obtain ⟨h₂', h₃', h₃''⟩ := isInk_not_space_last h
  exact dropChars_append_cons h₁ h₂ h₂' h₃ (fun x y => h₃'' y x) (fun x y => h₃' y x) s t

theorem trimRight_append_cons {b : UInt8} (h : isInk b = true) (s t : Text) :
    trimRight (s ++ b :: t) = s ++ b :: trimRight t := by
  obtain ⟨h₁, h₂, h₃⟩ := isInk_not_space h
  obtain ⟨h₂', h₃', h₃''⟩ := isInk_not_space_last h
  have hdrop := @dropChars_append_cons isSpace1 (fun a b => isSpace2 b a) (fun a b c => isSpace3 c b a) b
    h₁ h₂' h₂ h₃' h₃'' (fun x y => h₃ y x) s.reverse t.reverse
  rw [trimRight, List.reverse_append, List.reverse_cons, List.append_assoc, List.singleton_append, hdrop]
  simp [trimRight]

theorem trimRight_isPrefix (t : Text) : trimRight t <+: t := by
  rw [← List.reverse_suffix, trimRight, List.reverse_reverse]
  exact dropChars_suffix _ _ _ _

theorem trimRight_append_singleton {b : UInt8} (h : isInk b = true) (t : Text) :
    trimRight (t ++ [b]) = t ++ [b] := by
  rw [trimRight_append_cons h]
  rfl

theorem trim_cons {b : UInt8} (h : isInk b = true) (t : Text) : trim (b :: t) = b :: trimRight t := by
  rw [trim, trimLeft_cons h]
  exact trimRight_append_cons h [] t

theorem trimLeft_space (t : Text) : trimLeft (' '.toUInt8 :: t) = trimLeft t :=
  dropChars_cons_of_one (by decide) t

theorem trim_space (t : Text) : trim (' '.toUInt8 :: t) = trim t := by
  rw [trim, trimLeft_space, trim]

theorem mem_of_mem_trim {t : Text} {b : UInt8} (h : b ∈ t.trim) : b ∈ t :=
  (dropChars_suffix _ _ _ t).subset ((trimRight_isPrefix _).subset h)

theorem items_space (t : Text) : items (' '.toUInt8 :: t) = items t := by
  obtain ⟨p, ps, hs⟩ := List.exists_cons_of_ne_nil (splitOn_ne_nil ','.toUInt8 t)
  rw [items, splitOn_cons, if_neg (by decide), items, hs, List.map_cons, List.map_cons, trim_space]

/-- A text that starts and ends with a visible byte. -/
structure Firm (t : Text) : Prop where
  first : ∃ b s, t = b :: s ∧ isInk b = true
  last : ∃ s b, t = s ++ [b] ∧ isInk b = true

theorem Firm.ne_nil {t : Text} (h : Firm t) : t ≠ [] := by
  obtain ⟨b, s, rfl, -⟩ := h.first
  exact List.cons_ne_nil b s

theorem Firm.trim {t : Text} (h : Firm t) : t.trim = t := by
  obtain ⟨b, s, he, hb⟩ := h.first
  obtain ⟨s', b', he', hb'⟩ := h.last
  have hl : trimLeft t = t := by rw [he, trimLeft_cons hb]
  rw [Text.trim, hl, he', trimRight_append_singleton hb']

theorem Firm.trim_space {t : Text} (h : Firm t) : Text.trim (' '.toUInt8 :: t) = t :=
  (Text.trim_space t).trans h.trim

theorem firm_of_ink {t : Text} (hne : t ≠ []) (h : ∀ b ∈ t, isInk b = true) : Firm t := by
  constructor
  · obtain ⟨b, s, rfl⟩ := List.exists_cons_of_ne_nil hne
    exact ⟨b, s, rfl, h b List.mem_cons_self⟩
  · exact ⟨t.dropLast, t.getLast hne, (List.dropLast_append_getLast hne).symm, h _ (List.getLast_mem hne)⟩

theorem Firm.append {t u : Text} (ht : Firm t) (hu : Firm u) (mid : Text) : Firm (t ++ mid ++ u) := by
  obtain ⟨b, s, rfl, hb⟩ := ht.first
  obtain ⟨s', b', rfl, hb'⟩ := hu.last
  exact ⟨⟨b, s ++ mid ++ (s' ++ [b']), by simp, hb⟩, ⟨b :: s ++ mid ++ s', b', by simp, hb'⟩⟩

@[simp] theorem trim_nil : trim [] = [] := rfl

/-! ## The first word of a code -/

theorem startsWithSpace_cons {b : UInt8} (h : isInk b = true) (t : Text) : startsWithSpace (b :: t) = false := by
  obtain ⟨h₁, h₂, h₃⟩ := isInk_not_space h
  match t with
  | [] => exact h₁
  | [x] => simp [startsWithSpace, h₁, h₂]
  | x :: y :: t => simp [startsWithSpace, h₁, h₂, h₃]

theorem spaceIndexFrom_of_ink {t : Text} (h : ∀ b ∈ t, isInk b = true) (i : Nat) :
    spaceIndexFrom i t = none := by
  induction t generalizing i with
  | nil => rfl
  | cons b t ih =>
      rw [spaceIndexFrom, startsWithSpace_cons (h b List.mem_cons_self)]
      exact ih (fun b hb => h b (List.mem_cons_of_mem _ hb)) (i + 1)

theorem startsWithSpace_of_isSpace1 {b : UInt8} (h : isSpace1 b = true) (t : Text) :
    startsWithSpace (b :: t) = true := by
  match t with
  | [] => exact h
  | [x] => simp [startsWithSpace, h]
  | x :: y :: t => simp [startsWithSpace, h]

theorem spaceIndexFrom_append {t : Text} (h : ∀ b ∈ t, isInk b = true) {b : UInt8} (hb : isSpace1 b = true)
    (rest : Text) (i : Nat) : spaceIndexFrom i (t ++ b :: rest) = some (i + t.length) := by
  induction t generalizing i with
  | nil =>
      rw [List.nil_append, spaceIndexFrom, startsWithSpace_of_isSpace1 hb]
      rfl
  | cons b t ih =>
      rw [List.cons_append, spaceIndexFrom, startsWithSpace_cons (h b List.mem_cons_self)]
      have hi := ih (fun b hb => h b (List.mem_cons_of_mem _ hb)) (i + 1)
      simpa [Nat.add_assoc, Nat.add_comm 1] using hi

/-! ## Blank-delimited words -/

def StartsBlank (t : Text) : Prop :=
  ∀ b ∈ t.head?, isBlank b = true

theorem StartsBlank.mono {s t : Text} (h : StartsBlank t) (hp : s <+: t) : StartsBlank s := by
  obtain ⟨rest, rfl⟩ := hp
  cases s with
  | nil => exact fun b hb => by cases hb
  | cons b s => exact h

theorem isSpace1_of_isBlank {b : UInt8} (h : isBlank b = true) : isSpace1 b = true := by
  simp only [isBlank, Bool.or_eq_true, decide_eq_true_eq] at h
  rcases h with rfl | rfl <;> decide

theorem word_spec (t : Text) :
    ∃ blanks, (∀ b ∈ blanks, isBlank b = true) ∧ t = blanks ++ (t.word.1 ++ t.word.2) ∧ t.word.2.StartsBlank := by
  refine ⟨t.takeWhile isBlank, fun b hb => List.mem_takeWhile_imp hb, ?_, ?_⟩
  · simp [word, List.takeWhile_append_dropWhile]
  · intro b hb
    have hhead := List.head?_dropWhile_not (!isBlank ·) (t.dropWhile isBlank)
    simp only [word] at hb
    rw [Option.mem_def.mp hb] at hhead
    simpa using hhead

/-- Trimming leaves the first word as it is. -/
theorem trim_word {blanks word : Text} (hb : ∀ b ∈ blanks, isBlank b = true) (hne : word ≠ [])
    (hw : ∀ b ∈ word, isInk b = true) (tail : Text) : trim (blanks ++ (word ++ tail)) = word ++ trimRight tail := by
  have hleft : trimLeft (blanks ++ (word ++ tail)) = word ++ tail := by
    induction blanks with
    | nil =>
        obtain ⟨b, s, rfl⟩ := List.exists_cons_of_ne_nil hne
        exact trimLeft_cons (hw b List.mem_cons_self) (s ++ tail)
    | cons b blanks ih =>
        have hspace : isSpace1 b = true := isSpace1_of_isBlank (hb b List.mem_cons_self)
        have hstep : trimLeft (b :: (blanks ++ (word ++ tail))) = trimLeft (blanks ++ (word ++ tail)) :=
          dropChars_cons_of_one hspace _
        exact hstep.trans (ih fun b hm => hb b (List.mem_cons_of_mem _ hm))
  have hsplit : ∀ t : Text, word ++ t = word.dropLast ++ word.getLast hne :: t := by
    intro t
    rw [← List.singleton_append, ← List.append_assoc, List.dropLast_append_getLast]
  rw [trim, hleft, hsplit, trimRight_append_cons (hw _ (List.getLast_mem hne)), ← hsplit]

end Text

namespace Token

theorem headRest_of_ink {t : Token} (h : ∀ b ∈ t.value, Text.isInk b = true) :
    t.headRest.1.value = t.value ∧ t.headRest.2.value = [] := by
  have hi : t.value.spaceIndex? = none := Text.spaceIndexFrom_of_ink h 0
  unfold headRest
  rw [hi]
  exact ⟨rfl, by simp⟩

theorem headRest_word {t : Token} {word tail : Text} (hv : t.value = word ++ tail) (hne : word ≠ [])
    (hw : ∀ b ∈ word, Text.isInk b = true) (ht : tail.StartsBlank) : t.headRest.1.value = word := by
  cases tail with
  | nil =>
      rw [List.append_nil] at hv
      exact (headRest_of_ink (hv ▸ hw)).1.trans hv
  | cons b rest =>
      have hb : Text.isSpace1 b = true := Text.isSpace1_of_isBlank (ht b rfl)
      have hi : t.value.spaceIndex? = some word.length := by
        rw [hv, Text.spaceIndex?, Text.spaceIndexFrom_append hw hb rest 0, Nat.zero_add]
      unfold headRest
      rw [hi]
      simp [hv, (Text.firm_of_ink hne hw).trim]

theorem headRest_append {t : Token} {word rest : Text} (hv : t.value = word ++ ' '.toUInt8 :: rest)
    (hne : word ≠ []) (hw : ∀ b ∈ word, Text.isInk b = true) (hr : Text.Firm rest) :
    t.headRest.1.value = word ∧ t.headRest.2.value = rest := by
  refine ⟨headRest_word hv hne hw fun b hb => by cases hb; decide, ?_⟩
  have hi : t.value.spaceIndex? = some word.length := by
    rw [hv, Text.spaceIndex?, Text.spaceIndexFrom_append hw (by decide) rest 0, Nat.zero_add]
  unfold headRest
  rw [hi]
  simp [hv, hr.trim_space]

end Token

end TwoPass
