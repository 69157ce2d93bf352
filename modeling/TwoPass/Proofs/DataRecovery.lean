import TwoPass.Proofs.DataGrammar
import TwoPass.Proofs.FirstPass

/-!
What a data directive places when its arguments are at fault. The number of words follows from the shape
of the arguments alone, so that an error in one item does not move what comes behind it.
-/
namespace TwoPass.Data

/-! ## Items -/

/-- Each item gives its number, or the word 0 and one fault at its place. -/
inductive Recovered : List Token → List Word → List Diagnostic → Prop
  | nil : Recovered [] [] []
  | literal {item n items words faults} : Numeral.Writes item.value n → -32768 ≤ n → n ≤ 32767 →
      Recovered items words faults → Recovered (item :: items) (.ofInt n :: words) faults
  | rejected {item fault items words faults} : ¬ Numeral.IsLiteral item.value →
      fault.position? = some item.position → Recovered items words faults →
      Recovered (item :: items) (0 :: words) (fault :: faults)

theorem literals_cons_of_ok {item : Token} {w : Word} (h : item.literal = .ok w) (items : List Token) :
    literals (item :: items) = { words := w :: (literals items).words, faults := (literals items).faults } := by
  simp [literals, h, List.filterMap_cons, faultOf, Except.toOption]

theorem literals_cons_of_error {item : Token} {d : Diagnostic} (h : item.literal = .error d) (items : List Token) :
    literals (item :: items) =
      { words := 0 :: (literals items).words, faults := d :: (literals items).faults } := by
  simp [literals, h, faultOf, Except.toOption]

theorem recovered_literals (items : List Token) :
    Recovered items (literals items).words (literals items).faults := by
  induction items with
  | nil => exact .nil
  | cons item items ih =>
      cases h : item.literal with
      | ok w =>
          obtain ⟨n, hn, hlow, hhigh, rfl⟩ := Token.literal_eq_ok.mp h
          rw [literals_cons_of_ok h]
          exact .literal hn hlow hhigh ih
      | error d =>
          obtain ⟨hno, hd⟩ := Token.literal_eq_error h
          rw [literals_cons_of_error h]
          exact .rejected hno hd ih

/-! ## Directives -/

/-- The items of a list with commas, which may be empty. -/
def listed (t : Token) : List Token :=
  if t.value.isEmpty then [] else t.split ','.toUInt8

/-- The values that follow the header of a matrix. -/
def matrixItems (args : Token) (rest : Text) : List Token :=
  listed (args.piece (args.value.length - rest.length) rest)

/-- A matrix header that asks for `count` cells, no more than memory has. -/
def Sized (args : Token) (rest : Text) (count : Nat) : Prop :=
  ∃ rows columns r c, IsHeader args.value rows columns rest ∧ IsDimension rows r ∧ IsDimension columns c ∧
    count = r * c ∧ count ≤ Memory.size

/-- The place of a matrix header. -/
def headerPosition (args : Token) (rest : Text) : Span :=
  (args.slice 0 (args.value.length - rest.length)).position

/-- The words that a directive places for its arguments, and what is wrong with them. -/
inductive Places : Directive → Token → List Word → List Diagnostic → Prop
  | noNumbers {args} : args.value = [] → Places .data args [] [.missingOperand args.position]
  | numbers {args words faults} : args.value ≠ [] → Recovered (args.split ','.toUInt8) words faults →
      Places .data args words faults
  | string {args} {cs : List Char} : IsQuoted args.value (cs.flatMap Text.encodeChar) → (∀ c ∈ cs, c.toNat ≤ 0xFFFF) →
      Places .string args (cs.map (fun c => .ofNat c.toNat) ++ [0]) []
  | noString {args} : ¬ IsString args.value → Places .string args [] [.invalidString args.position]
  | matrix {args rest count words faults} : Sized args rest count → (matrixItems args rest).length ≤ count →
      Recovered (matrixItems args rest) words faults →
      Places .mat args (words ++ List.replicate (count - (matrixItems args rest).length) 0) faults
  | surplus {args rest count items item more words faults} : Sized args rest count →
      matrixItems args rest = items ++ item :: more → items.length = count → Recovered items words faults →
      Places .mat args words
        (faults ++ [.excessInitializer item.position count (matrixItems args rest).length])
  | noHeader {args} : (∀ rows columns rest, ¬ IsHeader args.value rows columns rest) →
      Places .mat args [] [.invalidMatrix args.position]
  | noDimensions {args rows columns rest} : IsHeader args.value rows columns rest →
      (∀ r c, ¬ (IsDimension rows r ∧ IsDimension columns c)) →
      Places .mat args [] [.invalidMatrix (headerPosition args rest)]
  | manyCells {args rows columns rest r c} : IsHeader args.value rows columns rest → IsDimension rows r →
      IsDimension columns c → Memory.size < r * c →
      Places .mat args []
        [.oversizedLiteral (headerPosition args rest) (Text.of "<=65536 cells") (Text.ofNat (r * c))]

theorem places_numbers (args : Token) : Places .data args (numbers args).words (numbers args).faults := by
  unfold numbers
  by_cases he : args.value = []
  · rw [if_pos (by simpa using he)]
    exact .noNumbers he
  · rw [if_neg (by simpa using he)]
    exact .numbers he (recovered_literals _)

theorem places_string (args : Token) : Places .string args (string args).words (string args).faults := by
  unfold string
  cases hq : (quoted? args.value).bind charWords? with
  | none =>
      refine .noString fun hs => ?_
      rw [← faults_string, string, hq] at hs
      cases hs
  | some words =>
      obtain ⟨inner, hinner, hwords⟩ := Option.bind_eq_some_iff.mp hq
      obtain ⟨cs, rfl, hcs, rfl⟩ := charWords?_eq_some.mp hwords
      exact .string (quoted?_eq_some.mp hinner) hcs

theorem places_cells {args : Token} {rest : Text} {count : Nat} (h : Sized args rest count) :
    Places .mat args (cells count (matrixItems args rest)).words (cells count (matrixItems args rest)).faults := by
  unfold cells
  by_cases hl : (matrixItems args rest).length ≤ count
  · rw [List.take_of_length_le hl, List.drop_of_length_le hl]
    simpa using Places.matrix h hl (recovered_literals _)
  · have hlt : count < (matrixItems args rest).length := by omega
    have hdrop : (matrixItems args rest).drop count =
        (matrixItems args rest)[count] :: (matrixItems args rest).drop (count + 1) := List.drop_eq_getElem_cons hlt
    have hsplit : matrixItems args rest = (matrixItems args rest).take count ++
        (matrixItems args rest)[count] :: (matrixItems args rest).drop (count + 1) := by
      rw [← hdrop, List.take_append_drop]
    have hplaces := Places.surplus h hsplit (List.length_take_of_le hlt.le) (recovered_literals _)
    rw [hdrop, Nat.sub_eq_zero_of_le hlt.le]
    simpa using hplaces

/-- A matrix with a sound header is filled from its items. -/
theorem matrix_of_sized {args : Token} {rest : Text} {count : Nat} (h : Sized args rest count) :
    matrix args = cells count (matrixItems args rest) := by
  obtain ⟨rows, columns, r, c, hheader, hr, hc, rfl, hs⟩ := h
  unfold matrix
  simp only [matrixHeader?_eq_some.mpr hheader, dimension?_eq_some.mpr hr, dimension?_eq_some.mpr hc, if_pos hs]
  rfl

theorem places_matrix_of_header {args : Token} {rows columns rest : Text}
    (h : IsHeader args.value rows columns rest) : Places .mat args (matrix args).words (matrix args).faults := by
  by_cases hd : ∃ r c, IsDimension rows r ∧ IsDimension columns c
  · obtain ⟨r, c, hr, hc⟩ := hd
    by_cases hs : r * c ≤ Memory.size
    · have hsized : Sized args rest (r * c) := ⟨rows, columns, r, c, h, hr, hc, rfl, hs⟩
      rw [matrix_of_sized hsized]
      exact places_cells hsized
    · unfold matrix
      simp only [matrixHeader?_eq_some.mpr h, dimension?_eq_some.mpr hr, dimension?_eq_some.mpr hc, if_neg hs]
      exact .manyCells h hr hc (Nat.lt_of_not_le hs)
  · have hfault : matrix args = fault (.invalidMatrix (headerPosition args rest)) := by
      unfold matrix
      simp only [matrixHeader?_eq_some.mpr h]
      split
      · rename_i r c hr hc
        exact absurd ⟨r, c, dimension?_eq_some.mp hr, dimension?_eq_some.mp hc⟩ hd
      · rfl
    rw [hfault]
    exact .noDimensions h fun r c hrc => hd ⟨r, c, hrc⟩

theorem places_matrix (args : Token) : Places .mat args (matrix args).words (matrix args).faults := by
  cases hh : matrixHeader? args.value with
  | none =>
      simp only [matrix, hh]
      refine .noHeader fun rows columns rest h => ?_
      rw [matrixHeader?_eq_some.mpr h] at hh
      cases hh
  | some header => exact places_matrix_of_header (matrixHeader?_eq_some.mp hh)

theorem places_contents {d : Directive} (hd : d.isData = true) (args : Token) :
    Places d args (contents d args).words (contents d args).faults := by
  cases d with
  | data => exact places_numbers args
  | string => exact places_string args
  | mat => exact places_matrix args
  | entry => cases hd
  | external => cases hd

/-! ## Mended items -/

/-- An item, or 0 in its place where it is no literal. -/
inductive Mends : Text → Text → Prop
  | kept {item} : Mends item item
  | zero {item} : ¬ Numeral.IsLiteral item → Mends item (Text.of "0")

instance decidableMends (item item' : Text) : Decidable (Mends item item') :=
  decidable_of_iff (item' = item ∨ ¬ Numeral.IsLiteral item ∧ item' = Text.of "0") <| by
    constructor
    · rintro (rfl | ⟨hno, rfl⟩)
      · exact .kept
      · exact .zero hno
    · rintro (_ | hno)
      · exact Or.inl rfl
      · exact Or.inr ⟨hno, rfl⟩

/-- The same arguments with 0 for items that are no literals. -/
inductive Mended : Directive → Text → Text → Prop
  | numbers {t t' : Text} : List.Forall₂ Mends t.arguments t'.arguments → Mended .data t t'
  | matrix {t t' rows columns rest rest' : Text} : IsHeader t rows columns rest →
      IsHeader t' rows columns rest' → List.Forall₂ Mends rest.trim.arguments rest'.trim.arguments →
      Mended .mat t t'

/-- The word that an item is stored as. -/
def wordOf (item : Text) : Word :=
  ((Numeral.read16 item).toOption.map .ofInt).getD 0

theorem wordOf_of_not_isLiteral {item : Text} (h : ¬ Numeral.IsLiteral item) : wordOf item = 0 := by
  cases hr : Numeral.read16 item with
  | ok n => exact absurd ⟨n, Numeral.read16_eq_ok.mp hr⟩ h
  | error e => simp [wordOf, hr, Except.toOption]

theorem Mends.wordOf_eq {item item' : Text} (h : Mends item item') : wordOf item' = wordOf item := by
  cases h with
  | kept => rfl
  | zero hno =>
      rw [wordOf_of_not_isLiteral hno]
      decide

theorem map_wordOf_of_mends {items items' : List Text} (h : List.Forall₂ Mends items items') :
    items'.map wordOf = items.map wordOf := by
  induction h with
  | nil => rfl
  | cons hitem _ ih => rw [List.map_cons, hitem.wordOf_eq, ih, List.map_cons]

theorem literal_word (t : Token) : t.literal.toOption.getD 0 = wordOf t.value := by
  unfold Token.literal wordOf
  by_cases he : t.value = []
  · rw [he]
    rfl
  · rw [if_neg (by simpa using he)]
    cases Numeral.read16 t.value with
    | ok n => rfl
    | error e => cases e <;> rfl

theorem words_literals (items : List Token) : (literals items).words = (items.map (·.value)).map wordOf := by
  simp [literals, literal_word]

/-- One word for each number of a list. -/
theorem words_numbers (args : Token) : (numbers args).words = args.value.arguments.map wordOf := by
  rw [← Text.map_value_arguments, numbers]
  by_cases he : args.value = []
  · simp [he, fault]
  · rw [if_neg (by simpa using he), if_neg (by simpa using he), words_literals]

/-- One word for each cell of a matrix. -/
theorem words_matrix_of_sized {args : Token} {rest : Text} {count : Nat} (h : Sized args rest count) :
    (matrix args).words = (rest.trim.arguments.map wordOf).take count ++
      List.replicate (count - rest.trim.arguments.length) 0 := by
  have hvalues : (matrixItems args rest).map (·.value) = rest.trim.arguments := by
    rw [← Token.value_piece args (args.value.length - rest.length) rest, ← Text.map_value_arguments]
    rfl
  rw [matrix_of_sized h, ← hvalues, List.length_map]
  simp only [cells, words_literals, List.map_take]

theorem words_matrix_of_not_sized {args : Token} (h : ∀ rest count, ¬ Sized args rest count) :
    (matrix args).words = [] := by
  have hplaces := places_matrix args
  generalize (matrix args).words = words at hplaces ⊢
  generalize (matrix args).faults = faults at hplaces
  cases hplaces with
  | matrix hsized => exact absurd hsized (h _ _)
  | surplus hsized => exact absurd hsized (h _ _)
  | noHeader => rfl
  | noDimensions => rfl
  | manyCells => rfl

theorem Sized.of_header {args args' : Token} {rows columns rest rest' rest₀ : Text} {count : Nat}
    (h : Sized args rest₀ count) (hh : IsHeader args.value rows columns rest)
    (hh' : IsHeader args'.value rows columns rest') : rest₀ = rest ∧ Sized args' rest' count := by
  obtain ⟨rows₀, columns₀, r, c, hh₀, hr, hc, hcount, hs⟩ := h
  have hsame := (matrixHeader?_eq_some.mpr hh₀).symm.trans (matrixHeader?_eq_some.mpr hh)
  simp only [Option.some.injEq, Prod.mk.injEq] at hsame
  obtain ⟨rfl, rfl, rfl⟩ := hsame
  exact ⟨rfl, rows₀, columns₀, r, c, hh', hr, hc, hcount, hs⟩

theorem Mended.words_eq {d : Directive} {args args' : Token} (h : Mended d args.value args'.value) :
    (contents d args').words = (contents d args).words := by
  generalize ht : args.value = t at h
  generalize ht' : args'.value = t' at h
  cases h with
  | numbers hitems =>
      simp only [contents, words_numbers, ht, ht']
      exact map_wordOf_of_mends hitems
  | matrix hh hh' hitems =>
      rw [← ht] at hh
      rw [← ht'] at hh'
      simp only [contents]
      by_cases hs : ∃ rest count, Sized args rest count
      · obtain ⟨rest, count, hsized⟩ := hs
        obtain ⟨rfl, hsized'⟩ := hsized.of_header hh hh'
        rw [words_matrix_of_sized hsized, words_matrix_of_sized hsized', map_wordOf_of_mends hitems,
          hitems.length_eq]
      · have hno : ∀ rest count, ¬ Sized args rest count := fun rest count h => hs ⟨rest, count, h⟩
        have hno' : ∀ rest count, ¬ Sized args' rest count := fun rest count h =>
          hno _ count (h.of_header hh' hh).2
        rw [words_matrix_of_not_sized hno, words_matrix_of_not_sized hno']

end TwoPass.Data

namespace TwoPass.Layout

open Data

theorem place_of_isData (l : Layout) {s : Statement} {d : Directive} (ha : s.action = .directive d)
    (hd : d.isData = true) :
    l.place s = { l with
      data := l.data ++ (contents d s.args).words, errors := l.errors ++ (contents d s.args).faults } := by
  unfold place
  rw [ha]
  cases d with
  | data => rfl
  | string => rfl
  | mat => rfl
  | entry => cases hd
  | external => cases hd

/-- A data directive only adds words and faults, as many words as the shape of its arguments asks for, and
a 0 where an item is at fault. -/
theorem place_recovers (l : Layout) (s : Statement) (d : Directive) (ha : s.action = .directive d)
    (hd : d.isData = true) :
    ∃ (words : List Word) (faults : List Diagnostic),
      l.place s = { l with data := l.data ++ words, errors := l.errors ++ faults } ∧
      Places d s.args words faults ∧
      (d = .data → words.length = s.args.value.arguments.length) ∧
      (d = .mat → ∀ rest count, Sized s.args rest count → words.length = count) ∧
      ∀ args', Mended d s.args.value args'.value →
        (l.place { s with args := args' }).data = (l.place s).data := by
  refine ⟨_, _, place_of_isData l ha hd, places_contents hd s.args, ?_, ?_, ?_⟩
  · rintro rfl
    rw [contents, words_numbers, List.length_map]
  · rintro rfl rest count hs
    rw [contents, words_matrix_of_sized hs, List.length_append, List.length_take, List.length_map,
      List.length_replicate]
    omega
  · intro args' hm
    have ha' : ({ s with args := args' } : Statement).action = .directive d := ha
    rw [place_of_isData l ha hd, place_of_isData l ha' hd, hm.words_eq]

/-- A matrix with two items that are no literals, and one item too many. -/
def brokenMatrix : Statement :=
  { line := 3, label := none, action := .directive .mat, keyword := ⟨⟨3, 1, 4⟩, Text.of ".mat"⟩
    args := ⟨⟨3, 6, 22⟩, Text.of "[2] [2] 7,x,40000,-1,y"⟩ }

/-- The same matrix with its items mended. -/
def mendedMatrix : Statement :=
  { brokenMatrix with args := ⟨⟨3, 6, 20⟩, Text.of "[2] [2]7, 0,0 ,-1, 0"⟩ }

theorem brokenMatrix_recovers :
    (place { data := #[5] } brokenMatrix).data = #[5, 7, 0, 0, 0xFFFF] ∧
    (place { data := #[5] } brokenMatrix).errors =
      #[.invalidLiteral ⟨3, 16, 1⟩,
        .oversizedLiteral ⟨3, 18, 5⟩ (Text.of "[-32768, 32767]") (Text.of "40000"),
        .excessInitializer ⟨3, 27, 1⟩ 4 5] ∧
    (place { data := #[5] } mendedMatrix).data = (place { data := #[5] } brokenMatrix).data := by
  have hbroken : IsHeader brokenMatrix.args.value (Text.of "2") (Text.of "2") (Text.of " 7,x,40000,-1,y") :=
    matrixHeader?_eq_some.mp (by decide +kernel)
  have hmended : IsHeader mendedMatrix.args.value (Text.of "2") (Text.of "2") (Text.of "7, 0,0 ,-1, 0") :=
    matrixHeader?_eq_some.mp (by decide +kernel)
  obtain ⟨-, -, -, -, -, -, hsame⟩ := place_recovers { data := #[5] } brokenMatrix .mat rfl rfl
  exact ⟨by decide +kernel, by decide +kernel, hsame _ (.matrix hbroken hmended (by decide +kernel))⟩

end TwoPass.Layout
