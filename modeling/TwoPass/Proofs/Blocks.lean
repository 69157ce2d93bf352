import TwoPass.Macro.Library
import TwoPass.Proofs.OperandGrammar
import TwoPass.Proofs.WhiteSpace

/-!
Macro blocks. A source is divided into blocks and the lines outside of them, and what reading and
expanding it give is told by the division alone.
-/
namespace TwoPass

/-! ## Delimiters -/

namespace Text

/-- A word of capitals written with each letter a capital or a small one. -/
def EitherCase (word t : Text) : Prop :=
  List.Forall₂ (fun letter b => b = letter ∨ b = letter + 32) word t

/-- Only `S` and `K` can be written in other ways. -/
theorem foldsTo_iff {word : Text} (hs : 'S'.toUInt8 ∉ word) (hk : 'K'.toUInt8 ∉ word) {t : Text} :
    t.foldsTo word = true ↔ EitherCase word t := by
  unfold foldsTo EitherCase
  induction word generalizing t with
  | nil => simp [spells]
  | cons letter word ih =>
      obtain ⟨hs, hs'⟩ := not_or.mp (fun hm => hs (List.mem_cons.mpr hm))
      obtain ⟨hk, hk'⟩ := not_or.mp (fun hm => hk (List.mem_cons.mpr hm))
      have hways : foldings letter = [[letter], [letter + 32]] := by
        rw [foldings, if_neg (Ne.symm hs), if_neg (Ne.symm hk)]
      rw [spells, hways]
      cases t with
      | nil => simp
      | cons b t => simp [ih hs' hk', or_and_right, eq_comm (a := b)]

theorem EitherCase.forall_mem {P : UInt8 → Prop} {word t : Text} (h : EitherCase word t)
    (hw : ∀ letter ∈ word, P letter ∧ P (letter + 32)) : ∀ b ∈ t, P b := by
  induction h with
  | nil => exact fun b hb => absurd hb List.not_mem_nil
  | @cons letter b word t hb _ ih =>
      obtain ⟨hletter, hrest⟩ := List.forall_mem_cons.mp hw
      refine List.forall_mem_cons.mpr ⟨?_, ih hrest⟩
      rcases hb with rfl | rfl
      · exact hletter.1
      · exact hletter.2

theorem word_append {blanks word rest : Text} (hb : ∀ b ∈ blanks, isBlank b = true) (hne : word ≠ [])
    (hw : ∀ b ∈ word, isBlank b = false) (hr : rest.StartsBlank) :
    (blanks ++ (word ++ rest)).word = (word, rest) := by
  have hstart : (blanks ++ (word ++ rest)).dropWhile isBlank = word ++ rest := by
    rw [List.dropWhile_append_of_pos hb]
    obtain ⟨b, s, rfl⟩ := List.exists_cons_of_ne_nil hne
    exact List.dropWhile_cons_of_neg (by simp [hw b List.mem_cons_self])
  have hword : ∀ b ∈ word, (!isBlank b) = true := fun b hm => by rw [hw b hm]; rfl
  rw [Text.word, hstart, List.takeWhile_append_of_pos hword, List.dropWhile_append_of_pos hword]
  cases rest with
  | nil => simp
  | cons b rest => simp [hr b rfl]

end Text

namespace Macro

/-- A block is opened by `MACRO`, in letters of either case, as the first word of a line. -/
theorem opensBlock_iff {line : Text} :
    opensBlock line = true ↔ ∃ blanks word rest, line = blanks ++ (word ++ rest) ∧
      (∀ b ∈ blanks, b = ' '.toUInt8 ∨ b = '\t'.toUInt8) ∧ Text.EitherCase (Text.of "MACRO") word ∧
      ∀ b ∈ rest.head?, b = ' '.toUInt8 ∨ b = '\t'.toUInt8 := by
  have hblank : ∀ {b : UInt8}, Text.isBlank b = true ↔ b = ' '.toUInt8 ∨ b = '\t'.toUInt8 := by
    simp [Text.isBlank]
  rw [opensBlock, Name.blockOpening, Text.foldsTo_iff (by decide) (by decide)]
  simp only [← hblank]
  constructor
  · intro h
    obtain ⟨blanks, hb, hsplit, hrest⟩ := line.word_spec
    exact ⟨blanks, _, _, hsplit, hb, h, hrest⟩
  · rintro ⟨blanks, word, rest, rfl, hb, h, hr⟩
    have hne : word ≠ [] := by
      rintro rfl
      cases h
    have hletters : ∀ letter ∈ Text.of "MACRO", Text.isBlank letter = false ∧ Text.isBlank (letter + 32) = false := by
      decide +kernel
    rwa [Text.word_append hb hne (h.forall_mem hletters) hr]

/-- A block is closed by a line with `ENDM`, in letters of either case, and nothing else but white space. -/
theorem closesBlock_iff {line : Text} :
    closesBlock line = true ↔ ∃ left word right, line = left ++ word ++ right ∧
      Text.IsWhite left ∧ Text.EitherCase (Text.of "ENDM") word ∧ Text.IsWhite right := by
  rw [closesBlock, Name.blockClosing, Text.foldsTo_iff (by decide) (by decide)]
  have hfirm : ∀ {word}, Text.EitherCase (Text.of "ENDM") word → Text.Firm word := by
    intro word h
    have hletters : ∀ letter ∈ Text.of "ENDM", Text.isInk letter = true ∧ Text.isInk (letter + 32) = true := by
      decide +kernel
    refine Text.firm_of_ink ?_ (h.forall_mem hletters)
    rintro rfl
    cases h
  constructor
  · intro h
    obtain ⟨left, right, hl, hr, hsplit⟩ := (Text.trim_eq_iff (hfirm h)).mp rfl
    exact ⟨left, _, right, hsplit, hl, h, hr⟩
  · rintro ⟨left, word, right, hsplit, hl, h, hr⟩
    rwa [(Text.trim_eq_iff (hfirm h)).mpr ⟨left, right, hl, hr, hsplit⟩]

/-! ## Division -/

/-- The line that opens a block, its body, and the line that closes it unless the source ends first. -/
structure Block where
  header : Line
  body : List Line
  closing : Option Line

inductive Segment where
  | plain (line : Line)
  | block (b : Block)

/-- A block starts at a line outside of the blocks before it, and ends at the first line that closes it. -/
inductive Divided : List Line → List Segment → Prop
  | nil : Divided [] []
  | plain {line lines segments} : opensBlock line.text = false → Divided lines segments →
      Divided (line :: lines) (.plain line :: segments)
  | closed {header body closing lines segments} : opensBlock header.text = true →
      (∀ line ∈ body, closesBlock line.text = false) → closesBlock closing.text = true →
      Divided lines segments →
      Divided (header :: (body ++ closing :: lines)) (.block ⟨header, body, some closing⟩ :: segments)
  | unclosed {header body} : opensBlock header.text = true →
      (∀ line ∈ body, closesBlock line.text = false) →
      Divided (header :: body) [.block ⟨header, body, none⟩]

def Segment.line? : Segment → Option Line
  | .plain line => some line
  | .block _ => none

def Segment.block? : Segment → Option Block
  | .plain _ => none
  | .block b => some b

/-- The lines outside of all blocks. -/
def outside (segments : List Segment) : List Line :=
  segments.filterMap Segment.line?

def blocks (segments : List Segment) : List Block :=
  segments.filterMap Segment.block?

theorem exists_divided (lines : List Line) : ∃ segments, Divided lines segments := by
  induction hn : lines.length using Nat.strong_induction_on generalizing lines with
  | _ n ih =>
      cases lines with
      | nil => exact ⟨[], .nil⟩
      | cons line lines =>
          rw [List.length_cons] at hn
          cases ho : opensBlock line.text with
          | false =>
              obtain ⟨segments, h⟩ := ih lines.length (by omega) lines rfl
              exact ⟨_, .plain ho h⟩
          | true =>
              cases hd : lines.dropWhile (fun l => !closesBlock l.text) with
              | nil =>
                  refine ⟨_, .unclosed ho fun l hl => ?_⟩
                  simpa using List.dropWhile_eq_nil_iff.mp hd l hl
              | cons closing rest =>
                  obtain ⟨body, rfl, hbody, hclosing⟩ := Text.dropWhile_eq_cons.mp hd
                  rw [List.length_append, List.length_cons] at hn
                  obtain ⟨segments, h⟩ := ih rest.length (by omega) rest rfl
                  exact ⟨_, .closed ho (by simpa using hbody) (by simpa using hclosing) h⟩

section
variable {body body' rest rest' : List Line} {closing closing' : Line}

theorem closing_mem (he : body ++ closing :: rest = body') (hc : closesBlock closing.text = true) :
    ¬ ∀ line ∈ body', closesBlock line.text = false := by
  intro hb
  have hmem : closing ∈ body' := he ▸ List.mem_append_right body List.mem_cons_self
  rw [hb closing hmem] at hc
  cases hc

/-- A block ends in one place only. -/
theorem body_unique (he : body ++ closing :: rest = body' ++ closing' :: rest')
    (hb : ∀ line ∈ body, closesBlock line.text = false) (hc : closesBlock closing.text = true)
    (hb' : ∀ line ∈ body', closesBlock line.text = false) (hc' : closesBlock closing'.text = true) :
    body = body' ∧ closing = closing' ∧ rest = rest' := by
  have hcut : ∀ {body : List Line} {closing : Line} (rest : List Line),
      (∀ line ∈ body, closesBlock line.text = false) → closesBlock closing.text = true →
      (body ++ closing :: rest).takeWhile (fun l => !closesBlock l.text) = body ∧
        (body ++ closing :: rest).dropWhile (fun l => !closesBlock l.text) = closing :: rest := by
    intro body closing rest hb hc
    exact Text.cut_iff.mpr ⟨rfl, fun line hl => by rw [hb line hl]; rfl, by rw [hc]; rfl⟩
  obtain ⟨htake, hdrop⟩ := hcut rest hb hc
  obtain ⟨htake', hdrop'⟩ := hcut rest' hb' hc'
  rw [he, htake'] at htake
  rw [he, hdrop'] at hdrop
  cases hdrop
  exact ⟨htake.symm, rfl, rfl⟩

end

theorem Divided.unique {lines segments segments'} (h : Divided lines segments) (h' : Divided lines segments') :
    segments' = segments := by
  induction h generalizing segments' with
  | nil => cases h'; rfl
  | plain ho h ih =>
      cases h' with
      | plain _ h' => rw [ih h']
      | closed ho' => rw [ho] at ho'; cases ho'
      | unclosed ho' => rw [ho] at ho'; cases ho'
  | @closed header body closing lines segments ho hb hc h ih =>
      generalize hl : header :: (body ++ closing :: lines) = whole at h'
      cases h' with
      | nil => cases hl
      | plain ho' =>
          cases hl
          rw [ho] at ho'
          cases ho'
      | closed ho' hb' hc' h' =>
          obtain ⟨rfl, he⟩ := List.cons.inj hl
          obtain ⟨rfl, rfl, rfl⟩ := body_unique he hb hc hb' hc'
          rw [ih h']
      | unclosed ho' hb' => exact absurd hb' (closing_mem (List.cons.inj hl).2 hc)
  | @unclosed header body ho hb =>
      generalize hl : header :: body = whole at h'
      cases h' with
      | nil => cases hl
      | plain ho' =>
          cases hl
          rw [ho] at ho'
          cases ho'
      | closed ho' hb' hc' h' => exact absurd hb (closing_mem (List.cons.inj hl).2.symm hc')
      | unclosed ho' hb' => cases hl; rfl

theorem Divided.mem_of_outside {lines segments} (h : Divided lines segments) :
    ∀ line ∈ outside segments, line ∈ lines := by
  induction h with
  | nil => exact fun line hl => hl
  | plain ho h ih =>
      intro line hl
      rcases List.mem_cons.mp hl with rfl | hl
      · exact List.mem_cons_self
      · exact List.mem_cons_of_mem _ (ih line hl)
  | closed ho hb hc h ih =>
      intro line hl
      exact List.mem_cons_of_mem _ (List.mem_append_right _ (List.mem_cons_of_mem _ (ih line hl)))
  | unclosed ho hb => exact fun line hl => absurd hl List.not_mem_nil

theorem Divided.header_mem {lines segments} (h : Divided lines segments) :
    ∀ b ∈ blocks segments, b.header ∈ lines ∧ opensBlock b.header.text = true := by
  induction h with
  | nil => exact fun b hb => absurd hb List.not_mem_nil
  | plain ho h ih => exact fun b hb => ⟨List.mem_cons_of_mem _ (ih b hb).1, (ih b hb).2⟩
  | closed ho hb hc h ih =>
      intro b hm
      rcases List.mem_cons.mp hm with rfl | hm
      · exact ⟨List.mem_cons_self, ho⟩
      · obtain ⟨hl, ho⟩ := ih b hm
        exact ⟨List.mem_cons_of_mem _ (List.mem_append_right _ (List.mem_cons_of_mem _ hl)), ho⟩
  | unclosed ho hb =>
      intro b hm
      rw [List.mem_singleton.mp hm]
      exact ⟨List.mem_cons_self, ho⟩

/-! ## Headers -/

theorem listItems_eq (t : Text) : listItems t = t.trim.arguments := by
  unfold listItems Text.arguments
  split
  · rename_i h
    rw [if_pos h]
  · rename_i h
    rw [if_neg h]
    rfl

namespace Block

def name (b : Block) : Text :=
  b.header.text.word.2.word.1

def params (b : Block) : List Text :=
  b.header.text.word.2.word.2.trim.arguments

/-- A header gives a name of its own, and a few parameters that can be told apart. -/
structure Sound (b : Block) : Prop where
  isValid : Name.isValid b.name = true
  notReserved : Name.isReserved b.name = false
  isValid_params : ∀ p ∈ b.params, Name.isValid p = true
  nodup_params : b.params.Nodup
  few_params : b.params.length ≤ 8

/-- The definition that the header gives, with no body yet. -/
def opening (b : Block) : Definition :=
  { name := b.name, params := b.params, position := headerSpan b.header }

def definition (b : Block) : Definition :=
  { b.opening with body := (b.body.map (·.text)).toArray }

end Block

theorem addParam_eq_ok {params params' : List Text} {p : Text} :
    addParam params p = .ok params' ↔ Name.isValid p = true ∧ p ∉ params ∧ params' = params ++ [p] := by
  unfold addParam
  cases Name.isValid p with
  | false => simp
  | true => by_cases h : p ∈ params <;> simp [h, eq_comm]

theorem foldlM_addParam {items params params' : List Text} (hn : params.Nodup) :
    items.foldlM addParam params = .ok params' ↔
      (∀ p ∈ items, Name.isValid p = true) ∧ (params ++ items).Nodup ∧ params' = params ++ items := by
  induction items generalizing params with
  | nil => simp [pure, Except.pure, hn, eq_comm (a := params)]
  | cons p items ih =>
      rw [List.foldlM_cons, bind_eq_ok]
      simp only [addParam_eq_ok]
      constructor
      · rintro ⟨_, ⟨hv, hp, rfl⟩, hrest⟩
        have hn' : (params ++ [p]).Nodup := by simpa [List.nodup_append', hn] using hp
        obtain ⟨hitems, hnodup, rfl⟩ := (ih hn').mp hrest
        exact ⟨List.forall_mem_cons.mpr ⟨hv, hitems⟩, by simpa using hnodup, by simp⟩
      · rintro ⟨hitems, hnodup, rfl⟩
        obtain ⟨hv, hitems⟩ := List.forall_mem_cons.mp hitems
        rw [List.append_cons] at hnodup
        have hn' := (List.nodup_append'.mp hnodup).1
        have hp : p ∉ params := fun hm => (List.nodup_append'.mp hn').2.2 hm (List.mem_singleton_self p)
        exact ⟨_, ⟨hv, hp, rfl⟩, (ih hn').mpr ⟨hitems, hnodup, by simp⟩⟩

theorem readParams_eq_ok {t : Text} {params : List Text} :
    readParams t = .ok params ↔ (∀ p ∈ t.trim.arguments, Name.isValid p = true) ∧
      t.trim.arguments.Nodup ∧ t.trim.arguments.length ≤ 8 ∧ params = t.trim.arguments := by
  unfold readParams
  rw [bind_eq_ok, listItems_eq]
  simp only [foldlM_addParam List.nodup_nil, List.nil_append]
  constructor
  · rintro ⟨_, ⟨hv, hn, rfl⟩, h⟩
    split at h
    · rename_i hl
      cases h
      exact ⟨hv, hn, hl, rfl⟩
    · cases h
  · rintro ⟨hv, hn, hl, rfl⟩
    exact ⟨_, ⟨hv, hn, rfl⟩, if_pos hl⟩

theorem checkName_eq_ok {taken : Text → Bool} {name : Text} {u : Unit} :
    checkName taken name = .ok u ↔
      Name.isValid name = true ∧ Name.isReserved name = false ∧ taken name = false := by
  unfold checkName
  cases name with
  | nil => simp [Name.isValid]
  | cons b t =>
      cases Name.isValid (b :: t) <;> cases Name.isReserved (b :: t) <;> cases taken (b :: t) <;> simp

theorem readHeader_eq_ok {taken : Text → Bool} {b : Block} {r : Text × List Text} :
    readHeader taken b.header.text = .ok r ↔ b.Sound ∧ taken b.name = false ∧ r = (b.name, b.params) := by
  have hread : readHeader taken b.header.text =
      (checkName taken b.name >>= fun _ => readParams b.header.text.word.2.word.2 >>= fun ps => .ok (b.name, ps)) := rfl
  rw [hread, bind_eq_ok]
  simp only [bind_eq_ok, checkName_eq_ok, readParams_eq_ok]
  constructor
  · rintro ⟨_, ⟨hv, hr, ht⟩, _, ⟨hp, hn, hl, rfl⟩, h⟩
    cases h
    exact ⟨⟨hv, hr, hp, hn, hl⟩, ht, rfl⟩
  · rintro ⟨⟨hv, hr, hp, hn, hl⟩, ht, rfl⟩
    exact ⟨(), ⟨hv, hr, ht⟩, _, ⟨hp, hn, hl, rfl⟩, rfl⟩

namespace Library

theorem openBlock_eq_ok {lib : Library} {b : Block} {d : Definition} :
    lib.openBlock b.header = .ok d ↔ (lib.definitions.length : Int) < lib.limit ∧ b.Sound ∧
      lib.find? b.name = none ∧ d = b.opening := by
  unfold openBlock
  dsimp only
  by_cases hroom : lib.limit ≤ lib.definitions.length
  · simp [hroom]
  · rw [if_neg hroom]
    have hlt : (lib.definitions.length : Int) < lib.limit := by omega
    cases hr : readHeader (fun name => (lib.find? name).isSome) b.header.text with
    | ok r =>
        obtain ⟨hs, ht, rfl⟩ := readHeader_eq_ok.mp hr
        simp only [Option.isSome_eq_false_iff, Option.isNone_iff_eq_none] at ht
        simp [hlt, hs, ht, Block.opening, eq_comm]
    | error fault =>
        have hno : ¬ (b.Sound ∧ lib.find? b.name = none) := by
          rintro ⟨hs, ht⟩
          have htaken : (lib.find? b.name).isSome = false := by rw [ht]; rfl
          have hok : readHeader (fun name => (lib.find? name).isSome) b.header.text = .ok (b.name, b.params) :=
            readHeader_eq_ok.mpr ⟨hs, htaken, rfl⟩
          rw [hr] at hok
          cases hok
        simp only [reduceCtorEq, false_iff]
        rintro ⟨-, hs, ht, -⟩
        exact hno ⟨hs, ht⟩

theorem openBlock_fault {lib : Library} {line : Line} {e : Diagnostic} (h : lib.openBlock line = .error e) :
    e.kind = .structural ∧ e.position? = some (headerSpan line) := by
  unfold openBlock at h
  dsimp only at h
  split at h
  · cases h; exact ⟨rfl, rfl⟩
  · split at h <;> cases h
    exact ⟨rfl, rfl⟩

/-! ## Reading -/

theorem scanFrom_body (lib : Library) (kept : Array Line) (d : Definition) {body : List Line}
    (h : ∀ line ∈ body, closesBlock line.text = false) (rest : List Line) :
    lib.scanFrom kept (some d) (body ++ rest) =
      lib.scanFrom kept (some { d with body := d.body ++ (body.map (·.text)).toArray }) rest := by
  induction body generalizing d with
  | nil => simp
  | cons line body ih =>
      obtain ⟨hline, hbody⟩ := List.forall_mem_cons.mp h
      rw [List.cons_append, scanFrom, hline]
      simp only [Bool.false_eq_true, ↓reduceIte, ih _ hbody]
      congr 3
      simp

section
variable {lib : Library} {header : Line} (ho : opensBlock header.text = true)
include ho

theorem scanFrom_header {d : Definition} (hd : lib.openBlock header = .ok d) (kept : Array Line) (rest : List Line) :
    lib.scanFrom kept none (header :: rest) = lib.scanFrom kept (some d) rest := by
  simp only [scanFrom, ho, ↓reduceIte, hd]

theorem scanFrom_header_fault {e : Diagnostic} (he : lib.openBlock header = .error e) (kept : Array Line)
    (rest : List Line) : lib.scanFrom kept none (header :: rest) = (lib, .error e) := by
  simp only [scanFrom, ho, ↓reduceIte, he]

end

/-- Blocks that can be added to a library one after the other. -/
structure Admits (lib : Library) (bs : List Block) : Prop where
  room : (lib.definitions.length + bs.length : Int) ≤ lib.limit
  closed : ∀ b ∈ bs, b.closing ≠ none
  sound : ∀ b ∈ bs, b.Sound
  free : ∀ b ∈ bs, lib.find? b.name = none
  distinct : (bs.map Block.name).Nodup

def addAll (lib : Library) (bs : List Block) : Library :=
  { lib with definitions := lib.definitions ++ bs.map Block.definition }

theorem find?_add {lib : Library} {d : Definition} {name : Text} :
    (lib.add d).find? name = none ↔ lib.find? name = none ∧ d.name ≠ name := by
  simp [find?, add]

theorem admits_cons {lib : Library} {b : Block} {bs : List Block} :
    lib.Admits (b :: bs) ↔ lib.openBlock b.header = .ok b.opening ∧ b.closing ≠ none ∧
      (lib.add b.definition).Admits bs := by
  rw [openBlock_eq_ok]
  constructor
  · rintro ⟨hroom, hclosed, hsound, hfree, hdistinct⟩
    obtain ⟨hc, hclosed⟩ := List.forall_mem_cons.mp hclosed
    obtain ⟨hs, hsound⟩ := List.forall_mem_cons.mp hsound
    obtain ⟨hf, hfree⟩ := List.forall_mem_cons.mp hfree
    obtain ⟨hd, hdistinct⟩ := List.nodup_cons.mp hdistinct
    rw [List.length_cons] at hroom
    refine ⟨⟨by omega, hs, hf, rfl⟩, hc, ?_, hclosed, hsound, ?_, hdistinct⟩
    · simp only [add, List.length_append, List.length_singleton]
      omega
    · intro b' hb'
      exact find?_add.mpr ⟨hfree b' hb', fun he => hd (List.mem_map.mpr ⟨b', hb', he.symm⟩)⟩
  · rintro ⟨⟨-, hs, hf, -⟩, hc, hroom, hclosed, hsound, hfree, hdistinct⟩
    simp only [add, List.length_append, List.length_singleton] at hroom
    refine ⟨?_, List.forall_mem_cons.mpr ⟨hc, hclosed⟩, List.forall_mem_cons.mpr ⟨hs, hsound⟩,
      List.forall_mem_cons.mpr ⟨hf, fun b' hb' => (find?_add.mp (hfree b' hb')).1⟩, ?_⟩
    · rw [List.length_cons]
      omega
    · refine List.nodup_cons.mpr ⟨fun hm => ?_, hdistinct⟩
      obtain ⟨b', hb', he⟩ := List.mem_map.mp hm
      exact (find?_add.mp (hfree b' hb')).2 he.symm

theorem admits_nil {lib : Library} : lib.Admits [] ↔ (lib.definitions.length : Int) ≤ lib.limit := by
  refine ⟨fun h => by simpa using h.room, fun h => ⟨by simpa using h, ?_, ?_, ?_, List.nodup_nil⟩⟩
  · exact fun b hb => absurd hb List.not_mem_nil
  · exact fun b hb => absurd hb List.not_mem_nil
  · exact fun b hb => absurd hb List.not_mem_nil

theorem Admits.of_append {lib : Library} {bs bs' : List Block} (h : lib.Admits (bs ++ bs')) : lib.Admits bs := by
  obtain ⟨hroom, hclosed, hsound, hfree, hdistinct⟩ := h
  rw [List.length_append] at hroom
  rw [List.map_append] at hdistinct
  exact ⟨by omega, (List.forall_mem_append.mp hclosed).1, (List.forall_mem_append.mp hsound).1,
    (List.forall_mem_append.mp hfree).1, (List.nodup_append'.mp hdistinct).1⟩

@[simp] theorem addAll_nil (lib : Library) : lib.addAll [] = lib := by
  simp [addAll]

theorem addAll_cons (lib : Library) (b : Block) (bs : List Block) :
    (lib.add b.definition).addAll bs = lib.addAll (b :: bs) := by
  simp [addAll, add]

end Library

/-- Reading a source either takes all blocks out of it, or ends at the header of the first block that the
library does not admit behind those before it. -/
theorem Divided.scanFrom {lines segments} (h : Divided lines segments) {lib : Library}
    (hroom : (lib.definitions.length : Int) ≤ lib.limit) (kept : Array Line) :
    lib.Admits (blocks segments) ∧
        lib.scanFrom kept none lines = (lib.addAll (blocks segments), .ok (kept.toList ++ outside segments)) ∨
      ∃ done b rest e, blocks segments = done ++ b :: rest ∧ lib.Admits done ∧ ¬ lib.Admits (done ++ [b]) ∧
        lib.scanFrom kept none lines = (lib.addAll done, .error e) ∧ e.kind = .structural ∧
          e.position? = some (headerSpan b.header) := by
  induction h generalizing lib kept with
  | nil =>
      refine Or.inl ⟨Library.admits_nil.mpr hroom, ?_⟩
      simp [Library.scanFrom, Library.addAll, outside, blocks]
  | @plain line lines segments ho h ih =>
      have hstep : lib.scanFrom kept none (line :: lines) = lib.scanFrom (kept.push line) none lines := by
        rw [Library.scanFrom, ho]
        rfl
      have hkept : (kept.push line).toList ++ outside segments = kept.toList ++ outside (.plain line :: segments) := by
        simp [outside, Segment.line?]
      have hblocks : blocks (.plain line :: segments) = blocks segments := rfl
      rw [hstep, hblocks, ← hkept]
      exact ih hroom (kept.push line)
  | @closed header body closing lines segments ho hb hc h ih =>
      let b : Block := ⟨header, body, some closing⟩
      have hblocks : blocks (.block b :: segments) = b :: blocks segments := rfl
      rw [hblocks]
      cases hd : lib.openBlock b.header with
      | error e =>
          obtain ⟨hkind, hplace⟩ := Library.openBlock_fault hd
          refine Or.inr ⟨[], b, _, e, rfl, Library.admits_nil.mpr hroom, fun ha => ?_, ?_, hkind, hplace⟩
          · rw [(Library.admits_cons.mp ha).1] at hd
            cases hd
          · rw [Library.addAll_nil]
            exact Library.scanFrom_header_fault ho hd kept _
      | ok d =>
          obtain ⟨hlt, -, -, rfl⟩ := Library.openBlock_eq_ok.mp hd
          have hstep : lib.scanFrom kept none (header :: (body ++ closing :: lines)) =
              (lib.add b.definition).scanFrom kept none lines := by
            rw [Library.scanFrom_header ho hd, Library.scanFrom_body lib kept _ hb, Library.scanFrom, hc]
            simp [Block.definition, Block.opening, b]
          have hroom' : ((lib.add b.definition).definitions.length : Int) ≤ (lib.add b.definition).limit := by
            simp only [Library.add, List.length_append, List.length_singleton]
            omega
          have hclosed : b.closing ≠ none := by rintro ⟨⟩
          rw [hstep]
          rcases ih hroom' kept with ⟨ha, hs⟩ | ⟨done, b', rest, e, hsplit, ha, hno, hs, hfault⟩
          · refine Or.inl ⟨Library.admits_cons.mpr ⟨hd, hclosed, ha⟩, ?_⟩
            have houtside : outside (.block b :: segments) = outside segments := rfl
            rw [hs, houtside, Library.addAll_cons]
          · refine Or.inr ⟨b :: done, b', rest, e, by rw [hsplit, List.cons_append],
              Library.admits_cons.mpr ⟨hd, hclosed, ha⟩, fun ha' => hno (Library.admits_cons.mp ha').2.2, ?_, hfault⟩
            rw [hs, Library.addAll_cons]
  | @unclosed header body ho hb =>
      let b : Block := ⟨header, body, none⟩
      have hno : ¬ lib.Admits ([] ++ [b]) := fun ha => (Library.admits_cons.mp ha).2.1 rfl
      have hstart : ∀ e, lib.scanFrom kept none (header :: body) = (lib, .error e) →
          lib.scanFrom kept none (header :: body) = (lib.addAll [], .error e) := by
        intro e he
        rw [he, Library.addAll_nil]
      cases hd : lib.openBlock header with
      | error e =>
          have hscan := Library.scanFrom_header_fault ho hd kept body
          exact Or.inr ⟨[], b, [], e, rfl, Library.admits_nil.mpr hroom, hno, hstart e hscan,
            Library.openBlock_fault hd⟩
      | ok d =>
          obtain ⟨-, -, -, hd'⟩ := (Library.openBlock_eq_ok (b := b)).mp hd
          have hscan := Library.scanFrom_body lib kept d hb []
          rw [List.append_nil] at hscan
          refine Or.inr ⟨[], b, [], _, rfl, Library.admits_nil.mpr hroom, hno,
            hstart _ ((Library.scanFrom_header ho hd kept body).trans hscan), rfl, ?_⟩
          rw [hd']
          rfl

/-! ## Expanding -/

/-- What a line outside of all blocks becomes: a call, wherever it stands, the body of its macro with the
placeholders filled, and any other line itself. -/
inductive Becomes (bs : List Block) (line : Line) : List Line → Prop
  | same : (∀ b ∈ bs, b.name ≠ line.text.word.1) → Becomes bs line [line]
  | call {b} : b ∈ bs → b.name = line.text.word.1 →
      Becomes bs line (b.body.map fun l =>
        ⟨line.number, substitute (bind b.params line.text.word.2.trim.arguments) l.text⟩)

/-- What the blocks of a source have to be like for the source to be expanded. -/
structure Readable (limit : Int) (bs : List Block) : Prop where
  few : (bs.length : Int) ≤ if limit ≤ 0 then 64 else limit
  closed : ∀ b ∈ bs, b.closing ≠ none
  sound : ∀ b ∈ bs, b.Sound
  distinct : (bs.map Block.name).Nodup

theorem Library.room_empty (limit : Int) : ((empty limit).definitions.length : Int) ≤ (empty limit).limit := by
  simp only [empty, defaultLimit, List.length_nil]
  split <;> omega

theorem Library.admits_empty {limit : Int} {bs : List Block} : (empty limit).Admits bs ↔ Readable limit bs := by
  have hroom : ((empty limit).definitions.length + bs.length : Int) = bs.length := by simp [empty]
  constructor
  · rintro ⟨hr, hc, hs, -, hd⟩
    exact ⟨hroom ▸ hr, hc, hs, hd⟩
  · rintro ⟨hr, hc, hs, hd⟩
    exact ⟨hroom.symm ▸ hr, hc, hs, fun b _ => rfl, hd⟩

theorem Library.becomes_expandLine {lib : Library} {bs : List Block} (h : lib.definitions = bs.map Block.definition)
    (line : Line) : Becomes bs line (lib.expandLine line) := by
  unfold expandLine
  dsimp only
  cases hf : lib.find? line.text.word.1 with
  | none =>
      refine .same fun b hb he => ?_
      rw [find?, h, List.find?_map, Option.map_eq_none_iff, List.find?_eq_none] at hf
      exact hf b hb (decide_eq_true he)
  | some d =>
      rw [find?, h, List.find?_map, Option.map_eq_some_iff] at hf
      obtain ⟨b, hb, rfl⟩ := hf
      have hname := List.find?_some hb
      have hcall := Becomes.call (List.mem_of_find?_eq_some hb) (of_decide_eq_true hname)
      simpa [Block.definition, Block.opening, listItems_eq, Function.comp_def] using hcall

/-- A source whose blocks can be read is expanded line by line. Any other has a fault at a header. -/
theorem Divided.expandAll {lines segments} (h : Divided lines segments) (limit : Int) :
    Readable limit (blocks segments) ∧
        expandAll lines limit =
          .ok (((Library.empty limit).addAll (blocks segments)).expand (outside segments)) ∨
      ¬ Readable limit (blocks segments) ∧ ∃ e, ∃ b ∈ blocks segments,
        expandAll lines limit = .error e ∧ e.kind = .structural ∧
          e.position? = some (headerSpan b.header) := by
  rw [← Library.admits_empty, Macro.expandAll, Library.scan]
  rcases h.scanFrom (Library.room_empty limit) #[] with ⟨ha, hs⟩ | ⟨done, b, rest, e, hsplit, -, hno, hs, hkind, hplace⟩
  · rw [hs]
    exact Or.inl ⟨ha, rfl⟩
  · rw [hs, hsplit]
    refine Or.inr ⟨fun ha => hno ?_, e, b, List.mem_append_right done List.mem_cons_self, rfl, hkind, hplace⟩
    rw [List.append_cons] at ha
    exact ha.of_append

/-- A source is divided into blocks and other lines in one way. It is expanded if its blocks can be read,
and then each line outside of blocks has been replaced by what it becomes. -/
theorem expandAll_divided (lines : List Line) (limit : Int) :
    ∃ segments, Divided lines segments ∧ (∀ other, Divided lines other → other = segments) ∧
      ((∃ out, expandAll lines limit = .ok out) ↔ Readable limit (blocks segments)) ∧
      ∀ out, expandAll lines limit = .ok out →
        ∃ parts, List.Forall₂ (Becomes (blocks segments)) (outside segments) parts ∧ out = parts.flatten := by
  obtain ⟨segments, h⟩ := exists_divided lines
  refine ⟨segments, h, fun other => h.unique, ?_⟩
  rcases h.expandAll limit with ⟨hr, he⟩ | ⟨hr, e, b, -, he, -, -⟩
  · rw [he]
    refine ⟨iff_of_true ⟨_, rfl⟩ hr, ?_⟩
    rintro out ⟨⟩
    refine ⟨_, ?_, List.flatMap_def⟩
    rw [List.forall₂_map_right_iff, List.forall₂_same]
    exact fun line _ => Library.becomes_expandLine rfl line
  · rw [he]
    refine ⟨iff_of_false (by rintro ⟨out, ⟨⟩⟩) hr, ?_⟩
    rintro out ⟨⟩

/-- A header and a call of the macro itself. -/
def nestedBody : List Line :=
  [⟨3, Text.of "MACRO x"⟩, ⟨4, Text.of "swap %b%, %a%"⟩]

/-- A call in front of its block, a closing line outside of blocks, and a block in capitals. -/
def nestedSource : List Line :=
  ⟨1, Text.of "swap r1, r2"⟩ :: ⟨2, Text.of "macro swap a, b"⟩ ::
    (nestedBody ++ ⟨5, Text.of " endm "⟩ :: ⟨6, Text.of "ENDM"⟩ :: ⟨7, Text.of "\tMACRO bump r"⟩ ::
      ([⟨8, Text.of "inc %r%"⟩] ++ [⟨9, Text.of "ENDM"⟩, ⟨10, Text.of "bump r3"⟩]))

def nestedSegments : List Segment :=
  [.plain ⟨1, Text.of "swap r1, r2"⟩,
    .block ⟨⟨2, Text.of "macro swap a, b"⟩, nestedBody, some ⟨5, Text.of " endm "⟩⟩,
    .plain ⟨6, Text.of "ENDM"⟩,
    .block ⟨⟨7, Text.of "\tMACRO bump r"⟩, [⟨8, Text.of "inc %r%"⟩], some ⟨9, Text.of "ENDM"⟩⟩,
    .plain ⟨10, Text.of "bump r3"⟩]

def nestedResult : List Line :=
  [⟨1, Text.of "MACRO x"⟩, ⟨1, Text.of "swap r2, r1"⟩, ⟨6, Text.of "ENDM"⟩, ⟨10, Text.of "inc r3"⟩]

theorem nestedSource_divided :
    Divided nestedSource nestedSegments ∧ Readable 2 (blocks nestedSegments) ∧
      ∃ parts, List.Forall₂ (Becomes (blocks nestedSegments)) (outside nestedSegments) parts ∧
        nestedResult = parts.flatten := by
  have hd : Divided nestedSource nestedSegments :=
    .plain (by decide) (.closed (by decide) (by decide) (by decide)
      (.plain (by decide) (.closed (by decide) (by decide) (by decide) (.plain (by decide) .nil))))
  have he : expandAll nestedSource 2 = .ok nestedResult := by decide +kernel
  obtain ⟨segments, -, hunique, hread, hresult⟩ := expandAll_divided nestedSource 2
  obtain rfl := hunique _ hd
  exact ⟨hd, hread.mp ⟨_, he⟩, hresult _ he⟩

end Macro

end TwoPass
