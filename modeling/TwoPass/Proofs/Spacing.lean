import TwoPass.Proofs.Positions
import TwoPass.Proofs.WhiteSpace

/-!
Layout and comments. All that a line does is done by its code, which is what stands before its comment
without the white space around it, and a line without code does nothing. So sources with the same codes
are assembled alike but for places, and no change of layout or comments changes the codes.
-/
namespace TwoPass

/-! ## Codes -/

namespace Statement

/-- A comment starts inside a text, whatever follows, or what follows is read as if the quotes of the
text had been counted. -/
theorem codeEnd_append (i : Nat) (quoted : Bool) (t : Text) :
    (codeEnd i quoted t < i + t.length ∧ ∀ s, codeEnd i quoted (t ++ s) = codeEnd i quoted t) ∨
      codeEnd i quoted t = i + t.length ∧
        ∀ s, codeEnd i quoted (t ++ s) = codeEnd (i + t.length) (quoted ^^ (t.count '"'.toUInt8).bodd) s := by
  fun_induction codeEnd i quoted t with
  | case1 i quoted => exact Or.inr ⟨rfl, fun s => by simp⟩
  | case2 i quoted t ih =>
      have hstep : ∀ s, codeEnd i quoted ('"'.toUInt8 :: t ++ s) = codeEnd (i + 1) (!quoted) (t ++ s) := by
        simp [codeEnd]
      simp only [hstep, List.length_cons, List.count_cons_self, Nat.bodd_succ, ← Nat.add_assoc,
        Nat.add_right_comm i _ 1]
      simpa using ih
  | case3 i quoted c t h h' =>
      have hstop : ∀ s, codeEnd i quoted (c :: t ++ s) = i := by simp [codeEnd, h, h']
      exact Or.inl ⟨by simp, hstop⟩
  | case4 i quoted c t h h' ih =>
      have hstep : ∀ s, codeEnd i quoted (c :: t ++ s) = codeEnd (i + 1) quoted (t ++ s) := by
        simp [codeEnd, h, h']
      simp only [hstep, List.length_cons, List.count_cons_of_ne h, ← Nat.add_assoc, Nat.add_right_comm i _ 1]
      exact ih

theorem codeEnd_add (i j : Nat) (quoted : Bool) (t : Text) :
    codeEnd (i + j) quoted t = i + codeEnd j quoted t := by
  fun_induction codeEnd j quoted t with
  | case1 j quoted => rfl
  | case2 j quoted t ih => simpa [codeEnd, Nat.add_assoc] using ih
  | case3 j quoted b t h h' => simp [codeEnd, h, h']
  | case4 j quoted b t h h' ih => simpa [codeEnd, h, h', Nat.add_assoc] using ih

theorem codeEnd_of_not_mem {t : Text} (hq : '"'.toUInt8 ∉ t) (hs : ';'.toUInt8 ∉ t) (i : Nat) (quoted : Bool) :
    codeEnd i quoted t = i + t.length := by
  induction t generalizing i with
  | nil => rfl
  | cons b t ih =>
      obtain ⟨hq, hqt⟩ := not_or.mp (fun hm => hq (List.mem_cons.mpr hm))
      obtain ⟨hs, hst⟩ := not_or.mp (fun hm => hs (List.mem_cons.mpr hm))
      rw [codeEnd, if_neg (Ne.symm hq), if_neg (by simp [Ne.symm hs]), ih hqt hst, List.length_cons,
        Nat.add_right_comm, Nat.add_assoc]

theorem codeEnd_comment (i : Nat) (s : Text) : codeEnd i false (';'.toUInt8 :: s) = i := by
  rw [codeEnd, if_neg (by decide)]
  rfl

theorem codeEnd_le (t : Text) : codeEnd 0 false t ≤ t.length := by
  rcases codeEnd_append 0 false t with ⟨h, -⟩ | ⟨h, -⟩ <;> omega

end Statement

namespace Text

/-- The code of a line: what stands before its comment, without the white space around it. -/
def code (t : Text) : Text :=
  trim (t.take (Statement.codeEnd 0 false t))

@[simp] theorem code_nil : code [] = [] := rfl

/-- Whether a comment can be put behind a text: one has started already, or no quote is open. -/
def TakesComment (t : Text) : Prop :=
  (∃ front rest, t = front ++ ';'.toUInt8 :: rest ∧ Even (front.count '"'.toUInt8)) ∨ Even (t.count '"'.toUInt8)

theorem codeEnd_of_even {t : Text} (h : Even (t.count '"'.toUInt8)) (s : Text) :
    Statement.codeEnd 0 false (t ++ ';'.toUInt8 :: s) ≤ t.length := by
  rcases Statement.codeEnd_append 0 false t with ⟨hlt, hall⟩ | ⟨-, hall⟩
  · rw [hall]
    omega
  · obtain ⟨r, hr⟩ := h
    rw [hall, hr, Nat.bodd_add, Bool.xor_self, Bool.xor_self, Statement.codeEnd_comment, Nat.zero_add]

theorem TakesComment.codeEnd {t : Text} (h : TakesComment t) (s : Text) :
    Statement.codeEnd 0 false (t ++ ';'.toUInt8 :: s) = Statement.codeEnd 0 false t := by
  rcases Statement.codeEnd_append 0 false t with ⟨-, hall⟩ | ⟨hend, hall⟩
  · exact hall _
  · rcases h with ⟨front, rest, rfl, heven⟩ | heven
    · have hle := codeEnd_of_even heven rest
      rw [hend, List.length_append, List.length_cons] at hle
      omega
    · have hle := codeEnd_of_even heven s
      have hge := Statement.le_codeEnd (0 + t.length) (false ^^ (t.count '"'.toUInt8).bodd) (';'.toUInt8 :: s)
      rw [← hall] at hge
      omega

theorem code_comment {t : Text} (h : TakesComment t) (s : Text) : code (t ++ ';'.toUInt8 :: s) = code t := by
  rw [code, h.codeEnd, List.take_append_of_le_length (Statement.codeEnd_le t), code]

theorem code_append_left {w : Text} (h : IsWhite w) (t : Text) : code (w ++ t) = code t := by
  have hclosed := Statement.closed_of_not_mem (h.not_mem (by decide)) (h.not_mem (by decide))
  rw [code, hclosed, Nat.zero_add, ← Nat.add_zero w.length, Statement.codeEnd_add, List.take_length_add_append, code]
  simpa using trim_pad h isWhite_nil _

theorem code_append_right {w : Text} (h : IsWhite w) (t : Text) : code (t ++ w) = code t := by
  rcases Statement.codeEnd_append 0 false t with ⟨-, hall⟩ | ⟨hend, hall⟩
  · rw [code, hall, List.take_append_of_le_length (Statement.codeEnd_le t), code]
  · rw [code, hall, Statement.codeEnd_of_not_mem (h.not_mem (by decide)) (h.not_mem (by decide)), Nat.zero_add,
      ← List.length_append, List.take_length, code, hend, Nat.zero_add, List.take_length]
    exact trim_pad isWhite_nil h t

theorem code_pad {left right : Text} (hl : IsWhite left) (hr : IsWhite right) (t : Text) :
    code (left ++ t ++ right) = code t := by
  rw [code_append_right hr, code_append_left hl]

theorem mem_trim_of_ink {t : Text} {b : UInt8} (hb : isInk b = true) (h : b ∈ t) : b ∈ t.trim := by
  obtain ⟨front, back, rfl⟩ := List.append_of_mem h
  rw [trim, trimLeft_append_cons hb, trimRight_append_cons hb]
  exact List.mem_append_right _ List.mem_cons_self

theorem code_of_trim_nil {t : Text} (h : t.trim = []) : t.code = [] := by
  have hfree : ∀ {b}, isInk b = true → b ∉ t := fun hb hm => List.not_mem_nil (h ▸ mem_trim_of_ink hb hm)
  rw [code, Statement.codeEnd_of_not_mem (hfree (by decide)) (hfree (by decide)), Nat.zero_add, List.take_length, h]

theorem code_of_trim_comment {t rest : Text} (h : t.trim = ';'.toUInt8 :: rest) : t.code = [] := by
  have hink : isInk ';'.toUInt8 = true := by decide
  obtain ⟨front, back, rfl, hfirst⟩ := List.eq_append_cons_of_mem (mem_of_mem_trim (h ▸ List.mem_cons_self))
  rw [trim, trimLeft_append_cons hink, trimRight_append_cons hink] at h
  cases hleft : trimLeft front with
  | nil =>
      have hblank : trim front = [] := by rw [trim, hleft]; rfl
      have hquotes : front.count '"'.toUInt8 = 0 := by
        rw [List.count_eq_zero]
        exact fun hm => List.not_mem_nil (hblank ▸ mem_trim_of_ink (by decide) hm)
      rw [code_comment (Or.inr (hquotes ▸ Even.zero)), code_of_trim_nil hblank]
  | cons b s =>
      rw [hleft, List.cons_append, List.cons.injEq] at h
      have hmem : b ∈ front := (dropChars_suffix _ _ _ front).subset (hleft ▸ List.mem_cons_self)
      exact absurd (h.1 ▸ hmem) hfirst

end Text

namespace Statement

theorem readCode_nil {line : Int} {code : Token} (h : code.value = []) : readCode line code = .ok .blank := by
  have hsplit : splitLabel code = .ok (none, code) := by
    rw [splitLabel, h]
    rfl
  simp [readCode, hsplit, h, bind, Except.bind, pure, Except.pure]

/-- What a code says, wherever it stands. -/
def reading (code : Text) : Except Diagnostic ParsedLine :=
  ((readCode 0 ⟨.nowhere, code⟩).mapError Diagnostic.unplaced).map .unplaced

end Statement

namespace Line

/-- Whether a line has a code. -/
def speaks (line : Line) : Bool :=
  !line.text.code.isEmpty

/-- A line without code is blank or a comment, and else it is its code that is read. -/
theorem parse_cases_code (line : Line) :
    (line.speaks = false ∧ (line.parse = .ok .blank ∨ line.parse = .ok .comment)) ∨
      line.speaks = true ∧
        ∃ code, code.value = line.text.code ∧ line.parse = Statement.readCode line.number code := by
  have hwhole : ((Token.ofLine line).sliceFrom 0).value = line.text.trim := rfl
  cases ht : line.text.trim with
  | nil => exact Or.inl ⟨by simp [speaks, Text.code_of_trim_nil ht], Or.inl (by rw [parse, hwhole, ht])⟩
  | cons b t =>
      by_cases hb : b = ';'.toUInt8
      · rw [hb] at ht
        refine Or.inl ⟨by simp [speaks, Text.code_of_trim_comment ht], Or.inr ?_⟩
        rw [parse, hwhole, ht]
        rfl
      · have hparse := parse_eq_readCode ht hb
        have hvalue : ((Token.ofLine line).slice 0 (Statement.codeEnd 0 false line.text)).value = line.text.code := rfl
        by_cases hcode : line.text.code = []
        · exact Or.inl ⟨by simp [speaks, hcode], Or.inl (hparse.trans (Statement.readCode_nil (hvalue.trans hcode)))⟩
        · exact Or.inr ⟨by simp [speaks, hcode], _, hvalue, hparse⟩

theorem reading_of_speaks {line : Line} (h : line.speaks = true) : line.reading = Statement.reading line.text.code := by
  rcases line.parse_cases_code with ⟨hn, -⟩ | ⟨-, code, hcode, hparse⟩
  · rw [h] at hn
    cases hn
  · rw [reading, hparse]
    exact Statement.readCode_congr hcode

theorem reading_pad {left right : Text} (hl : left.IsWhite) (hr : right.IsWhite) (number number' : Int) (t : Text) :
    (⟨number, left ++ t ++ right⟩ : Line).reading = (⟨number', t⟩ : Line).reading :=
  reading_congr (Text.trim_pad hl hr t) (Text.code_pad hl hr t)

/-- The codes of the lines that have one. -/
def codes (texts : List Text) : List Text :=
  (texts.map Text.code).filter (!·.isEmpty)

theorem codes_eq (lines : List Line) :
    codes (lines.map (·.text)) = (lines.filter speaks).map (·.text.code) := by
  rw [codes, List.map_map, List.filter_map]
  rfl

end Line

theorem Layout.ofLines_speaking (lines : List Line) : ofLines (lines.filter Line.speaks) = ofLines lines := by
  have hstep : ∀ (l : Layout) (line : Line), (if line.speaks = true then l.addLine line else l) = l.addLine line := by
    intro l line
    rcases line.parse_cases_code with ⟨hn, hp | hp⟩ | ⟨hs, -⟩
    · simp [hn, addLine, hp]
    · simp [hn, addLine, hp]
    · simp [hs]
  simp only [ofLines, List.foldl_filter, hstep]

namespace Assembly

/-- Lines without code have no effect. -/
theorem ofLines_speaking (lines : List Line) : ofLines (lines.filter Line.speaks) = ofLines lines := by
  simp only [ofLines, Layout.ofLines_speaking]

section
variable {lines lines' : List Line}
    (h : Line.codes (lines.map (·.text)) = Line.codes (lines'.map (·.text)))
include h

theorem reading_congr_codes :
    (lines.filter Line.speaks).map Line.reading = (lines'.filter Line.speaks).map Line.reading := by
  have hreading : ∀ lines : List Line, (lines.filter Line.speaks).map Line.reading =
      (Line.codes (lines.map (·.text))).map Statement.reading := by
    intro lines
    rw [Line.codes_eq, List.map_map]
    exact List.map_congr_left fun line hl => Line.reading_of_speaks (List.mem_filter.mp hl).2
  rw [hreading, h, hreading]

theorem program_congr_codes : (ofLines lines).program.unplaced = (ofLines lines').program.unplaced := by
  rw [← ofLines_speaking lines, ← ofLines_speaking lines']
  exact program_congr (reading_congr_codes h)

theorem errors_congr_codes :
    (ofLines lines).errors.map Diagnostic.unplaced = (ofLines lines').errors.map .unplaced := by
  rw [← ofLines_speaking lines, ← ofLines_speaking lines']
  exact errors_congr (reading_congr_codes h)

end

end Assembly

/-! ## Changes of layout -/

/-- A line that is blank or holds only a comment. -/
def Text.Silent (t : Text) : Prop :=
  ∃ w, w.IsWhite ∧ (t = w ∨ ∃ s, t = w ++ ';'.toUInt8 :: s)

theorem Text.Silent.code {t : Text} (h : t.Silent) : t.code = [] := by
  have hwhite : ∀ {w : Text}, w.IsWhite → w.code = [] := fun hw => by
    simpa using code_append_right hw []
  obtain ⟨w, hw, rfl | ⟨s, rfl⟩⟩ := h
  · exact hwhite hw
  · have hquotes : w.count '"'.toUInt8 = 0 := List.count_eq_zero.mpr (hw.not_mem (by decide))
    rw [code_comment (Or.inr (by rw [hquotes]; exact Even.zero)), hwhite hw]

/-- One change of the layout or the comments of a source, in the texts of its lines. -/
inductive Relaid : List Text → List Text → Prop where
  | insert (before after : List Text) {t : Text} (h : t.Silent) : Relaid (before ++ after) (before ++ t :: after)
  | pad (before after : List Text) (t : Text) {left right : Text} (hl : left.IsWhite) (hr : right.IsWhite) :
      Relaid (before ++ t :: after) (before ++ (left ++ t ++ right) :: after)
  | comment (before after : List Text) {t : Text} (h : t.TakesComment) (s : Text) :
      Relaid (before ++ t :: after) (before ++ (t ++ ';'.toUInt8 :: s) :: after)

theorem Relaid.codes {texts texts' : List Text} (h : Relaid texts texts') : Line.codes texts = Line.codes texts' := by
  cases h with
  | insert before after h => simp [Line.codes, h.code]
  | pad before after t hl hr => simp only [Line.codes, List.map_append, List.map_cons, Text.code_pad hl hr]
  | comment before after h s => simp only [Line.codes, List.map_append, List.map_cons, Text.code_comment h]

/-- Layout and comments do not matter. Whatever blank and comment lines are inserted, white space is put
around lines and comments are put behind them, the program is the same and so are the warnings and
errors, places aside. -/
theorem Assembly.relaid_eq (lines lines' : List Line)
    (h : Relation.ReflTransGen Relaid (lines.map (·.text)) (lines'.map (·.text))) :
    (ofLines lines').program.instructions = (ofLines lines).program.instructions ∧
      (ofLines lines').program.data = (ofLines lines).program.data ∧
      (ofLines lines').program.externals = (ofLines lines).program.externals ∧
      (ofLines lines').program.symbols.unplaced = (ofLines lines).program.symbols.unplaced ∧
      (ofLines lines').program.warnings.map Diagnostic.unplaced = (ofLines lines).program.warnings.map .unplaced ∧
      (ofLines lines').errors.map Diagnostic.unplaced = (ofLines lines).errors.map .unplaced := by
  have hcodes : Line.codes (lines.map (·.text)) = Line.codes (lines'.map (·.text)) := by
    generalize lines'.map (·.text) = texts' at h
    induction h with
    | refl => rfl
    | tail _ hlast ih => exact ih.trans hlast.codes
  obtain ⟨hcode, hdata, hsymbols, huses, hwarnings⟩ := Program.mk.inj (program_congr_codes hcodes.symm)
  exact ⟨hcode, hdata, huses, hsymbols, hwarnings, errors_congr_codes hcodes.symm⟩

namespace Line

/-- A source with a semicolon in a string and a label that is not defined. -/
def plainSource : List Line :=
  [⟨1, Text.of "A: .string \"a;b\""⟩, ⟨2, Text.of "inc Q"⟩]

/-- The same source, indented by a no-break space, with comments, and with a line that is blank but for
an ideographic space. -/
def spacedSource : List Line :=
  [⟨1, Text.encodeChar (.ofNat 0xA0) ++ Text.of "A: .string \"a;b\"" ++ [] ++ ';'.toUInt8 :: Text.of " say \"hi"⟩,
    ⟨2, Text.encodeChar (.ofNat 0x3000)⟩,
    ⟨3, Text.of "inc Q" ++ ';'.toUInt8 :: Text.of "\"" ++ ';'.toUInt8 :: Text.of " again"⟩]

end Line

theorem Assembly.spacedSource_eq :
    Relation.ReflTransGen Relaid (Line.plainSource.map (·.text)) (Line.spacedSource.map (·.text)) ∧
      (ofLines Line.spacedSource).program.data = [97, 59, 98, 0] ∧
      (ofLines Line.spacedSource).errors.map Diagnostic.unplaced = [.unknownLabel .nowhere (Text.of "Q")] := by
  have hrelaid : Relation.ReflTransGen Relaid (Line.plainSource.map (·.text)) (Line.spacedSource.map (·.text)) := by
    refine .head (.pad [] [Text.of "inc Q"] _ (Text.isWhite_encodeChar (c := .ofNat 0xA0) (by decide))
      Text.isWhite_nil) ?_
    refine .head (.comment [] [Text.of "inc Q"] (Or.inr (by decide)) (Text.of " say \"hi")) ?_
    refine .head (.insert [_] [_] ⟨_, Text.isWhite_encodeChar (c := .ofNat 0x3000) (by decide), Or.inl rfl⟩) ?_
    refine .head (.comment [_, _] [] (Or.inr (by decide)) (Text.of "\"")) ?_
    exact .single (.comment [_, _] [] (Or.inl ⟨Text.of "inc Q", _, rfl, by decide⟩) (Text.of " again"))
  obtain ⟨-, hdata, -, -, -, herrors⟩ := relaid_eq Line.plainSource Line.spacedSource hrelaid
  refine ⟨hrelaid, ?_, ?_⟩
  · rw [hdata]
    decide +kernel
  · rw [herrors]
    decide +kernel

end TwoPass
