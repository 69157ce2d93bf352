import TwoPass.Proofs.OperandGrammar
import TwoPass.Proofs.FirstPass

/-!
What a line is read as. A label that is read can be a name, and a line put together from a label, a
keyword and arguments is taken apart again.
-/
namespace TwoPass

/-! ## Words -/

namespace Text

/-- A visible byte that is neither a separator nor starts a string or a comment. -/
def isWordByte (b : UInt8) : Bool :=
  isInk b && b != ','.toUInt8 && b != ':'.toUInt8 && b != '"'.toUInt8 && b != ';'.toUInt8

structure IsWord (t : Text) : Prop where
  ne_nil : t ≠ []
  bytes : ∀ b ∈ t, isWordByte b = true

theorem isInk_of_isWordByte {b : UInt8} (h : isWordByte b = true) : isInk b = true := by
  simp only [isWordByte, Bool.and_eq_true] at h
  exact h.1.1.1.1

theorem IsWord.firm {t : Text} (h : IsWord t) : Firm t :=
  firm_of_ink h.ne_nil fun b hb => isInk_of_isWordByte (h.bytes b hb)

theorem IsWord.not_mem {t : Text} (h : IsWord t) {b : UInt8} (hb : isWordByte b = false) : b ∉ t := by
  intro hm
  rw [h.bytes b hm] at hb
  cases hb

theorem IsWord.append {t u : Text} (ht : IsWord t) (hu : ∀ b ∈ u, isWordByte b = true) : IsWord (t ++ u) :=
  ⟨List.append_ne_nil_of_left_ne_nil ht.ne_nil u, List.forall_mem_append.mpr ⟨ht.bytes, hu⟩⟩

theorem isWordByte_of_isNameByte {b : UInt8} (h : Name.isNameByte b = true) : isWordByte b = true := by
  have hcodes : '0'.toUInt8 = 48 ∧ '9'.toUInt8 = 57 ∧ 'a'.toUInt8 = 97 ∧ 'z'.toUInt8 = 122 ∧
      'A'.toUInt8 = 65 ∧ 'Z'.toUInt8 = 90 ∧ '_'.toUInt8 = 95 ∧ ','.toUInt8 = 44 ∧ ':'.toUInt8 = 58 ∧
      '"'.toUInt8 = 34 ∧ ';'.toUInt8 = 59 := by decide
  grind [Name.isNameByte, isLetter, isLower, isUpper, isDigit, isWordByte, isInk]

theorem isWordByte_of_isDigit {b : UInt8} (h : isDigit b = true) : isWordByte b = true :=
  isWordByte_of_isNameByte (by simp [Name.isNameByte, h])

theorem isWord_of_isValid {t : Text} (h : Name.isValid t = true) : IsWord t :=
  ⟨Name.ne_nil_of_isValid h, fun _ hb => isWordByte_of_isNameByte (Name.isNameByte_of_mem h hb)⟩

theorem isWord_ofNat (n : Nat) : IsWord (ofNat n) := by
  obtain ⟨hne, hdigits, -⟩ := Numeral.isDigits_ofNat n
  exact ⟨hne, fun b hb => isWordByte_of_isDigit (hdigits b hb)⟩

theorem isWord_ofInt (n : Int) : IsWord (ofInt n) := by
  cases n with
  | ofNat n => exact isWord_ofNat n
  | negSucc n =>
      refine ⟨List.cons_ne_nil _ _, fun b hb => ?_⟩
      rcases List.mem_cons.mp hb with rfl | hb
      · decide
      · exact (isWord_ofNat (n + 1)).bytes b hb

end Text

/-! ## Labels that are read -/

theorem Statement.checkLabel_of_splitLabel {code label rest}
    (h : splitLabel code = .ok (some label, rest)) : checkLabel label = .ok () := by
  unfold splitLabel at h
  split at h
  · cases h
  · obtain ⟨u, hc, h⟩ := bind_eq_ok.mp h
    cases h
    exact hc

theorem Statement.of_readDirective {line label code s} (h : readDirective line label code = .ok s) :
    s.line = line ∧ s.label = label := by
  unfold readDirective at h
  dsimp only at h
  split at h
  · cases h
  · split at h <;> cases h
    exact ⟨rfl, rfl⟩

/-- Code is a directive if it starts with a dot, and else an instruction. -/
theorem Statement.readCode_eq {line code label body b t} (hs : splitLabel code = .ok (label, body))
    (hb : body.value = b :: t) :
    readCode line code =
      if b = '.'.toUInt8 then (readDirective line label body).map .statement
      else .ok (.statement (readInstruction line label body)) := by
  unfold readCode
  simp only [hs, hb, bind, Except.bind, pure, Except.pure]
  split
  · cases readDirective line label body <;> rfl
  · rfl

/-- What a statement is read from: the body of its code behind the label. -/
theorem Statement.readCode_eq_statement {line code s} (h : readCode line code = .ok (.statement s)) :
    ∃ body b t, splitLabel code = .ok (s.label, body) ∧ body.value = b :: t ∧
      (if b = '.'.toUInt8 then readDirective line s.label body else .ok (readInstruction line s.label body)) =
        .ok s := by
  obtain ⟨⟨label, body⟩, hs, hrest⟩ := bind_eq_ok.mp h
  cases hv : body.value with
  | nil => cases label <;> simp [hv, pure, Except.pure] at hrest
  | cons b t =>
      rw [readCode_eq hs hv] at h
      split at h
      · rename_i hb
        cases hd : readDirective line label body with
        | error d => rw [hd] at h; cases h
        | ok s' =>
            rw [hd] at h
            cases h
            rw [(of_readDirective hd).2]
            exact ⟨body, b, t, hs, hv, by rw [if_pos hb, hd]⟩
      · rename_i hb
        cases h
        exact ⟨body, b, t, hs, hv, if_neg hb⟩

theorem Line.readCode_of_statement? {line : Line} {s} (h : line.statement? = some s) :
    ∃ code, Statement.readCode line.number code = .ok (.statement s) := by
  unfold statement? at h
  split at h
  · rename_i s' hs
    cases h
    rcases line.parse_cases with hp | hp | ⟨code, hp⟩
    · rw [hp] at hs; cases hs
    · rw [hp] at hs; cases hs
    · exact ⟨code, hp.symm.trans hs⟩
  · cases h

/-- The label of a statement is a name and not reserved. -/
theorem Line.label_of_statement? {line : Line} {s label} (h : line.statement? = some s)
    (hl : s.label = some label) :
    Name.isValid label.value = true ∧ Name.isReserved label.value = false := by
  obtain ⟨code, hcode⟩ := readCode_of_statement? h
  obtain ⟨body, b, t, hs, -⟩ := Statement.readCode_eq_statement hcode
  exact Statement.checkLabel_eq_ok.mp (Statement.checkLabel_of_splitLabel (hl ▸ hs))

theorem Line.number_of_statement? {line : Line} {s} (h : line.statement? = some s) : s.line = line.number := by
  obtain ⟨code, hcode⟩ := readCode_of_statement? h
  obtain ⟨body, b, t, -, -, hread⟩ := Statement.readCode_eq_statement hcode
  split at hread
  · exact (Statement.of_readDirective hread).1
  · rw [← Except.ok.inj hread]
    rfl

theorem Statement.name_of_mem_definedNames {lines : List Line} {name}
    (h : name ∈ definedNames (ofLines lines)) : Name.isValid name = true ∧ Name.isReserved name = false := by
  obtain ⟨s, hs, hn⟩ := List.mem_flatMap.mp h
  obtain ⟨line, -, hline⟩ := List.mem_filterMap.mp hs
  rcases List.mem_append.mp hn with hn | hn
  · obtain ⟨label, hlabel, rfl⟩ := List.mem_map.mp hn
    exact Line.label_of_statement? hline (Option.mem_toList.mp hlabel)
  · obtain ⟨token, htoken, rfl⟩ := List.mem_map.mp hn
    obtain ⟨-, hname, rfl⟩ := external?_eq_some.mp (Option.mem_toList.mp htoken)
    exact hname

/-! ## Comments -/

namespace Statement

/-- A text in which no comment starts and no quote stays open. -/
def Closed (t : Text) : Prop :=
  ∀ i rest, codeEnd i false (t ++ rest) = codeEnd (i + t.length) false rest

theorem closed_of_not_mem {t : Text} (hq : '"'.toUInt8 ∉ t) (hs : ';'.toUInt8 ∉ t) : Closed t := by
  induction t with
  | nil => intro i rest; rfl
  | cons b t ih =>
      intro i rest
      obtain ⟨hq, hqt⟩ := not_or.mp (fun hm => hq (List.mem_cons.mpr hm))
      obtain ⟨hs, hst⟩ := not_or.mp (fun hm => hs (List.mem_cons.mpr hm))
      rw [List.cons_append, codeEnd, if_neg (Ne.symm hq), if_neg (by simp [Ne.symm hs]), ih hqt hst,
        List.length_cons, Nat.add_right_comm, Nat.add_assoc]

theorem codeEnd_quoted {t : Text} (h : '"'.toUInt8 ∉ t) (i : Nat) (rest : Text) :
    codeEnd i true (t ++ '"'.toUInt8 :: rest) = codeEnd (i + t.length + 1) false rest := by
  induction t generalizing i with
  | nil => rfl
  | cons b t ih =>
      obtain ⟨hb, ht⟩ := not_or.mp (fun hm => h (List.mem_cons.mpr hm))
      rw [List.cons_append, codeEnd, if_neg (Ne.symm hb), if_neg (by simp), ih ht, List.length_cons,
        Nat.add_right_comm i 1, Nat.add_assoc i]

theorem closed_quoted {t : Text} (h : '"'.toUInt8 ∉ t) : Closed ('"'.toUInt8 :: t ++ ['"'.toUInt8]) := by
  intro i rest
  have hlength : i + ('"'.toUInt8 :: t ++ ['"'.toUInt8]).length = i + 1 + t.length + 1 := by
    simp only [List.cons_append, List.length_cons, List.length_append, List.length_nil]
    omega
  rw [hlength, ← codeEnd_quoted h]
  simp [codeEnd]

theorem Closed.append {t u : Text} (ht : Closed t) (hu : Closed u) : Closed (t ++ u) := by
  intro i rest
  rw [List.append_assoc, ht, hu, List.length_append, Nat.add_assoc]

theorem Closed.codeEnd {t : Text} (h : Closed t) : codeEnd 0 false t = t.length := by
  have hall := h 0 []
  rwa [List.append_nil, Nat.zero_add] at hall

end Statement

theorem Line.parse_eq_readCode {line : Line} {b : UInt8} {t : Text} (ht : line.text.trim = b :: t)
    (hb : b ≠ ';'.toUInt8) :
    line.parse = Statement.readCode line.number
      ((Token.ofLine line).slice 0 (Statement.codeEnd 0 false line.text)) := by
  have hvalue : ((Token.ofLine line).sliceFrom 0).value = b :: t := ht
  rw [parse, hvalue]
  exact if_neg hb

theorem Line.parse_of_closed {line : Line} {b : UInt8} {t : Text} (ht : line.text = b :: t)
    (hb : b ≠ ';'.toUInt8) (hfirm : line.text.Firm) (hclosed : Statement.Closed line.text) :
    ∃ code, code.value = line.text ∧ line.parse = Statement.readCode line.number code := by
  have hwhole : (Token.ofLine line).value = line.text := rfl
  refine ⟨_, ?_, parse_eq_readCode (hfirm.trim.trans ht) hb⟩
  rw [hclosed.codeEnd, Token.value_slice, hwhole]
  simp [hfirm.trim]

/-! ## Labels -/

namespace Statement

theorem labelSize?_of_isValid {name : Text} (h : Name.isValid name = true) (rest : Text) :
    labelSize? (name ++ ':'.toUInt8 :: rest) = some name.length := by
  have htake : (name ++ ':'.toUInt8 :: rest).takeWhile (· != ':'.toUInt8) = name :=
    (Text.cut_iff.mpr ⟨rfl, Text.forall_ne_iff.mpr (Name.not_mem_of_isValid h (by decide)), by decide⟩).1
  have hne := Name.ne_nil_of_isValid h
  have hall : name.all (fun b => !Text.isBlank b && b != '"'.toUInt8) = true := by
    rw [List.all_eq_true]
    intro b hb
    have hspace : b ≠ ' '.toUInt8 := fun he => Name.not_mem_of_isValid h (by decide) (he ▸ hb)
    have htab : b ≠ '\t'.toUInt8 := fun he => Name.not_mem_of_isValid h (by decide) (he ▸ hb)
    have hquote : b ≠ '"'.toUInt8 := fun he => Name.not_mem_of_isValid h (by decide) (he ▸ hb)
    simp [Text.isBlank, hspace, htab, hquote]
  simp [labelSize?, htake, hne, hall]

theorem labelSize?_eq_none {word tail : Text} (hw : ':'.toUInt8 ∉ word) (ht : tail.StartsBlank) :
    labelSize? (word ++ tail) = none := by
  have htake : (word ++ tail).takeWhile (· != ':'.toUInt8) = word ++ tail.takeWhile (· != ':'.toUInt8) :=
    List.takeWhile_append_of_pos (Text.forall_ne_iff.mpr hw)
  cases tail with
  | nil =>
      rw [List.takeWhile_nil, List.append_nil] at htake
      simp [labelSize?, htake]
  | cons b rest =>
      have hblank : Text.isBlank b = true := ht b rfl
      have hcolon : (b != ':'.toUInt8) = true := by
        rw [bne_iff_ne]
        rintro rfl
        exact absurd hblank (by decide)
      simp [labelSize?, htake, hblank, hcolon]

theorem splitLabel_of_word {code : Token} {word tail : Text} (hc : code.value = word ++ tail)
    (hw : ':'.toUInt8 ∉ word) (ht : tail.StartsBlank) : splitLabel code = .ok (none, code) := by
  rw [splitLabel, hc, labelSize?_eq_none hw ht]

theorem splitLabel_of_label {code : Token} {name rest : Text} (hv : Name.isValid name = true)
    (hr : Name.isReserved name = false) (hcode : code.value = name ++ ':'.toUInt8 :: ' '.toUInt8 :: rest)
    (hrest : rest.Firm) :
    ∃ label body, splitLabel code = .ok (some label, body) ∧ label.value = name ∧ body.value = rest := by
  have hsize : labelSize? code.value = some name.length := by rw [hcode, labelSize?_of_isValid hv]
  have hlabel : (code.slice 0 name.length).value = name := by
    rw [Token.value_slice, hcode, List.drop_zero, Nat.sub_zero, List.take_left]
    exact (Text.isWord_of_isValid hv).firm.trim
  have hbody : (code.sliceFrom (name.length + 1)).value = rest := by
    rw [Token.value_sliceFrom, hcode, List.drop_append, List.drop_of_length_le (Nat.le_add_right _ 1),
      Nat.add_sub_cancel_left]
    exact hrest.trim_space
  refine ⟨_, _, ?_, hlabel, hbody⟩
  have hcheck : checkLabel (code.slice 0 name.length) = .ok () :=
    checkLabel_eq_ok.mpr (by rw [hlabel]; exact ⟨hv, hr⟩)
  simp only [splitLabel, hsize, hcheck, bind, Except.bind, pure, Except.pure]

end Statement

/-! ## Keywords and arguments -/

theorem Directive.isValid_name (d : Directive) : Name.isValid d.name = true := by
  cases d <;> decide

theorem Opcode.isValid_mnemonic (op : Opcode) : Name.isValid op.mnemonic = true := by
  cases op <;> decide

theorem Directive.parse?_name (d : Directive) : parse? d.name = some d := by
  cases d <;> decide

theorem Opcode.parse?_mnemonic (op : Opcode) : parse? op.mnemonic = some op := by
  cases op <;> decide

/-- A keyword, and its arguments behind a space if it has any. -/
def Text.withArgs (word args : Text) : Text :=
  word ++ if args = [] then [] else ' '.toUInt8 :: args

theorem Text.firm_withArgs {word args : Text} (hw : word.Firm) (ha : args = [] ∨ args.Firm) :
    (word.withArgs args).Firm := by
  rcases ha with rfl | ha
  · simpa [withArgs] using hw
  · simpa [withArgs, ha.ne_nil] using hw.append ha [' '.toUInt8]

theorem Token.headRest_withArgs {t : Token} {word args : Text} (ht : t.value = word.withArgs args)
    (hw : word.IsWord) (ha : args = [] ∨ args.Firm) :
    t.headRest.1.value = word ∧ t.headRest.2.value = args := by
  have hink : ∀ b ∈ word, Text.isInk b = true := fun b hb => Text.isInk_of_isWordByte (hw.bytes b hb)
  rcases ha with rfl | ha
  · have hv : t.value = word := by simpa [Text.withArgs] using ht
    obtain ⟨h₁, h₂⟩ := headRest_of_ink (hv ▸ hink)
    exact ⟨h₁.trans hv, h₂⟩
  · have hv : t.value = word ++ ' '.toUInt8 :: args := by simpa [Text.withArgs, ha.ne_nil] using ht
    exact headRest_append hv hw.ne_nil hink ha

namespace Statement

/-- Colons in the arguments do not end a label, because a blank comes before them. -/
theorem splitLabel_of_withArgs {code : Token} {word args : Text} (hc : code.value = word.withArgs args)
    (hw : ':'.toUInt8 ∉ word) : splitLabel code = .ok (none, code) := by
  rw [Text.withArgs] at hc
  refine splitLabel_of_word hc hw fun b hb => ?_
  split at hb
  · cases hb
  · cases hb
    decide

theorem readDirective_of_name (line : Int) (label : Option Token) {code : Token} {d : Directive} {args : Text}
    (hc : code.value = Text.withArgs ('.'.toUInt8 :: d.name) args) (ha : args = [] ∨ args.Firm) :
    ∃ s, readDirective line label code = .ok s ∧ s.label = label ∧ s.action = .directive d ∧
      s.args.value = args := by
  have hw : d.name.IsWord := Text.isWord_of_isValid d.isValid_name
  have htail : (code.sliceFrom 1).value = d.name.withArgs args := by
    rw [Token.value_sliceFrom, hc]
    exact (Text.firm_withArgs hw.firm ha).trim
  obtain ⟨hk, hargs⟩ := Token.headRest_withArgs htail hw ha
  unfold readDirective
  dsimp only
  rw [if_neg (by rw [hk]; simpa using hw.ne_nil), hk, Directive.parse?_name]
  exact ⟨_, rfl, rfl, rfl, hargs⟩

theorem readInstruction_of_mnemonic (line : Int) (label : Option Token) {code : Token} {op : Opcode} {args : Text}
    (hc : code.value = op.mnemonic.withArgs args) (ha : args = [] ∨ args.Firm) :
    (readInstruction line label code).action = .instruction (some op) ∧
      (readInstruction line label code).args.value = args := by
  have hw : op.mnemonic.IsWord := Text.isWord_of_isValid op.isValid_mnemonic
  obtain ⟨hk, hargs⟩ := Token.headRest_withArgs hc hw ha
  refine ⟨?_, hargs⟩
  unfold readInstruction
  dsimp only
  rw [hk, Opcode.parse?_mnemonic]

end Statement

/-! ## First words -/

theorem Statement.le_codeEnd (i : Nat) (quoted : Bool) (t : Text) : i ≤ codeEnd i quoted t := by
  fun_induction codeEnd i quoted t with
  | case1 => exact Nat.le_refl _
  | case2 i quoted t ih => exact Nat.le_of_succ_le ih
  | case3 i quoted b t h h' => exact Nat.le_refl _
  | case4 i quoted b t h h' ih => exact Nat.le_of_succ_le ih

theorem Statement.take_codeEnd {front : Text} (h : Closed front) (tail : Text) :
    ∃ tail', tail' <+: tail ∧ (front ++ tail).take (codeEnd 0 false (front ++ tail)) = front ++ tail' := by
  have hle := le_codeEnd front.length false tail
  refine ⟨tail.take (codeEnd front.length false tail - front.length), List.take_prefix _ _, ?_⟩
  rw [h, Nat.zero_add, List.take_append, List.take_of_length_le hle]

theorem Statement.closed_of_blank {t : Text} (h : ∀ b ∈ t, Text.isBlank b = true) : Closed t := by
  have hfree : ∀ c, Text.isBlank c = false → c ∉ t := by
    intro c hc hm
    rw [h c hm] at hc
    cases hc
  exact closed_of_not_mem (hfree _ (by decide)) (hfree _ (by decide))

/-- The code of a line starts with the first word of the line. -/
theorem Line.exists_code_of_word {line : Line} (hw : line.text.word.1.IsWord) :
    ∃ code args, line.parse = Statement.readCode line.number code ∧ code.value = line.text.word.1 ++ args ∧
      Text.StartsBlank args := by
  obtain ⟨blanks, hblanks, htext, htail⟩ := line.text.word_spec
  generalize line.text.word.1 = word at *
  generalize line.text.word.2 = tail at *
  have hink : ∀ b ∈ word, Text.isInk b = true := fun b hb => Text.isInk_of_isWordByte (hw.bytes b hb)
  -- no comment starts in front of the end of the word
  have hclosed : Statement.Closed (blanks ++ word) :=
    (Statement.closed_of_blank hblanks).append
      (Statement.closed_of_not_mem (hw.not_mem (by decide)) (hw.not_mem (by decide)))
  obtain ⟨cut, hcut, htake⟩ := Statement.take_codeEnd hclosed tail
  rw [List.append_assoc, ← htext, List.append_assoc] at htake
  have hwhole := Text.trim_word hblanks hw.ne_nil hink tail
  have hcode := Text.trim_word hblanks hw.ne_nil hink cut
  rw [← htext] at hwhole
  rw [← htake] at hcode
  obtain ⟨b, letters, hletters⟩ := List.exists_cons_of_ne_nil hw.ne_nil
  have hb : b ≠ ';'.toUInt8 := by
    rintro rfl
    exact hw.not_mem (by decide) (hletters ▸ List.mem_cons_self)
  rw [hletters, List.cons_append] at hwhole
  exact ⟨_, _, parse_eq_readCode hwhole hb, hcode, (htail.mono hcut).mono (Text.trimRight_isPrefix cut)⟩

theorem Statement.readCode_of_word {code : Token} {word args : Text} (hc : code.value = word ++ args)
    (hv : Name.isValid word = true) (ha : args.StartsBlank) (line : Int) :
    ∃ s, readCode line code = .ok (.statement s) ∧ s.label = none ∧
      s.action = .instruction (Opcode.parse? word) := by
  have hw : word.IsWord := Text.isWord_of_isValid hv
  have hink : ∀ b ∈ word, Text.isInk b = true := fun b hb => Text.isInk_of_isWordByte (hw.bytes b hb)
  have hsplit := splitLabel_of_word hc (hw.not_mem (by decide)) ha
  have hkeyword : code.headRest.1.value = word := Token.headRest_word hc hw.ne_nil hink ha
  obtain ⟨b, letters, rfl⟩ := List.exists_cons_of_ne_nil hw.ne_nil
  have hb : b ≠ '.'.toUInt8 := by
    rintro rfl
    exact Name.not_mem_of_isValid hv (by decide) List.mem_cons_self
  rw [readCode_eq hsplit hc, if_neg hb]
  exact ⟨_, rfl, rfl, congrArg (Action.instruction ∘ Opcode.parse?) hkeyword⟩

/-- A line whose first word is a name is an instruction under that name. -/
theorem Line.parse_of_word {line : Line} (hv : Name.isValid line.text.word.1 = true) :
    ∃ s, line.parse = .ok (.statement s) ∧ s.label = none ∧
      s.action = .instruction (Opcode.parse? line.text.word.1) := by
  obtain ⟨code, args, hparse, hcode, hargs⟩ := exists_code_of_word (Text.isWord_of_isValid hv)
  rw [hparse]
  exact Statement.readCode_of_word hcode hv hargs line.number

end TwoPass
