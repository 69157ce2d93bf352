import TwoPass.Proofs.Listing
import TwoPass.Proofs.Utf8

/-!
A program that is written down is read back: each line gives one statement, with the label, the
action and the arguments it was written from.
-/
namespace TwoPass

/-! ## Lists with commas -/

namespace Listing

theorem commas_cons_cons (t u : Text) (ts : List Text) :
    commas (t :: u :: ts) = t ++ ','.toUInt8 :: ' '.toUInt8 :: commas (u :: ts) := by
  have hsep : Text.of ", " = [','.toUInt8, ' '.toUInt8] := by decide
  simp [commas, Text.joinWith, hsep]

theorem firm_commas {ts : List Text} (hne : ts ≠ []) (h : ∀ t ∈ ts, Text.IsWord t) : Text.Firm (commas ts) := by
  induction ts with
  | nil => exact absurd rfl hne
  | cons t ts ih =>
      cases ts with
      | nil => simpa [commas, Text.joinWith] using (h t List.mem_cons_self).firm
      | cons u ts =>
          have hrest := ih (List.cons_ne_nil u ts) fun x hx => h x (List.mem_cons_of_mem t hx)
          have hall := (h t List.mem_cons_self).firm.append hrest [','.toUInt8, ' '.toUInt8]
          rw [commas_cons_cons]
          simpa using hall

/-- A list of words is read item by item. -/
theorem items_commas {ts : List Text} (hne : ts ≠ []) (h : ∀ t ∈ ts, Text.IsWord t) :
    (commas ts).items = ts := by
  induction ts with
  | nil => exact absurd rfl hne
  | cons t ts ih =>
      have ht := h t List.mem_cons_self
      have hcomma : ','.toUInt8 ∉ t := ht.not_mem (by decide)
      cases ts with
      | nil =>
          have hsplit := Text.splitOn_of_not_mem hcomma
          simp [commas, Text.joinWith, Text.items, hsplit, ht.firm.trim]
      | cons u ts =>
          have hrest := ih (List.cons_ne_nil u ts) fun x hx => h x (List.mem_cons_of_mem t hx)
          rw [commas_cons_cons, Text.items, Text.splitOn_append hcomma, List.map_cons, ht.firm.trim,
            ← Text.items, Text.items_space, hrest]

theorem arguments_commas {ts : List Text} (h : ∀ t ∈ ts, Text.IsWord t) : (commas ts).arguments = ts := by
  by_cases hne : ts = []
  · subst hne
    rfl
  · rw [Text.arguments, if_neg (firm_commas hne h).ne_nil, items_commas hne h]

/-! ## The words of a program -/

theorem isWord_renderRegister (r : Register) : Text.IsWord (renderRegister r) := by
  have hvalid : ∀ r : Register, Name.isValid (renderRegister r) = true := by decide
  exact Text.isWord_of_isValid (hvalid r)

theorem Label.isWord (label : Label) : Text.IsWord label.text :=
  Text.isWord_of_isValid label.valid

theorem Argument.isWord_render (a : Argument) : Text.IsWord a.render := by
  cases a with
  | immediate value =>
      refine ⟨List.cons_ne_nil _ _, fun b hb => ?_⟩
      rcases List.mem_cons.mp hb with rfl | hb
      · decide
      · exact (Text.isWord_ofInt _).bytes b hb
  | register r => exact isWord_renderRegister r
  | direct label => exact label.isWord
  | matrix label row column =>
      have hbracket : ∀ t : Text, Text.IsWord t → ∀ b ∈ t.inBrackets, Text.isWordByte b = true := by
        intro t ht b hb
        simp only [Text.inBrackets, List.cons_append, List.mem_cons, List.mem_append, List.not_mem_nil,
          or_false] at hb
        rcases hb with rfl | hb | rfl
        · decide
        · exact ht.bytes b hb
        · decide
      exact label.isWord.append (List.forall_mem_append.mpr
        ⟨hbracket _ (isWord_renderRegister row), hbracket _ (isWord_renderRegister column)⟩)

theorem isWord_of_mem_renderValues {values : List Int16} {t : Text} (h : t ∈ renderValues values) :
    Text.IsWord t := by
  obtain ⟨value, -, rfl⟩ := List.mem_map.mp h
  exact Text.isWord_ofInt _

theorem not_mem_letters (letters : List Letter) :
    '"'.toUInt8 ∉ letters.flatMap fun l => Text.encodeChar l.char := by
  intro h
  obtain ⟨l, -, hl⟩ := List.mem_flatMap.mp h
  exact l.unquoted (Text.eq_ofUInt8_of_mem_encodeChar (by decide) hl)

theorem Body.isWord_keyword (body : Body) : Text.IsWord body.keyword := by
  have hdirective : ∀ d : Directive, Text.IsWord ('.'.toUInt8 :: d.name) := by
    intro d
    have hname : Text.IsWord d.name := Text.isWord_of_isValid d.isValid_name
    refine ⟨List.cons_ne_nil _ _, List.forall_mem_cons.mpr ⟨by decide, hname.bytes⟩⟩
  cases body with
  | instruction op arguments arity => exact Text.isWord_of_isValid op.isValid_mnemonic
  | data first rest => exact hdirective .data
  | string letters => exact hdirective .string
  | mat rows columns values limits cells filled => exact hdirective .mat
  | external name => exact hdirective .external
  | entry name => exact hdirective .entry

theorem Body.firm_args (body : Body) : body.args = [] ∨ body.args.Firm := by
  cases body with
  | instruction op arguments arity =>
      by_cases hne : arguments = []
      · subst hne
        exact Or.inl rfl
      · refine Or.inr (firm_commas (by simpa using hne) ?_)
        exact List.forall_mem_map.mpr fun a _ => a.isWord_render
  | data first rest => exact Or.inr (firm_commas (List.cons_ne_nil _ _) fun t => isWord_of_mem_renderValues)
  | string letters => exact Or.inr ⟨⟨_, _, rfl, by decide⟩, ⟨_, _, rfl, by decide⟩⟩
  | mat rows columns values limits cells filled =>
      refine Or.inr ?_
      have hheader : ((Text.ofNat rows).inBrackets ++ (Text.ofNat columns).inBrackets).Firm :=
        ⟨⟨_, _, rfl, by decide⟩, ⟨_, _, (List.append_assoc _ _ _).symm, by decide⟩⟩
      by_cases hne : values = []
      · simpa [args, hne] using hheader
      · have hvalues : (commas (renderValues values)).Firm :=
          firm_commas (by simpa [renderValues] using hne) fun t => isWord_of_mem_renderValues
        simpa [args, hne] using hheader.append hvalues [' '.toUInt8]
  | external name => exact Or.inr name.isWord.firm
  | entry name => exact Or.inr name.isWord.firm

/-! ## No comments -/

theorem closed_of_isWord {t : Text} (h : t.IsWord) : Statement.Closed t :=
  Statement.closed_of_not_mem (h.not_mem (by decide)) (h.not_mem (by decide))

theorem closed_commas {ts : List Text} (h : ∀ t ∈ ts, Text.IsWord t) : Statement.Closed (commas ts) := by
  induction ts with
  | nil => intro i rest; rfl
  | cons t ts ih =>
      have ht := closed_of_isWord (h t List.mem_cons_self)
      cases ts with
      | nil => simpa [commas, Text.joinWith] using ht
      | cons u ts =>
          have hsep : Statement.Closed [','.toUInt8, ' '.toUInt8] :=
            Statement.closed_of_not_mem (by decide) (by decide)
          have hrest := ih fun x hx => h x (List.mem_cons_of_mem t hx)
          rw [commas_cons_cons]
          exact ht.append (hsep.append hrest)

theorem closed_inBrackets {t : Text} (h : t.IsWord) : Statement.Closed t.inBrackets := by
  have hopen : Statement.Closed ['['.toUInt8] := Statement.closed_of_not_mem (by decide) (by decide)
  have hclose : Statement.Closed [']'.toUInt8] := Statement.closed_of_not_mem (by decide) (by decide)
  exact (hopen.append (closed_of_isWord h)).append hclose

theorem closed_space {t : Text} (h : Statement.Closed t) : Statement.Closed (' '.toUInt8 :: t) :=
  (Statement.closed_of_not_mem (t := [' '.toUInt8]) (by decide) (by decide)).append h

theorem Body.closed_args (body : Body) : Statement.Closed body.args := by
  cases body with
  | instruction op arguments arity =>
      exact closed_commas (List.forall_mem_map.mpr fun a _ => a.isWord_render)
  | data first rest => exact closed_commas fun t => isWord_of_mem_renderValues
  | string letters => exact Statement.closed_quoted (not_mem_letters letters)
  | mat rows columns values limits cells filled =>
      refine ((closed_inBrackets (Text.isWord_ofNat rows)).append
        (closed_inBrackets (Text.isWord_ofNat columns))).append ?_
      split
      · intro i rest; rfl
      · exact closed_space (closed_commas fun t => isWord_of_mem_renderValues)
  | external name => exact closed_of_isWord name.isWord
  | entry name => exact closed_of_isWord name.isWord

theorem Body.closed_render (body : Body) : Statement.Closed body.render := by
  refine (closed_of_isWord body.isWord_keyword).append ?_
  split
  · intro i rest; rfl
  · exact closed_space body.closed_args

/-! ## Reading lines back -/

def Body.action : Body → Action
  | .instruction op _ _ => .instruction (some op)
  | .data .. => .directive .data
  | .string _ => .directive .string
  | .mat .. => .directive .mat
  | .external _ => .directive .external
  | .entry _ => .directive .entry

/-- A statement with the label, the action and the arguments of an item. -/
structure Item.Reads (item : Item) (s : Statement) : Prop where
  label : s.label.map (·.value) = item.label.map (·.text)
  action : s.action = item.body.action
  args : s.args.value = item.body.args

theorem Body.readCode {line : Int} {label : Option Token} {code token : Token} {body : Body}
    (hs : Statement.splitLabel code = .ok (label, token)) (ht : token.value = body.render) :
    ∃ s, Statement.readCode line code = .ok (.statement s) ∧ s.label = label ∧ s.action = body.action ∧
      s.args.value = body.args := by
  have hdirective : ∀ d : Directive, body.keyword = '.'.toUInt8 :: d.name → body.action = .directive d →
      ∃ s, Statement.readCode line code = .ok (.statement s) ∧ s.label = label ∧ s.action = body.action ∧
        s.args.value = body.args := by
    intro d hk ha
    have hv : token.value = Text.withArgs ('.'.toUInt8 :: d.name) body.args := by rw [ht, Body.render, hk]
    obtain ⟨s, hr, hl, hact, hargs⟩ := Statement.readDirective_of_name line label hv body.firm_args
    refine ⟨s, ?_, hl, hact.trans ha.symm, hargs⟩
    rw [Statement.readCode_eq hs hv, if_pos rfl, hr]
    rfl
  cases body with
  | instruction op arguments arity =>
      obtain ⟨b, t, hm⟩ := List.exists_cons_of_ne_nil (Text.isWord_of_isValid op.isValid_mnemonic).ne_nil
      have hb : b ≠ '.'.toUInt8 := by
        rintro rfl
        exact Name.not_mem_of_isValid op.isValid_mnemonic (by decide) (hm ▸ List.mem_cons_self)
      obtain ⟨ha, hargs⟩ := Statement.readInstruction_of_mnemonic line label ht
        (Body.firm_args (.instruction op arguments arity))
      refine ⟨_, ?_, rfl, ha, hargs⟩
      have hv : token.value = b :: (t ++ if commas (arguments.map Argument.render) = [] then []
          else ' '.toUInt8 :: commas (arguments.map Argument.render)) := by
        rw [ht, Body.render, Body.keyword, hm]
        rfl
      rw [Statement.readCode_eq hs hv, if_neg hb]
  | data first rest => exact hdirective .data rfl rfl
  | string letters => exact hdirective .string rfl rfl
  | mat rows columns values limits cells filled => exact hdirective .mat rfl rfl
  | external name => exact hdirective .external rfl rfl
  | entry name => exact hdirective .entry rfl rfl

/-- A line of a program holds no comment and starts with a word. -/
theorem Item.render_spec (item : Item) :
    item.render.Firm ∧ Statement.Closed item.render ∧
      ∃ b t, item.render = b :: t ∧ Text.isWordByte b = true := by
  have hkeyword := item.body.isWord_keyword
  have hbody : item.body.render.Firm := Text.firm_withArgs hkeyword.firm item.body.firm_args
  have hstart : ∀ t u : Text, t.IsWord → ∃ b s, t ++ u = b :: s ∧ Text.isWordByte b = true := by
    intro t u ht
    obtain ⟨b, s, rfl⟩ := List.exists_cons_of_ne_nil ht.ne_nil
    exact ⟨b, s ++ u, rfl, ht.bytes b List.mem_cons_self⟩
  unfold Item.render
  cases item.label with
  | none =>
      dsimp only
      rw [List.nil_append]
      exact ⟨hbody, item.body.closed_render, hstart item.body.keyword _ hkeyword⟩
  | some name =>
      have hname := name.isWord
      have hsep : Statement.Closed [':'.toUInt8, ' '.toUInt8] :=
        Statement.closed_of_not_mem (by decide) (by decide)
      refine ⟨hname.firm.append hbody _, ?_, ?_⟩
      · exact ((closed_of_isWord hname).append hsep).append item.body.closed_render
      · dsimp only
        rw [List.append_assoc]
        exact hstart _ _ hname

theorem Item.splitLabel {item : Item} {code : Token} (hc : code.value = item.render) :
    ∃ label token, Statement.splitLabel code = .ok (label, token) ∧
      label.map (·.value) = item.label.map (·.text) ∧ token.value = item.body.render := by
  have hkeyword := item.body.isWord_keyword
  unfold Item.render at hc
  cases hl : item.label with
  | none =>
      rw [hl] at hc
      exact ⟨none, code, Statement.splitLabel_of_withArgs hc (hkeyword.not_mem (by decide)), rfl, hc⟩
  | some name =>
      rw [hl] at hc
      have hbody : item.body.render.Firm := Text.firm_withArgs hkeyword.firm item.body.firm_args
      have hv : code.value = name.text ++ ':'.toUInt8 :: ' '.toUInt8 :: item.body.render := by
        simpa using hc
      obtain ⟨label, token, hs, hn, ht⟩ := Statement.splitLabel_of_label name.valid name.free hv hbody
      exact ⟨some label, token, hs, by simp [hn], ht⟩

/-- A line that an item was written to is read as a statement like the item. -/
theorem Item.parse {item : Item} {line : Line} (h : line.text = item.render) :
    ∃ s, line.parse = .ok (.statement s) ∧ item.Reads s := by
  obtain ⟨hfirm, hclosed, b, t, hb, hword⟩ := item.render_spec
  obtain ⟨code, hc, hp⟩ := Line.parse_of_closed (h.trans hb) (by
    rintro rfl
    exact absurd hword (by decide)) (h ▸ hfirm) (h ▸ hclosed)
  obtain ⟨label, token, hs, hl, ht⟩ := Item.splitLabel (hc.trans h)
  obtain ⟨s, hr, hlabel, ha, hargs⟩ := Body.readCode hs ht
  exact ⟨s, hp.trans hr, ⟨hlabel ▸ hl, ha, hargs⟩⟩

end Listing

end TwoPass
