import TwoPass.Proofs.BothPasses
import TwoPass.Proofs.DataGrammar
import TwoPass.Proofs.Parsing

/-!
Where diagnostics point. Tokens are cut out of a line by nested trimming and splitting, and each cut
keeps them at their place in the line, so a diagnostic that names a token points at its text.
-/
namespace TwoPass

/-! ## Tokens -/

namespace Text

theorem trim_split (s : Text) :
    ∃ lead trail, s = lead ++ (s.trim ++ trail) ∧ lead.length + s.trimLeft.length = s.length := by
  obtain ⟨lead, hl⟩ := dropChars_suffix isSpace1 isSpace2 isSpace3 s
  obtain ⟨trail, ht⟩ : s.trim <+: s.trimLeft := s.trimLeft.trimRight_isPrefix
  refine ⟨lead, trail, ?_, ?_⟩
  · rw [ht]
    exact hl.symm
  · rw [← List.length_append]
    exact congrArg List.length hl

theorem spaceIndexFrom_le {t : Text} {i j : Nat} (h : spaceIndexFrom i t = some j) : j ≤ i + t.length := by
  induction t generalizing i with
  | nil => cases h
  | cons b t ih =>
      rw [spaceIndexFrom] at h
      rw [List.length_cons]
      split at h
      · cases h
        omega
      · have := ih h
        omega

/-- The pieces with the separators between them are the whole text. -/
theorem eq_of_splitOn {sep : UInt8} {t p : Text} {ps : List Text} (h : splitOn sep t = p :: ps) :
    t = p ++ ps.flatMap (sep :: ·) := by
  induction t generalizing p ps with
  | nil =>
      cases h
      rfl
  | cons b t ih =>
      obtain ⟨q, qs, hq⟩ := List.exists_cons_of_ne_nil (splitOn_ne_nil sep t)
      rw [splitOn_cons, hq] at h
      rw [ih hq]
      split at h
      · rename_i hb
        cases h
        simp [hb]
      · cases h
        rfl

end Text

/-- The token is a part of the line, and its position tells which. -/
def Token.StandsIn (t : Token) (line : Line) : Prop :=
  ∃ before after, line.text = before ++ (t.value ++ after) ∧
    t.position = ⟨line.number, before.length + 1, t.value.length⟩

namespace Token

theorem standsIn_ofLine (line : Line) : (ofLine line).StandsIn line :=
  ⟨[], [], by simp [ofLine], by simp [ofLine]⟩

namespace StandsIn

variable {line : Line} {t : Token} (h : t.StandsIn line)
include h

theorem piece {front s back : Text} {start : Nat} (hv : t.value = front ++ (s ++ back))
    (hstart : front.length = start) : (t.piece start s).StandsIn line := by
  obtain ⟨before, after, htext, hposition⟩ := h
  obtain ⟨lead, trail, hs, hlength⟩ := s.trim_split
  refine ⟨before ++ (front ++ lead), trail ++ (back ++ after), ?_, ?_⟩
  · rw [htext, hv, value_piece]
    nth_rewrite 1 [hs]
    simp
  · simp only [Token.piece, hposition, Span.mk.injEq, List.length_append, true_and, and_true]
    omega

theorem slice {start : Nat} (hstart : start ≤ t.value.length) (stop : Nat) : (t.slice start stop).StandsIn line := by
  have hv : t.value = t.value.take start ++
      ((t.value.drop start).take (stop - start) ++ (t.value.drop start).drop (stop - start)) := by
    rw [List.take_append_drop, List.take_append_drop]
  exact h.piece hv (List.length_take_of_le hstart)

theorem sliceFrom {start : Nat} (hstart : start ≤ t.value.length) : (t.sliceFrom start).StandsIn line := by
  have hv : t.value = t.value.take start ++ (t.value.drop start ++ []) := by
    rw [List.append_nil, List.take_append_drop]
  exact h.piece hv (List.length_take_of_le hstart)

theorem headRest : t.headRest.1.StandsIn line ∧ t.headRest.2.StandsIn line := by
  unfold Token.headRest
  split
  · rename_i i hi
    have hle := Text.spaceIndexFrom_le hi
    rw [Nat.zero_add] at hle
    exact ⟨h.slice (Nat.zero_le _) i, h.sliceFrom hle⟩
  · exact ⟨h, h.sliceFrom le_rfl⟩

theorem split (sep : UInt8) : ∀ u ∈ t.split sep, u.StandsIn line := by
  -- the fold has taken `front` off the text, and all pieces of it stand in the line
  have hfold : ∀ (ps : List Text) (p front : Text) (tokens : Array Token),
      t.value = front ++ (p ++ ps.flatMap (sep :: ·)) → (∀ u ∈ tokens, u.StandsIn line) →
      ∀ u ∈ ((p :: ps).foldl (fun acc s => (acc.1 + s.length + 1, acc.2.push (t.piece acc.1 s)))
        (front.length, tokens)).2, u.StandsIn line := by
    intro ps
    induction ps with
    | nil =>
        intro p front tokens hv htokens u hu
        rcases Array.mem_push.mp hu with hu | rfl
        · exact htokens u hu
        · exact h.piece hv rfl
    | cons q ps ih =>
        intro p front tokens hv htokens
        have hnext : t.value = front ++ p ++ [sep] ++ (q ++ ps.flatMap (sep :: ·)) := by simp [hv]
        have hlength : (front ++ p ++ [sep]).length = front.length + p.length + 1 := by
          simp [Nat.add_assoc]
        rw [List.foldl_cons, ← hlength]
        refine ih q _ _ hnext fun u hu => ?_
        rcases Array.mem_push.mp hu with hu | rfl
        · exact htokens u hu
        · exact h.piece hv rfl
  obtain ⟨p, ps, hs⟩ := List.exists_cons_of_ne_nil (Text.splitOn_ne_nil sep t.value)
  intro u hu
  refine hfold ps p [] #[] (Text.eq_of_splitOn hs) (fun u hu => absurd hu (Array.not_mem_empty u)) u ?_
  rw [← hs]
  exact Array.mem_toList_iff.mp hu

theorem arguments : ∀ u ∈ (if t.value.isEmpty then [] else t.split ','.toUInt8), u.StandsIn line := by
  split
  · exact fun u hu => absurd hu List.not_mem_nil
  · exact h.split _

end StandsIn

end Token

/-! ## Diagnostics -/

namespace Diagnostic

/-- The text of the source that a diagnostic repeats. A literal that is too large is repeated, but not
the number of cells of a matrix that is. -/
def quoted? : Diagnostic → Option Text
  | ignoredLabel _ t | invalidLabel _ t | reservedLabel _ t | redeclaredLabel _ t | unknownLabel _ t
  | externalEntry _ t | unknownDirective _ t | unknownInstruction _ t => some t
  | oversizedLiteral _ want found => if want = Text.of "[-32768, 32767]" then some found else none
  | _ => none

structure PointsAt (d : Diagnostic) (t : Token) : Prop where
  position : d.position? = some t.position
  quoted : ∀ text, d.quoted? = some text → text = t.value

def PointsInto (d : Diagnostic) (line : Line) : Prop :=
  ∃ t : Token, t.StandsIn line ∧ d.PointsAt t

section
variable {line : Line} {t : Token} (h : t.StandsIn line) {d : Diagnostic}
include h

theorem pointsInto_of_quoted (hp : d.position? = some t.position) (hq : d.quoted? = some t.value) :
    d.PointsInto line :=
  ⟨t, h, hp, fun _ hs => Option.some.inj (hs.symm.trans hq)⟩

theorem pointsInto_of_silent (hp : d.position? = some t.position) (hq : d.quoted? = none) : d.PointsInto line :=
  ⟨t, h, hp, fun _ hs => by rw [hq] at hs; cases hs⟩

end

end Diagnostic

/-- A step that reads a part of a line gives a result of some kind, or a fault that points into the line. -/
def Line.Reads {α : Type} (line : Line) (P : α → Prop) : Except Diagnostic α → Prop
  | .ok a => P a
  | .error d => d.PointsInto line

theorem Line.Reads.bind {α β : Type} {line : Line} {P : α → Prop} {Q : β → Prop} {x : Except Diagnostic α}
    {f : α → Except Diagnostic β} (hx : line.Reads P x) (hf : ∀ a, P a → line.Reads Q (f a)) :
    line.Reads Q (x >>= f) := by
  cases x with
  | error d => exact hx
  | ok a => exact hf a hx

/-! ## Lines -/

structure Statement.StandsIn (s : Statement) (line : Line) : Prop where
  label : ∀ label, s.label = some label → label.StandsIn line
  keyword : s.keyword.StandsIn line
  args : s.args.StandsIn line

def ParsedLine.StandsIn (line : Line) : ParsedLine → Prop
  | .blank | .comment => True
  | .labelOnly label => label.StandsIn line
  | .statement s => s.StandsIn line

theorem Token.reads_literal {line : Line} {t : Token} (h : t.StandsIn line) :
    line.Reads (fun _ => True) t.literal := by
  unfold literal
  split
  · exact Diagnostic.pointsInto_of_silent h rfl rfl
  · split
    · trivial
    · exact Diagnostic.pointsInto_of_quoted h rfl rfl
    · exact Diagnostic.pointsInto_of_silent h rfl rfl

namespace Statement

variable {line : Line} {code : Token} (h : code.StandsIn line)

section
include h

theorem reads_checkLabel : line.Reads (fun _ => True) (checkLabel code) := by
  unfold checkLabel
  split
  · exact Diagnostic.pointsInto_of_quoted h rfl rfl
  · split
    · exact Diagnostic.pointsInto_of_quoted h rfl rfl
    · trivial

theorem reads_splitLabel :
    line.Reads (fun r => (∀ label, r.1 = some label → label.StandsIn line) ∧ r.2.StandsIn line)
      (splitLabel code) := by
  unfold splitLabel
  split
  · exact ⟨by rintro _ ⟨⟩, h⟩
  · rename_i n hn
    have hlt : n < code.value.length := by
      unfold labelSize? at hn
      dsimp only at hn
      split at hn
      · cases hn
        simp_all
      · cases hn
    have hlabel := h.slice (Nat.zero_le _) n
    refine (reads_checkLabel hlabel).bind fun _ _ => ⟨?_, h.sliceFrom hlt⟩
    rintro _ ⟨⟩
    exact hlabel

theorem reads_readDirective {label : Option Token} (hl : ∀ t, label = some t → t.StandsIn line)
    (hne : code.value ≠ []) (number : Int) :
    line.Reads (·.StandsIn line) (readDirective number label code) := by
  have hrest := h.sliceFrom (List.length_pos_iff.mpr hne)
  obtain ⟨hkeyword, hargs⟩ := hrest.headRest
  unfold readDirective
  dsimp only
  split
  · exact Diagnostic.pointsInto_of_silent h rfl rfl
  · split
    · exact Diagnostic.pointsInto_of_quoted hkeyword rfl rfl
    · exact ⟨hl, hkeyword, hargs⟩

theorem standsIn_readInstruction {label : Option Token} (hl : ∀ t, label = some t → t.StandsIn line)
    (number : Int) : (readInstruction number label code).StandsIn line :=
  ⟨hl, h.headRest.1, h.headRest.2⟩

theorem reads_readCode (number : Int) : line.Reads (ParsedLine.StandsIn line) (readCode number code) := by
  refine (reads_splitLabel h).bind fun r hr => ?_
  obtain ⟨label, body⟩ := r
  obtain ⟨hl, hbody⟩ := hr
  dsimp only at hl hbody ⊢
  split
  · exact hl _ rfl
  · rename_i b t hb
    split
    · exact (reads_readDirective hbody hl (by simp [hb]) number).bind fun s hs => hs
    · exact standsIn_readInstruction hbody hl number
  · trivial

end

end Statement

theorem Line.reads_parse (line : Line) : line.Reads (ParsedLine.StandsIn line) line.parse := by
  have hwhole := Token.standsIn_ofLine line
  unfold parse
  dsimp only
  split
  · trivial
  · split
    · trivial
    · exact Statement.reads_readCode (hwhole.slice (Nat.zero_le _) _) line.number

/-! ## Data -/

namespace Data

variable {line : Line} {d : Diagnostic}

theorem pointsInto_literals {items : List Token} (h : ∀ t ∈ items, t.StandsIn line)
    (hd : d ∈ (literals items).faults) : d.PointsInto line := by
  obtain ⟨r, hr, hf⟩ := List.mem_filterMap.mp hd
  obtain ⟨t, ht, rfl⟩ := List.mem_map.mp hr
  have hread := Token.reads_literal (h t ht)
  cases hl : t.literal with
  | ok w =>
      rw [hl] at hf
      cases hf
  | error e =>
      rw [hl] at hf hread
      cases hf
      exact hread

theorem pointsInto_cells {count : Nat} {items : List Token} (h : ∀ t ∈ items, t.StandsIn line)
    (hd : d ∈ (cells count items).faults) : d.PointsInto line := by
  rcases List.mem_append.mp hd with hd | hd
  · exact pointsInto_literals (fun t ht => h t (List.mem_of_mem_take ht)) hd
  · split at hd
    · cases hd
    · rename_i item rest hrest
      have hitem : item ∈ items := List.mem_of_mem_drop (hrest ▸ List.mem_cons_self)
      rw [List.mem_singleton.mp hd]
      exact Diagnostic.pointsInto_of_silent (h item hitem) rfl rfl

section
variable {args : Token} (h : args.StandsIn line)
include h

theorem pointsInto_numbers (hd : d ∈ (numbers args).faults) : d.PointsInto line := by
  unfold numbers at hd
  split at hd
  · rw [List.mem_singleton.mp hd]
    exact Diagnostic.pointsInto_of_silent h rfl rfl
  · exact pointsInto_literals (h.split _) hd

theorem pointsInto_string (hd : d ∈ (string args).faults) : d.PointsInto line := by
  unfold string at hd
  split at hd
  · rw [List.mem_singleton.mp hd]
    exact Diagnostic.pointsInto_of_silent h rfl rfl
  · cases hd

theorem pointsInto_matrix (hd : d ∈ (matrix args).faults) : d.PointsInto line := by
  unfold matrix at hd
  split at hd
  · rw [List.mem_singleton.mp hd]
    exact Diagnostic.pointsInto_of_silent h rfl rfl
  · rename_i rows columns rest hm
    have hheader : (args.slice 0 (args.value.length - rest.length)).StandsIn line := h.slice (Nat.zero_le _) _
    dsimp only at hd
    split at hd
    · split at hd
      · obtain ⟨gap, hv, -⟩ := matrixHeader?_eq_some.mp hm
        have hsize := congrArg List.length hv
        rw [List.length_append] at hsize
        have hvalues : (args.piece (args.value.length - rest.length) rest).StandsIn line :=
          h.piece (hv.trans (by rw [List.append_nil])) (by omega)
        exact pointsInto_cells hvalues.arguments hd
      · have hwant : Text.of "<=" ++ Text.ofNat Memory.size ++ Text.of " cells" ≠ Text.of "[-32768, 32767]" := by
          decide
        rw [List.mem_singleton.mp hd]
        exact Diagnostic.pointsInto_of_silent hheader rfl (by rw [Diagnostic.quoted?, if_neg hwant])
    · rw [List.mem_singleton.mp hd]
      exact Diagnostic.pointsInto_of_silent hheader rfl rfl

theorem pointsInto_contents {directive : Directive} (hd : d ∈ (contents directive args).faults) :
    d.PointsInto line := by
  cases directive with
  | data => exact pointsInto_numbers h hd
  | string => exact pointsInto_string h hd
  | mat => exact pointsInto_matrix h hd
  | entry => cases hd
  | external => cases hd

end

end Data

/-! ## Operands -/

namespace Operand

variable {line : Line} {t : Token} (h : t.StandsIn line) (table : SymbolTable)
include h

theorem reads_target : line.Reads (fun _ => True) (target table t) := by
  unfold target
  split
  · exact Diagnostic.pointsInto_of_quoted h rfl rfl
  · trivial

theorem reads_readRegister : line.Reads (fun _ => True) (readRegister t) := by
  unfold readRegister
  split
  · trivial
  · exact Diagnostic.pointsInto_of_silent h rfl rfl

theorem reads_matrix {shape : Shape} (hs : Shape.matrix? t = some shape) :
    line.Reads (fun _ => True) (ofShape table shape) := by
  obtain ⟨label, row, column, hv, -, -, -, -, rfl⟩ := Shape.matrix?_eq_some.mp hs
  have hlabel : t.value = [] ++ (label ++ (row.inBrackets ++ column.inBrackets)) := hv
  have hrow : t.value = label ++ ['['.toUInt8] ++ (row ++ ']'.toUInt8 :: column.inBrackets) := by
    simp [hv, Shape.matrixText, Text.inBrackets]
  have hcolumn : t.value = label ++ row.inBrackets ++ ['['.toUInt8] ++ (column ++ [']'.toUInt8]) := by
    simp [hv, Shape.matrixText, Text.inBrackets]
  refine (reads_readRegister (h.piece hrow (by simp))).bind fun _ _ => ?_
  refine (reads_readRegister (h.piece hcolumn (by simp [Text.inBrackets, Nat.add_assoc]))).bind fun _ _ => ?_
  exact (reads_target (h.piece hlabel rfl) table).bind fun _ _ => trivial

theorem reads_ofToken : line.Reads (fun _ => True) (ofToken table t) := by
  unfold ofToken
  split
  · exact Diagnostic.pointsInto_of_silent h rfl rfl
  · rename_i hne
    unfold Shape.ofToken
    split
    · have hpos : 1 ≤ t.value.length := List.length_pos_iff.mpr (by simpa using hne)
      exact (Token.reads_literal (h.sliceFrom hpos)).bind fun _ _ => trivial
    · split
      · trivial
      · cases hm : Shape.matrix? t with
        | some shape => exact reads_matrix h table hm
        | none => exact (reads_target h table).bind fun _ _ => trivial

end Operand

namespace Instruction

variable {line : Line} {table : SymbolTable} {ds : List Diagnostic} {d : Diagnostic}

theorem pointsInto_resolve {ts : List Token} (h : ∀ t ∈ ts, t.StandsIn line)
    (he : resolve table ts = .error ds) (hd : d ∈ ds) : d.PointsInto line := by
  induction ts generalizing ds with
  | nil => cases he
  | cons t ts ih =>
      obtain ⟨ht, hts⟩ := List.forall_mem_cons.mp h
      have hread := Operand.reads_ofToken ht table
      rw [resolve] at he
      split at he
      · cases he
      · rename_i hrest
        cases he
        exact ih hts hrest hd
      · rename_i hfirst _
        cases he
        rw [hfirst] at hread
        rw [List.mem_singleton.mp hd]
        exact hread
      · rename_i hfirst hrest
        cases he
        rw [hfirst] at hread
        rcases List.mem_cons.mp hd with rfl | hd
        · exact hread
        · exact ih hts hrest hd

theorem pointsInto_encode {pc : Word} {op : Option Opcode} {keyword args : Token} (hk : keyword.StandsIn line)
    (ha : args.StandsIn line) (he : encode table pc op keyword args = .error ds) (hd : d ∈ ds) :
    d.PointsInto line := by
  unfold encode at he
  split at he
  · cases he
    rw [List.mem_singleton.mp hd]
    exact Diagnostic.pointsInto_of_quoted hk rfl rfl
  · dsimp only at he
    split at he
    · split at he
      · cases he
      · rename_i hr
        cases he
        exact pointsInto_resolve ha.arguments hr hd
    · cases he
      rw [List.mem_singleton.mp hd]
      exact Diagnostic.pointsInto_of_silent hk rfl rfl

end Instruction

/-! ## Statements -/

section
variable {line : Line} {d : Diagnostic}

theorem Statement.pointsInto_ownFaults {s : Statement} (h : s.StandsIn line) (hd : d ∈ s.ownFaults) :
    d.PointsInto line := by
  unfold ownFaults at hd
  split at hd
  · cases hd
  · split at hd
    · rw [List.mem_singleton.mp hd]
      exact Diagnostic.pointsInto_of_silent h.args rfl rfl
    · have hread := reads_checkLabel h.args
      split at hd
      · rename_i e he
        rw [he] at hread
        rw [List.mem_singleton.mp hd]
        exact hread
      · cases hd
  · exact Data.pointsInto_contents h.args hd

theorem Statement.pointsInto_entryFault {table : SymbolTable} {s : Statement} (h : s.StandsIn line)
    (hd : s.entryFault? table = some d) : d.PointsInto line := by
  unfold entryFault? at hd
  split at hd
  · split at hd
    · cases hd
      exact Diagnostic.pointsInto_of_silent h.args rfl rfl
    · split at hd
      · cases hd
        exact Diagnostic.pointsInto_of_quoted h.args rfl rfl
      · split at hd <;> cases hd
        exact Diagnostic.pointsInto_of_quoted h.args rfl rfl
  · cases hd

theorem SymbolTable.mem_clashes {table : SymbolTable} {symbols : List Symbol} (hd : d ∈ table.clashes symbols) :
    ∃ s ∈ symbols, d = .redeclaredLabel s.position s.name := by
  induction symbols generalizing table with
  | nil => cases hd
  | cons s symbols ih =>
      rcases List.mem_append.mp hd with hd | hd
      · split at hd
        · exact ⟨s, List.mem_cons_self, List.mem_singleton.mp hd⟩
        · cases hd
      · obtain ⟨t, ht, hd⟩ := ih hd
        exact ⟨t, List.mem_cons_of_mem s ht, hd⟩

namespace Placed

variable {p : Placed} (h : p.statement.StandsIn line)
include h

theorem pointsInto_clashes {table : SymbolTable} (hd : d ∈ table.clashes p.definitions) : d.PointsInto line := by
  obtain ⟨s, hs, rfl⟩ := SymbolTable.mem_clashes hd
  rcases List.mem_append.mp hs with hs | hs
  · obtain ⟨label, hl, rfl⟩ := List.mem_map.mp hs
    have hlabel := h.label label (Option.mem_toList.mp hl)
    unfold labelSymbol
    split
    · exact Diagnostic.pointsInto_of_quoted hlabel rfl rfl
    · exact Diagnostic.pointsInto_of_quoted hlabel rfl rfl
  · obtain ⟨name, hn, rfl⟩ := List.mem_map.mp hs
    obtain ⟨-, -, rfl⟩ := Statement.external?_eq_some.mp (Option.mem_toList.mp hn)
    exact Diagnostic.pointsInto_of_quoted h.args rfl rfl

theorem pointsInto_faults {table : SymbolTable} (hd : d ∈ p.faults table) : d.PointsInto line := by
  unfold faults at hd
  split at hd
  · exact Statement.pointsInto_entryFault h (Option.mem_toList.mp hd)
  · rename_i ds he
    unfold encoded at he
    split at he
    · exact Instruction.pointsInto_encode h.keyword h.args he hd
    · cases he

end Placed

end

/-! ## Both passes -/

theorem Line.statement_standsIn {line : Line} {s : Statement} (h : line.statement? = some s) : s.StandsIn line := by
  have hread := line.reads_parse
  unfold statement? at h
  split at h
  · rename_i hp
    cases h
    rw [hp] at hread
    exact hread
  · cases h

/-- What the first pass has to say points into the lines read so far. -/
structure Layout.PointsInto (l : Layout) (lines : List Line) : Prop where
  errors : ∀ d ∈ l.errors, ∃ line ∈ lines, d.PointsInto line
  warnings : ∀ d ∈ l.warnings, ∃ line ∈ lines, d.PointsInto line

namespace Layout

section
variable {l : Layout} {lines : List Line} (h : l.PointsInto lines)
include h

theorem PointsInto.add {l' : Layout} {line : Line} {errors warnings : List Diagnostic}
    (he : l'.errors.toList = l.errors.toList ++ errors) (hw : l'.warnings.toList = l.warnings.toList ++ warnings)
    (herrors : ∀ d ∈ errors, d.PointsInto line) (hwarnings : ∀ d ∈ warnings, d.PointsInto line) :
    l'.PointsInto (lines ++ [line]) := by
  have hstep : ∀ {old new : List Diagnostic}, (∀ d ∈ old, ∃ l ∈ lines, d.PointsInto l) →
      (∀ d ∈ new, d.PointsInto line) → ∀ d ∈ old ++ new, ∃ l ∈ lines ++ [line], d.PointsInto l := by
    intro old new hold hnew d hd
    rcases List.mem_append.mp hd with hd | hd
    · obtain ⟨l, hl, hd⟩ := hold d hd
      exact ⟨l, List.mem_append_left _ hl, hd⟩
    · exact ⟨line, List.mem_append_right _ (List.mem_singleton_self line), hnew d hd⟩
  constructor
  · intro d hd
    rw [← Array.mem_toList_iff, he] at hd
    exact hstep (fun d hd => h.errors d (Array.mem_toList_iff.mp hd)) herrors d hd
  · intro d hd
    rw [← Array.mem_toList_iff, hw] at hd
    exact hstep (fun d hd => h.warnings d (Array.mem_toList_iff.mp hd)) hwarnings d hd

theorem PointsInto.addLine (line : Line) : (l.addLine line).PointsInto (lines ++ [line]) := by
  have hread := line.reads_parse
  have hnone : ∀ d ∈ ([] : List Diagnostic), d.PointsInto line := fun d hd => absurd hd List.not_mem_nil
  unfold Layout.addLine
  cases hp : line.parse with
  | error d =>
      rw [hp] at hread
      exact h.add (by simp [fail]) (List.append_nil _).symm (List.forall_mem_singleton.mpr hread) hnone
  | ok parsed =>
      rw [hp] at hread
      cases parsed with
      | blank => exact h.add (List.append_nil _).symm (List.append_nil _).symm hnone hnone
      | comment => exact h.add (List.append_nil _).symm (List.append_nil _).symm hnone hnone
      | labelOnly label =>
          have hwarning := Diagnostic.pointsInto_of_quoted (d := .ignoredLabel label.position label.value) hread rfl rfl
          exact h.add (List.append_nil _).symm (by simp) hnone (List.forall_mem_singleton.mpr hwarning)
      | statement s =>
          have hs : s.StandsIn line := hread
          dsimp only
          rw [addStatement_eq]
          refine h.add Array.toList_appendList (List.append_nil _).symm (fun d hd => ?_) hnone
          rcases List.mem_append.mp hd with hd | hd
          · exact Placed.pointsInto_clashes (p := ⟨l.codeSize, l.data.size, s⟩) hs hd
          · exact Statement.pointsInto_ownFaults hs hd

end

theorem pointsInto_ofLines (lines : List Line) : (ofLines lines).PointsInto lines := by
  induction lines using List.reverseRecOn with
  | nil => exact ⟨fun d hd => absurd hd (Array.not_mem_empty d), fun d hd => absurd hd (Array.not_mem_empty d)⟩
  | append_singleton lines line ih =>
      rw [ofLines_append_singleton]
      exact ih.addLine line

end Layout

namespace Assembly

variable {lines : List Line} {d : Diagnostic}

theorem pointsInto_of_error (hd : d ∈ (ofLines lines).errors) :
    d = .oversizedImage Memory.room (Layout.ofLines lines).size ∨ ∃ line ∈ lines, d.PointsInto line := by
  have hfirst := (Layout.pointsInto_ofLines lines).errors
  by_cases h : Statement.Fits (Statement.ofLines lines)
  · rw [errors_ofLines h, List.mem_append, Array.mem_toList_iff] at hd
    rcases hd with hd | hd
    · exact Or.inr (hfirst d hd)
    · obtain ⟨p, hp, hd⟩ := List.mem_flatMap.mp hd
      obtain ⟨line, hline, hs⟩ := List.mem_filterMap.mp (Placed.statement_mem hp)
      exact Or.inr ⟨line, hline, Placed.pointsInto_faults (Line.statement_standsIn hs) hd⟩
  · rw [errors_ofLines_of_not_fits h, List.mem_append, Array.mem_toList_iff, List.mem_singleton] at hd
    exact hd.symm.imp_right (hfirst d)

theorem pointsInto_of_warning (hd : d ∈ (ofLines lines).program.warnings) : ∃ line ∈ lines, d.PointsInto line := by
  have hwarnings : (ofLines lines).program.warnings = (Layout.ofLines lines).warnings.toList := by
    by_cases h : Statement.Fits (Statement.ofLines lines)
    · rw [program_ofLines h]
    · rw [program_ofLines_of_not_fits h]
  rw [hwarnings, Array.mem_toList_iff] at hd
  exact (Layout.pointsInto_ofLines lines).warnings d hd

end Assembly

end TwoPass
