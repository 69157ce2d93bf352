import Mathlib
import TwoPass.Assembly.Program
import TwoPass.Report.Excerpt
import TwoPass.Proofs.Numerals
import TwoPass.Proofs.Utf8

/-!
Marks below a source line. Spans count bytes, while a terminal gives each character a column, so a mark
stands below its text only if no character up to the end of it takes more than one byte.
-/
namespace TwoPass

/-! ## Characters and their bytes -/

namespace Text

/-- The bytes of some characters. -/
def ofChars (cs : List Char) : Text :=
  cs.flatMap encodeChar

/-- The bytes of some characters that are not the first of theirs. -/
def surplus (cs : List Char) : Nat :=
  (ofChars cs).length - cs.length

theorem chars?_ofChars (cs : List Char) : (ofChars cs).chars? = some cs :=
  chars?_eq_some.mpr rfl

theorem ofChars_append (cs ds : List Char) : ofChars (cs ++ ds) = ofChars cs ++ ofChars ds :=
  List.flatMap_append

theorem encodeChar_of_ascii {c : Char} (h : c.toNat < 0x80) : encodeChar c = [c.toUInt8] := by
  simp only [encodeChar, h, ↓reduceIte]
  rfl

theorem ofChars_of_ascii {cs : List Char} (h : ∀ c ∈ cs, c.toNat < 0x80) : ofChars cs = cs.map Char.toUInt8 := by
  induction cs with
  | nil => rfl
  | cons c cs ih =>
      rw [ofChars, List.flatMap_cons, encodeChar_of_ascii (h c List.mem_cons_self)]
      exact congrArg _ (ih fun c hc => h c (List.mem_cons_of_mem _ hc))

theorem length_encodeChar_eq_one {c : Char} : (encodeChar c).length = 1 ↔ c.toNat < 0x80 := by
  unfold encodeChar
  dsimp only
  split_ifs with h <;> simp [h]

theorem surplus_spec (cs : List Char) :
    (ofChars cs).length = cs.length + surplus cs ∧ (surplus cs = 0 ↔ ∀ c ∈ cs, c.toNat < 0x80) := by
  suffices h : cs.length ≤ (ofChars cs).length ∧
      ((ofChars cs).length ≤ cs.length ↔ ∀ c ∈ cs, c.toNat < 0x80) by
    unfold surplus
    exact ⟨by omega, Iff.trans (by omega) h.2⟩
  induction cs with
  | nil => simp [ofChars]
  | cons c cs ih =>
      obtain ⟨hle, hascii⟩ := ih
      have hc := length_encodeChar_pos c
      have hlength : (ofChars (c :: cs)).length = (encodeChar c).length + (ofChars cs).length := by
        rw [ofChars, List.flatMap_cons, List.length_append]
        rfl
      rw [List.forall_mem_cons, ← hascii, ← length_encodeChar_eq_one, hlength, List.length_cons]
      omega

end Text

namespace Report

/-! ## Columns -/

/-- The characters that are shown for a line, one in each column. A tab is shown as four spaces. -/
def columns (cs : List Char) : List Char :=
  cs.flatMap fun c => if c = '\t' then List.replicate 4 ' ' else [c]

/-- What parts a shown line from its number. -/
def rule : List Char :=
  [' ', '|', ' ', ' ']

/-- What stands in front of a shown line. -/
def gutter (n : Int) : List Char :=
  ' ' :: Nat.toDigits 10 n.toNat ++ rule

/-- Below a line, the `width` columns from `column` on are marked, and no others. -/
def MarkedAt (below : List Char) (column width : Nat) : Prop :=
  ∃ margin, margin.length = column ∧ (∀ c ∈ margin, c = ' ' ∨ c = '|') ∧ 0 < width ∧
    below = margin ++ '^' :: List.replicate (width - 1) '~'

theorem MarkedAt.unique {below : List Char} {column column' width width' : Nat}
    (h : MarkedAt below column width) (h' : MarkedAt below column' width') : column = column' ∧ width = width' := by
  obtain ⟨margin, rfl, hmargin, hpos, rfl⟩ := h
  obtain ⟨margin', rfl, hmargin', hpos', he⟩ := h'
  have hfront : ∀ (margin : List Char) (rest : List Char), (∀ c ∈ margin, c = ' ' ∨ c = '|') →
      (margin ++ '^' :: rest).takeWhile (· != '^') = margin := by
    intro margin rest hmargin
    rw [List.takeWhile_append_of_pos fun c hc => by rcases hmargin c hc with rfl | rfl <;> rfl]
    exact List.append_nil margin
  have hmargins := congrArg (List.takeWhile (· != '^')) he
  rw [hfront _ _ hmargin, hfront _ _ hmargin'] at hmargins
  subst hmargins
  have hlengths := congrArg List.length (List.append_cancel_left he)
  simp only [List.length_cons, List.length_replicate] at hlengths
  exact ⟨rfl, by omega⟩

theorem columns_append (cs ds : List Char) : columns (cs ++ ds) = columns cs ++ columns ds :=
  List.flatMap_append

theorem columns_of_not_mem {cs : List Char} (h : '\t' ∉ cs) : columns cs = cs := by
  induction cs with
  | nil => rfl
  | cons c cs ih =>
      rw [List.mem_cons, not_or] at h
      obtain ⟨hc, hcs⟩ := h
      rw [columns, List.flatMap_cons, if_neg (Ne.symm hc)]
      exact congrArg (c :: ·) (ih hcs)

theorem expandTabs_encodeChar {c : Char} (h : c ≠ '\t') : expandTabs (Text.encodeChar c) = Text.encodeChar c := by
  have hbyte : ∀ b ∈ Text.encodeChar c, b ≠ '\t'.toUInt8 := by
    rintro b hb rfl
    exact h (Text.eq_ofUInt8_of_mem_encodeChar (by decide) hb)
  unfold expandTabs
  rw [List.flatMap_congr fun b hb => if_neg (hbyte b hb)]
  exact List.flatMap_singleton' _

/-- Tabs are single bytes, and no byte of another character is one. -/
theorem expandTabs_ofChars (cs : List Char) : expandTabs (Text.ofChars cs) = Text.ofChars (columns cs) := by
  induction cs with
  | nil => rfl
  | cons c cs ih =>
      have hcons : expandTabs (Text.ofChars (c :: cs)) =
          expandTabs (Text.encodeChar c) ++ expandTabs (Text.ofChars cs) := List.flatMap_append
      have hchar : expandTabs (Text.encodeChar c) = Text.ofChars (columns [c]) := by
        by_cases hc : c = '\t'
        · subst hc
          decide
        · rw [expandTabs_encodeChar hc, columns_of_not_mem (by simpa using Ne.symm hc)]
          exact (List.append_nil _).symm
      rw [hcons, hchar, ih, ← Text.ofChars_append, ← columns_append]
      rfl

/-- Expanded tabs are ASCII, so they add as many bytes as columns. -/
theorem surplus_columns (cs : List Char) : Text.surplus (columns cs) = Text.surplus cs := by
  have hlength : (Text.ofChars (columns cs)).length + cs.length = (Text.ofChars cs).length + (columns cs).length := by
    induction cs with
    | nil => rfl
    | cons c cs ih =>
        have hchar : (Text.ofChars (columns [c])).length + 1 = (Text.encodeChar c).length + (columns [c]).length := by
          by_cases hc : c = '\t'
          · subst hc
            decide
          · rw [columns_of_not_mem (by simpa using Ne.symm hc)]
            simp [Text.ofChars]
        have hcons : columns (c :: cs) = columns [c] ++ columns cs := columns_append [c] cs
        have hbytes : Text.ofChars (c :: cs) = Text.encodeChar c ++ Text.ofChars cs := rfl
        rw [hcons, hbytes, Text.ofChars_append]
        simp only [List.length_append, List.length_cons]
        omega
  unfold Text.surplus
  omega

/-! ## Excerpts -/

theorem ofChars_gutter {n : Int} (h : 0 ≤ n) :
    Text.ofChars (gutter n) = Text.of " " ++ Text.ofInt n ++ Text.of " |  " := by
  obtain ⟨k, rfl⟩ := Int.eq_ofNat_of_zero_le h
  have hdigits : Text.ofChars (Nat.toDigits 10 k) = Text.ofNat k := by
    refine Text.ofChars_of_ascii fun c hc => ?_
    have hc := Nat.isDigit_of_mem_toDigits (by decide) (by decide) hc
    have hnine : '9'.toNat = 57 := by decide
    rw [Char.isDigit_iff_toNat] at hc
    omega
  have hgutter : gutter (k : Int) = [' '] ++ Nat.toDigits 10 k ++ rule := rfl
  rw [hgutter, Text.ofChars_append, Text.ofChars_append, hdigits]
  rfl

theorem length_gutter {n : Int} (h : 0 ≤ n) : (gutter n).length = (Text.ofInt n).length + 5 := by
  obtain ⟨k, rfl⟩ := Int.eq_ofNat_of_zero_le h
  have hnumber : Text.ofInt (k : Int) = (Nat.toDigits 10 k).map Char.toUInt8 := rfl
  rw [hnumber, List.length_map]
  simp [gutter, rule]

/-- A span that starts behind some characters is marked behind as many columns as these have bytes. -/
theorem underline_ofChars {before rest : List Char} {n : Int} {size : Nat} :
    underline (Text.ofChars (before ++ rest)) ⟨n, (Text.ofChars before).length + 1, size⟩ =
      Text.ofChars (List.replicate ((columns before).length + Text.surplus before) ' ' ++
        '^' :: List.replicate (max 1 size - 1) '~') := by
  have hcolumn : ((Text.ofChars before).length + 1 - 1 : Int) = (Text.ofChars before).length := by omega
  have hbefore : (Text.ofChars (before ++ rest)).take (Text.ofChars before).length = Text.ofChars before := by
    rw [Text.ofChars_append, List.take_left]
  have hin : (0 : Int) ≤ (Text.ofChars before).length ∧
      ((Text.ofChars before).length : Int) ≤ (Text.ofChars (before ++ rest)).length := by
    rw [Text.ofChars_append, List.length_append]
    omega
  have hoffset : (expandTabs (Text.ofChars before)).length = (columns before).length + Text.surplus before := by
    rw [expandTabs_ofChars, (Text.surplus_spec _).1, surplus_columns]
  have hsize : ((size : Int) - 1).toNat = max 1 size - 1 := by omega
  have hascii : ∀ c ∈ List.replicate ((columns before).length + Text.surplus before) ' ' ++
      '^' :: List.replicate (max 1 size - 1) '~', c.toNat < 0x80 := by
    intro c hc
    simp only [List.mem_append, List.mem_cons, List.mem_replicate] at hc
    rcases hc with ⟨-, rfl⟩ | rfl | ⟨-, rfl⟩ <;> decide
  unfold underline
  dsimp only
  rw [hcolumn, if_pos hin, Int.toNat_natCast, hbefore, hoffset, hsize, Text.ofChars_of_ascii hascii,
    List.map_append, List.map_cons, List.map_replicate, List.map_replicate, List.append_assoc]
  rfl

section
variable {listing : Listing} {n : Int} {before token after : List Char}

theorem pos_of_line? {line : Text} (h : listing.line? n = some line) : 1 ≤ n := by
  obtain ⟨i, hi, -⟩ := Option.bind_eq_some_iff.mp h
  unfold Listing.index? at hi
  split at hi
  · assumption
  · cases hi

/-- The line below an excerpt: as many spaces as the gutter and the text have bytes, and the mark. -/
def markLine (n : Int) (before : List Char) (size : Nat) : List Char :=
  List.replicate ((Text.ofInt n).length + 1) ' ' ++ rule ++
    (List.replicate ((columns before).length + Text.surplus before) ' ' ++ '^' :: List.replicate (max 1 size - 1) '~')

theorem markedAt_markLine (hn : 0 ≤ n) (before : List Char) (size : Nat) :
    MarkedAt (markLine n before size) ((gutter n ++ columns before).length + Text.surplus before) (max 1 size) := by
  refine ⟨List.replicate ((Text.ofInt n).length + 1) ' ' ++ rule ++
    List.replicate ((columns before).length + Text.surplus before) ' ', ?_, ?_, by omega, ?_⟩
  · rw [List.length_append, List.length_append, List.length_append, length_gutter hn]
    simp only [List.length_replicate]
    have hrule : rule.length = 4 := rfl
    omega
  · intro c hc
    simp only [List.mem_append, List.mem_replicate] at hc
    rcases hc with (⟨-, rfl⟩ | hc) | ⟨-, rfl⟩
    · exact Or.inl rfl
    · simp only [rule, List.mem_cons, List.not_mem_nil, or_false] at hc
      rcases hc with rfl | rfl | rfl | rfl <;> simp
    · exact Or.inl rfl
  · simp only [markLine, List.append_assoc]

theorem excerpt_ofChars (hline : listing.line? n = some (Text.ofChars (before ++ token ++ after)))
    (hplain : listing.isChanged n = false) (htab : '\t' ∉ token) :
    excerpt listing ⟨n, (Text.ofChars before).length + 1, (Text.ofChars token).length⟩ =
      Text.of "\n" ++ Text.ofChars (gutter n ++ columns before ++ token ++ columns after) ++ Text.of "\n" ++
        Text.ofChars (markLine n before (Text.ofChars token).length) ++ Text.of "\n" := by
  have hn := pos_of_line? hline
  have hupper : Text.ofChars (gutter n ++ columns before ++ token ++ columns after) =
      Text.of " " ++ Text.ofInt n ++ Text.of " |  " ++ expandTabs (Text.ofChars (before ++ token ++ after)) := by
    rw [expandTabs_ofChars, columns_append, columns_append, columns_of_not_mem htab, ← ofChars_gutter (by omega),
      ← Text.ofChars_append]
    simp only [List.append_assoc]
  have hlower : Text.ofChars (markLine n before (Text.ofChars token).length) =
      Text.spaces ((Text.ofInt n).length + 1) ++ Text.of " |  " ++
        underline (Text.ofChars (before ++ (token ++ after)))
          ⟨n, (Text.ofChars before).length + 1, (Text.ofChars token).length⟩ := by
    have hspaces : Text.ofChars (List.replicate ((Text.ofInt n).length + 1) ' ') =
        Text.spaces ((Text.ofInt n).length + 1) := by
      rw [Text.ofChars_of_ascii fun c hc => by rw [List.eq_of_mem_replicate hc]; decide, List.map_replicate]
      rfl
    rw [markLine, Text.ofChars_append, Text.ofChars_append, hspaces, underline_ofChars]
    rfl
  rw [hupper, hlower, ← List.append_assoc before token after]
  unfold excerpt
  rw [hline]
  dsimp only
  rw [hplain, if_neg Bool.false_ne_true]
  have hstart : Text.of "\n " = Text.of "\n" ++ Text.of " " := by decide
  rw [hstart]
  simp only [List.append_assoc]

/-- The mark below a line of UTF-8 text. The source line is shown behind its number with its tabs
expanded. The mark starts as many columns behind the first character of the token as the characters
before it have bytes beyond their first, and it is as wide as the token has bytes. So it stands exactly
below the token if all characters up to the end of the token are ASCII, and only then. -/
theorem mark_below_token_iff {line : Text} {d : Diagnostic} (hline : listing.line? n = some line)
    (hchars : line.chars? = some (before ++ token ++ after)) (htab : '\t' ∉ token)
    (hplain : listing.isChanged n = false)
    (hd : d.position? = some ⟨n, (Text.ofChars before).length + 1, (Text.ofChars token).length⟩)
    (width : Int) (path title : Text) :
    ∃ upper lower : Text, ∃ below : List Char,
      display width path listing title d =
        banner width title path ++ d.message ++ Text.of "\n\n" ++ upper ++ Text.of "\n" ++ lower ++ Text.of "\n" ∧
      upper.chars? = some (gutter n ++ columns before ++ token ++ columns after) ∧ lower.chars? = some below ∧
      MarkedAt below ((gutter n ++ columns before).length + Text.surplus before)
        (max 1 (token.length + Text.surplus token)) ∧
      (MarkedAt below (gutter n ++ columns before).length (max 1 token.length) ↔
        ∀ c ∈ before ++ token, c.toNat < 0x80) := by
  rw [Text.chars?_eq_some] at hchars
  subst hchars
  obtain ⟨-, hbefore⟩ := Text.surplus_spec before
  obtain ⟨hsize, htoken⟩ := Text.surplus_spec token
  have hmarked := markedAt_markLine (Int.le_trans (by decide) (pos_of_line? hline)) before (Text.ofChars token).length
  rw [hsize] at hmarked
  refine ⟨_, _, _, ?_, Text.chars?_ofChars _, Text.chars?_ofChars _, hmarked, ?_⟩
  · unfold display
    rw [hd]
    dsimp only
    rw [excerpt_ofChars hline hplain htab, hsize]
    have hbreak : Text.of "\n\n" = Text.of "\n" ++ Text.of "\n" := by decide
    rw [hbreak]
    simp only [List.append_assoc]
  · rw [List.forall_mem_append, ← hbefore, ← htoken]
    constructor
    · intro h
      obtain ⟨hcolumn, hwidth⟩ := h.unique hmarked
      refine ⟨by omega, ?_⟩
      cases token with
      | nil => rfl
      | cons c cs =>
          rw [List.length_cons] at hwidth
          omega
    · rintro ⟨h₁, h₂⟩
      simpa only [h₁, h₂, Nat.add_zero] using hmarked

end

/-- A label, a tab in front of the operation, and a name that is not defined. -/
def tabbed : List Line :=
  [⟨1, Text.of "x:\tmov Y, r1"⟩]

def tabbedError : Diagnostic :=
  .unknownLabel ⟨1, 8, 1⟩ (Text.of "Y")

theorem tabbed_marked :
    (Assembly.ofLines tabbed).errors = [tabbedError] ∧
      ∃ upper lower : Text, ∃ below : List Char,
        display 80 (Text.of "p.as") (Listing.ofLines tabbed tabbed) (errorTitle tabbedError) tabbedError =
          banner 80 (errorTitle tabbedError) (Text.of "p.as") ++ tabbedError.message ++ Text.of "\n\n" ++ upper ++
            Text.of "\n" ++ lower ++ Text.of "\n" ∧
        upper.chars? = some " 1 |  x:    mov Y, r1".toList ∧ lower.chars? = some below ∧ MarkedAt below 16 1 := by
  have hline : (Listing.ofLines tabbed tabbed).line? 1 = some (Text.of "x:\tmov Y, r1") := by decide +kernel
  have hchars : (Text.of "x:\tmov Y, r1").chars? = some ("x:\tmov ".toList ++ ['Y'] ++ ", r1".toList) := by
    decide +kernel
  have hposition : tabbedError.position? =
      some ⟨1, (Text.ofChars "x:\tmov ".toList).length + 1, (Text.ofChars ['Y']).length⟩ := by decide +kernel
  obtain ⟨upper, lower, below, hdisplay, hupper, hlower, -, hmark⟩ :=
    mark_below_token_iff hline hchars (by decide) (by decide +kernel) hposition 80 (Text.of "p.as")
      (errorTitle tabbedError)
  exact ⟨by decide +kernel, upper, lower, below, hdisplay, hupper.trans (by decide +kernel), hlower,
    hmark.mpr (by simp)⟩

/-- Two names that are not defined, the first of them one character of two bytes. -/
def accented : List Line :=
  [⟨1, Text.of "MOV é, r9"⟩]

/-- The first name is marked as if it were two columns wide, and the mark of the second stands one column
behind it. -/
theorem accented_marked_apart :
    (Assembly.ofLines accented).errors =
        [.unknownLabel ⟨1, 5, 2⟩ (Text.of "é"), .unknownLabel ⟨1, 9, 2⟩ (Text.of "r9")] ∧
      excerpt (Listing.ofLines accented accented) ⟨1, 5, 2⟩ = Text.of "\n 1 |  MOV é, r9\n   |      ^~\n" ∧
      ¬ MarkedAt "   |      ^~".toList (gutter 1 ++ "MOV ".toList).length "é".length ∧
      excerpt (Listing.ofLines accented accented) ⟨1, 9, 2⟩ = Text.of "\n 1 |  MOV é, r9\n   |          ^~\n" ∧
      ¬ MarkedAt "   |          ^~".toList (gutter 1 ++ "MOV é, ".toList).length "r9".length := by
  have hfirst : MarkedAt "   |      ^~".toList 10 2 :=
    ⟨"   |      ".toList, by decide, by simp, by decide, by decide⟩
  have hsecond : MarkedAt "   |          ^~".toList 14 2 :=
    ⟨"   |          ".toList, by decide, by simp, by decide, by decide⟩
  refine ⟨by decide +kernel, by decide +kernel, ?_, by decide +kernel, ?_⟩
  · intro h
    exact absurd (h.unique hfirst).2 (by decide)
  · intro h
    exact absurd (h.unique hsecond).1 (by decide)

end Report

end TwoPass
