import TwoPass.Proofs.Places
import TwoPass.Proofs.Spacing

/-!
Reading by offsets. The definitions here read lines and data as those of the library do, but every byte,
slice and cell is taken by its offset, and an offset out of range ends them with `none`. They always come
to an end, with what the library gives, so no offset that is computed on the way is out of range.
-/
namespace TwoPass

/-! ## Codes that are not empty -/

namespace Text

theorem trimLeft_trimLeft (t : Text) : trimLeft (trimLeft t) = trimLeft t := by
  unfold trimLeft
  fun_induction dropChars isSpace1 isSpace2 isSpace3 t <;> simp_all [dropChars]

theorem trim_trim (t : Text) : trim (trim t) = trim t := by
  have hright : trim (trim t) = trim (trimLeft t) := trim_trimRight (trimLeft t)
  rw [hright, trim, trimLeft_trimLeft, trim]

theorem trimRight_ne_nil {t : Text} (h : trimLeft t ≠ []) : trimRight t ≠ [] := by
  intro hright
  obtain ⟨w, hw, hsplit⟩ := exists_white_trimRight t
  rw [hright, List.nil_append] at hsplit
  exact h (hsplit ▸ hw.trimLeft)

/-- Behind the code of a line there is nothing or a semicolon. -/
theorem drop_codeEnd (t : Text) (quoted : Bool) :
    t.drop (Statement.codeEnd 0 quoted t) = [] ∨ ∃ s, t.drop (Statement.codeEnd 0 quoted t) = ';'.toUInt8 :: s := by
  induction t generalizing quoted with
  | nil => exact Or.inl rfl
  | cons b t ih =>
      have hstep : ∀ quoted, (b :: t).drop (Statement.codeEnd (0 + 1) quoted t) =
          t.drop (Statement.codeEnd 0 quoted t) := by
        intro quoted
        rw [Nat.add_comm, Statement.codeEnd_add, Nat.add_comm, List.drop_succ_cons]
      rw [Statement.codeEnd]
      split
      · rw [hstep]
        exact ih _
      split
      · rename_i hb
        obtain ⟨hb, -⟩ := Bool.and_eq_true_iff.mp hb
        exact Or.inr ⟨t, by rw [of_decide_eq_true hb, List.drop_zero]⟩
      · rw [hstep]
        exact ih _

/-- A line that starts with something else than a semicolon has code, as only white space can be lost from
what stands before its comment. -/
theorem code_ne_nil {t rest : Text} {b : UInt8} (h : t.trim = b :: rest) (hb : b ≠ ';'.toUInt8) : t.code ≠ [] := by
  have hsplit := List.take_append_drop (Statement.codeEnd 0 false t) t
  rw [code]
  rcases drop_codeEnd t false with hnil | ⟨s, hs⟩
  · rw [hnil, List.append_nil] at hsplit
    rw [hsplit, h]
    exact List.cons_ne_nil b rest
  · rw [hs] at hsplit
    have hleft := trimLeft_append_cons (show isInk ';'.toUInt8 = true by decide) s
      (t.take (Statement.codeEnd 0 false t))
    rw [hsplit] at hleft
    refine trimRight_ne_nil ?_
    rw [trimLeft_trimLeft]
    intro hfront
    rw [hfront, List.nil_append] at hleft
    rw [trim, hleft, ← List.nil_append (';'.toUInt8 :: s), trimRight_append_cons (by decide)] at h
    exact hb (List.cons.inj h).1.symm

end Text

namespace Strict

/-! ## Accesses -/

/-- The item at an offset. -/
def item {α : Type} (l : List α) (i : Int) : Option α :=
  if 0 ≤ i then l[i.toNat]? else none

/-- Replaces the item at an offset. -/
def store {α : Type} (l : List α) (i : Int) (a : α) : Option (List α) :=
  if 0 ≤ i ∧ i < l.length then some (l.set i.toNat a) else none

/-- The bytes from one offset up to another, which must not stand before it. -/
def slice (t : Text) (start stop : Int) : Option Text :=
  if 0 ≤ start ∧ start ≤ stop ∧ stop ≤ t.length then some ((t.drop start.toNat).take (stop - start).toNat)
  else none

/-- So many times the same byte. -/
def fill (n : Int) (b : UInt8) : Option Text :=
  if 0 ≤ n then some (List.replicate n.toNat b) else none

/-- The offset of the first such byte, or -1 if there is none. -/
def firstIndex (b : UInt8) (t : Text) : Int :=
  if t.contains b then t.idxOf b else -1

/-- The offset of the last such byte, or -1 if there is none. -/
def lastIndex (b : UInt8) (t : Text) : Int :=
  if t.contains b then t.length - 1 - t.reverse.idxOf b else -1

example : slice (Text.of "ab") 1 3 = none ∧ slice (Text.of "ab") (-1) 1 = none ∧ slice (Text.of "ab") 2 1 = none ∧
    item (Text.of "ab") 2 = none ∧ fill (-1) 0 = none := by
  decide

theorem item_append {α : Type} (front : List α) (a : α) (back : List α) :
    item (front ++ a :: back) front.length = some a := by
  simp [item]

theorem item_zero {α : Type} (a : α) (l : List α) : item (a :: l) 0 = some a := rfl

theorem slice_append (front s back : Text) :
    slice (front ++ (s ++ back)) front.length (front.length + s.length) = some s := by
  have hin : (0 : Int) ≤ front.length ∧ (front.length : Int) ≤ front.length + s.length ∧
      (front.length + s.length : Int) ≤ (front ++ (s ++ back)).length := by
    simp only [List.length_append]
    omega
  have hsize : ((front.length : Int) + s.length - front.length).toNat = s.length := by omega
  rw [slice, if_pos hin, Int.toNat_natCast, List.drop_left, hsize, List.take_left]

theorem fill_natCast (n : Nat) (b : UInt8) : fill n b = some (List.replicate n b) := by
  simp [fill]

theorem firstIndex_append {b : UInt8} {front : Text} (h : b ∉ front) (back : Text) :
    firstIndex b (front ++ b :: back) = front.length := by
  have hmem : (front ++ b :: back).contains b = true := by simp
  rw [firstIndex, if_pos hmem, List.idxOf_append_of_notMem h, List.idxOf_cons_self, Nat.add_zero]

theorem lastIndex_append {b : UInt8} {back : Text} (h : b ∉ back) (front : Text) :
    lastIndex b (front ++ b :: back) = front.length := by
  have hmem : (front ++ b :: back).contains b = true := by simp
  have hindex : (front ++ b :: back).reverse.idxOf b = back.length := by
    rw [List.reverse_append, List.reverse_cons, List.append_assoc,
      List.idxOf_append_of_notMem (mt List.mem_reverse.mp h), List.singleton_append, List.idxOf_cons_self,
      Nat.add_zero, List.length_reverse]
  rw [lastIndex, if_pos hmem, hindex, List.length_append, List.length_cons]
  omega

theorem firstIndex_of_not_mem {b : UInt8} {t : Text} (h : b ∉ t) : firstIndex b t = -1 := by
  rw [firstIndex, if_neg (by simpa using h)]

/-! ## Tokens -/

/-- The piece of a token from one offset up to another, trimmed. -/
def cut (t : Token) (start stop : Int) : Option Token := do
  let s ← slice t.value start stop
  return t.piece start.toNat s

def headRest (t : Token) : Option (Token × Token) :=
  match t.value.spaceIndex? with
  | some i => do return (← cut t 0 i, ← cut t i t.value.length)
  | none => do return (t, ← cut t t.value.length t.value.length)

/-- Goes on from the offset `start` of a piece through a list of offsets. A piece ends before a separator and
at the end of the token. -/
def splitFrom (t : Token) (sep : UInt8) (start : Nat) : List Nat → Option (List Token)
  | [] => some []
  | i :: is => do
    let ends ← if i = t.value.length then some true else (item t.value i).map (· == sep)
    if ends then return (← cut t start i) :: (← splitFrom t sep (i + 1) is)
    else splitFrom t sep start is

def split (t : Token) (sep : UInt8) : Option (List Token) :=
  splitFrom t sep 0 (List.range' 0 (t.value.length + 1))

/-- The tokens between commas. An empty text has none. -/
def arguments (t : Token) : Option (List Token) :=
  if t.value.isEmpty then some [] else split t ','.toUInt8

section
variable {t : Token}

theorem cut_append {front s back : Text} (h : t.value = front ++ (s ++ back)) :
    cut t front.length (front.length + s.length) = some (t.piece front.length s) := by
  rw [cut, h, slice_append]
  rfl

theorem cut_eq_slice {start stop : Nat} (h : start ≤ stop) (hstop : stop ≤ t.value.length) :
    cut t start stop = some (t.slice start stop) := by
  have hin : (0 : Int) ≤ start ∧ (start : Int) ≤ stop ∧ (stop : Int) ≤ t.value.length := by omega
  have hsize : ((stop : Int) - start).toNat = stop - start := by omega
  rw [cut, slice, if_pos hin, Int.toNat_natCast, hsize]
  rfl

theorem cut_zero {stop : Nat} (h : stop ≤ t.value.length) : cut t 0 stop = some (t.slice 0 stop) :=
  cut_eq_slice (Nat.zero_le stop) h

theorem cut_eq_sliceFrom {start : Nat} (h : start ≤ t.value.length) :
    cut t start t.value.length = some (t.sliceFrom start) := by
  rw [cut_eq_slice h le_rfl, Token.slice, Token.sliceFrom, List.take_of_length_le (by simp)]

theorem headRest_eq (t : Token) : headRest t = some t.headRest := by
  cases hi : t.value.spaceIndex? with
  | some i =>
      have hle := Text.spaceIndexFrom_le hi
      rw [Nat.zero_add] at hle
      rw [headRest, Token.headRest, hi]
      dsimp only
      rw [cut_zero hle, cut_eq_sliceFrom hle]
      rfl
  | none =>
      rw [headRest, Token.headRest, hi]
      dsimp only
      rw [cut_eq_sliceFrom le_rfl]
      rfl

end

/-- The tokens of texts that stand one behind the other, with a byte between them. -/
def piecesFrom (t : Token) (start : Nat) : List Text → List Token
  | [] => []
  | s :: pieces => t.piece start s :: piecesFrom t (start + s.length + 1) pieces

theorem split_eq_piecesFrom (t : Token) (sep : UInt8) : t.split sep = piecesFrom t 0 (t.value.splitOn sep) := by
  have hfold : ∀ (pieces : List Text) (start : Nat) (tokens : Array Token),
      (pieces.foldl (fun acc s => (acc.1 + s.length + 1, acc.2.push (t.piece acc.1 s))) (start, tokens)).2.toList =
        tokens.toList ++ piecesFrom t start pieces := by
    intro pieces
    induction pieces with
    | nil => simp [piecesFrom]
    | cons s pieces ih => intro start tokens; simp [ih, piecesFrom]
  exact hfold (t.value.splitOn sep) 0 #[]

/-- The loop stands behind `front` and the part `piece` of a piece, and what it cuts off next starts with that
part. -/
theorem splitFrom_eq {t : Token} {sep : UInt8} (rest front piece : Text) (hv : t.value = front ++ (piece ++ rest))
    (hpiece : sep ∉ piece) :
    splitFrom t sep front.length (List.range' (front.length + piece.length) (rest.length + 1)) =
      some (piecesFrom t front.length ((piece ++ rest).splitOn sep)) := by
  induction rest generalizing front piece with
  | nil =>
      have hend : front.length + piece.length = t.value.length := by rw [hv]; simp
      have hcut := cut_append hv
      rw [List.range'_succ, splitFrom, if_pos hend, List.append_nil, Text.splitOn_of_not_mem hpiece]
      simp [hcut, splitFrom, piecesFrom]
  | cons b rest ih =>
      have hin : front.length + piece.length ≠ t.value.length := by
        rw [hv]
        simp only [List.length_append, List.length_cons]
        omega
      have hitem : item t.value (front.length + piece.length : Nat) = some b := by
        rw [hv, ← List.append_assoc, ← List.length_append]
        exact item_append _ b rest
      rw [List.range'_succ, splitFrom, if_neg hin, hitem]
      by_cases hb : b = sep
      · subst hb
        have hnext := ih (front ++ piece ++ [b]) [] (by simp [hv]) List.not_mem_nil
        have hcut := cut_append hv
        rw [Text.splitOn_append hpiece, piecesFrom]
        simp only [List.length_append, List.length_singleton, List.length_nil, Nat.add_zero, List.nil_append] at hnext
        simp [hcut, hnext]
      · have hnext := ih front (piece ++ [b]) (by simp [hv])
          (by simp only [List.mem_append, List.mem_singleton, not_or]; exact ⟨hpiece, Ne.symm hb⟩)
        simp only [List.length_append, List.length_singleton, List.append_assoc, List.singleton_append,
          ← Nat.add_assoc] at hnext
        simp [hb, hnext]

theorem split_eq (t : Token) (sep : UInt8) : split t sep = some (t.split sep) := by
  rw [split_eq_piecesFrom]
  exact splitFrom_eq t.value [] [] rfl List.not_mem_nil

theorem arguments_eq (t : Token) :
    arguments t = some (if t.value.isEmpty then [] else t.split ','.toUInt8) := by
  rw [arguments, split_eq]
  split_ifs <;> rfl

/-! ## Lines -/

/-- Goes through the offsets of a text up to a semicolon outside of quotes. -/
def codeEndFrom (t : Text) (quoted : Bool) : List Nat → Option Nat
  | [] => some t.length
  | i :: is => do
    let b ← item t i
    if b = '"'.toUInt8 then codeEndFrom t (!quoted) is
    else if b = ';'.toUInt8 && !quoted then return i
    else codeEndFrom t quoted is

def codeEnd (t : Text) : Option Nat :=
  codeEndFrom t false (List.range' 0 t.length)

/-- The label is what stands before the first colon, which is only cut off if there is one. -/
def splitLabel (code : Token) : Option (Except Diagnostic (Option Token × Token)) :=
  let colon := firstIndex ':'.toUInt8 code.value
  if 0 < colon then do
    let head ← slice code.value 0 colon
    if head.all (fun b => !Text.isBlank b && b != '"'.toUInt8) then
      let label ← cut code 0 colon
      match Statement.checkLabel label with
      | .error d => return .error d
      | .ok () => return .ok (some label, ← cut code (colon + 1) code.value.length)
    else return .ok (none, code)
  else some (.ok (none, code))

/-- The statement of a directive whose name and arguments have been read. -/
def directive (line : Int) (label : Option Token) (code keyword args : Token) : Except Diagnostic Statement :=
  if keyword.value.isEmpty then .error (.missingDirective code.position)
  else match Directive.parse? keyword.value with
    | none => .error (.unknownDirective keyword.position keyword.value)
    | some d => .ok { line, label, action := .directive d, keyword, args }

def instruction (line : Int) (label : Option Token) (keyword args : Token) : Statement :=
  { line, label, action := .instruction (Opcode.parse? keyword.value), keyword, args }

/-- Reads code by its first byte, so there has to be one. -/
def readStatement (line : Int) (label : Option Token) (code : Token) :
    Option (Except Diagnostic ParsedLine) := do
  if (← item code.value 0) = '.'.toUInt8 then
    let words ← headRest (← cut code 1 code.value.length)
    return (directive line label code words.1 words.2).map .statement
  else
    let words ← headRest code
    return .ok (.statement (instruction line label words.1 words.2))

def readCode (line : Int) (code : Token) : Option (Except Diagnostic ParsedLine) := do
  match ← splitLabel code with
  | .error d => return .error d
  | .ok (none, code) => readStatement line none code
  | .ok (some label, code) =>
    if code.value.isEmpty then return .ok (.labelOnly label)
    else readStatement line (some label) code

def parse (line : Line) : Option (Except Diagnostic ParsedLine) := do
  let whole := Token.ofLine line
  let trimmed ← cut whole 0 whole.value.length
  if trimmed.value.isEmpty then return .ok .blank
  else if (← item trimmed.value 0) = ';'.toUInt8 then return .ok .comment
  else readCode line.number (← cut whole 0 (← codeEnd whole.value))

theorem codeEnd_eq (t : Text) : codeEnd t = some (Statement.codeEnd 0 false t) := by
  have hfrom : ∀ (rest front : Text) (quoted : Bool), t = front ++ rest →
      codeEndFrom t quoted (List.range' front.length rest.length) =
        some (Statement.codeEnd front.length quoted rest) := by
    intro rest
    induction rest with
    | nil => intro front quoted ht; simp [codeEndFrom, Statement.codeEnd, ht]
    | cons b rest ih =>
        intro front quoted ht
        have hitem : item t front.length = some b := ht ▸ item_append front b rest
        have hnext : ∀ quoted, codeEndFrom t quoted (List.range' (front.length + 1) rest.length) =
            some (Statement.codeEnd (front.length + 1) quoted rest) := by
          intro quoted
          have hstep := ih (front ++ [b]) quoted (by simp [ht])
          rwa [List.length_append, List.length_singleton] at hstep
        rw [List.length_cons, List.range'_succ, codeEndFrom, hitem, Statement.codeEnd]
        simp only [Option.bind_eq_bind, Option.bind_some, hnext]
        split_ifs <;> rfl
  exact hfrom t [] false rfl

theorem splitLabel_eq (code : Token) : splitLabel code = some (Statement.splitLabel code) := by
  by_cases hcolon : ':'.toUInt8 ∈ code.value
  · obtain ⟨front, back, hv, hfront⟩ := List.eq_append_cons_of_mem hcolon
    have hindex : firstIndex ':'.toUInt8 code.value = front.length := by rw [hv, firstIndex_append hfront]
    have htake : code.value.takeWhile (· != ':'.toUInt8) = front :=
      (Text.cut_iff.mpr ⟨hv, Text.forall_ne_iff.mpr hfront, by decide⟩).1
    have hlength : front.length + 1 ≤ code.value.length := by rw [hv]; simp
    have hslice : slice code.value 0 front.length = some front := by
      have happend := slice_append [] front (':'.toUInt8 :: back)
      rwa [List.nil_append, ← hv, List.length_nil, Int.natCast_zero, Int.zero_add] at happend
    have hlabel : cut code 0 front.length = some (code.slice 0 front.length) := cut_zero (by omega)
    have hrest : cut code (front.length + 1) code.value.length = some (code.sliceFrom (front.length + 1)) :=
      cut_eq_sliceFrom hlength
    rw [splitLabel, Statement.splitLabel, Statement.labelSize?, hindex]
    dsimp only
    rw [htake]
    by_cases hempty : front = []
    · simp [hempty]
    · have hpos : 0 < front.length := List.length_pos_iff.mpr hempty
      rw [if_pos (by omega), hslice]
      cases hall : front.all fun b => !Text.isBlank b && b != '"'.toUInt8 with
      | false =>
          rw [Bool.and_false, if_neg Bool.false_ne_true]
          simp only [Option.bind_eq_bind, Option.bind_some, hall, Bool.false_eq_true, if_false]
          rfl
      | true =>
          have hsize : (decide (front.length < code.value.length) && !front.isEmpty && true) = true := by
            simp [hempty]
            omega
          rw [if_pos hsize]
          simp only [Option.bind_eq_bind, Option.bind_some, hall, if_true, hlabel, hrest]
          cases Statement.checkLabel (code.slice 0 front.length) <;> rfl
  · have hindex : firstIndex ':'.toUInt8 code.value = -1 := firstIndex_of_not_mem hcolon
    have htake : code.value.takeWhile (· != ':'.toUInt8) = code.value :=
      List.takeWhile_eq_self_iff.mpr (Text.forall_ne_iff.mpr hcolon)
    rw [splitLabel, hindex, Statement.splitLabel, Statement.labelSize?]
    simp [htake]

theorem readStatement_eq (line : Int) (label : Option Token) {code : Token} {b : UInt8} {t : Text}
    (h : code.value = b :: t) :
    readStatement line label code = some (if b = '.'.toUInt8 then
      (Statement.readDirective line label code).map .statement
      else .ok (.statement (Statement.readInstruction line label code))) := by
  have hcut : cut code 1 code.value.length = some (code.sliceFrom 1) := cut_eq_sliceFrom (by simp [h])
  have hitem : item code.value 0 = some b := by rw [h]; rfl
  rw [readStatement, hitem]
  simp only [Option.bind_eq_bind, Option.bind_some, hcut, headRest_eq]
  split_ifs <;> rfl

theorem rest_of_splitLabel {code rest : Token} (h : Statement.splitLabel code = .ok (none, rest)) : rest = code := by
  unfold Statement.splitLabel at h
  split at h
  · cases h
    rfl
  · obtain ⟨_, -, h⟩ := bind_eq_ok.mp h
    cases h

/-- Without a label the code has to hold something, and with one it may be empty. -/
theorem readCode_eq (line : Int) {code : Token} (h : code.value ≠ []) :
    readCode line code = some (Statement.readCode line code) := by
  have hfirst : ∀ label body, Statement.splitLabel code = .ok (label, body) → body.value ≠ [] →
      readStatement line label body = some (Statement.readCode line code) := by
    intro label body hsplit hne
    obtain ⟨b, t, hb⟩ := List.exists_cons_of_ne_nil hne
    rw [readStatement_eq line label hb, Statement.readCode_eq hsplit hb]
  rw [readCode, splitLabel_eq]
  simp only [Option.bind_eq_bind, Option.bind_some]
  cases hsplit : Statement.splitLabel code with
  | error d => simp [Statement.readCode, hsplit, bind, Except.bind]
  | ok found =>
      obtain ⟨label, body⟩ := found
      cases label with
      | none =>
          obtain rfl := rest_of_splitLabel hsplit
          exact hfirst none body hsplit h
      | some label =>
          cases hbody : body.value with
          | nil => simp [Statement.readCode, hsplit, hbody, bind, Except.bind, pure, Except.pure]
          | cons b t =>
              have hne : body.value ≠ [] := by simp [hbody]
              simpa [hbody] using hfirst (some label) body hsplit hne

theorem parse_eq (line : Line) : parse line = some line.parse := by
  have hwhole : cut (Token.ofLine line) 0 (Token.ofLine line).value.length =
      some ((Token.ofLine line).sliceFrom 0) := cut_eq_sliceFrom (Nat.zero_le _)
  have hvalue : ((Token.ofLine line).sliceFrom 0).value = line.text.trim := rfl
  have hcode : cut (Token.ofLine line) 0 (Statement.codeEnd 0 false line.text) =
      some ((Token.ofLine line).slice 0 (Statement.codeEnd 0 false line.text)) :=
    cut_zero (Statement.codeEnd_le line.text)
  have hend : codeEnd (Token.ofLine line).value = some (Statement.codeEnd 0 false line.text) := codeEnd_eq line.text
  rw [parse, hwhole]
  simp only [Option.bind_eq_bind, Option.bind_some, hvalue, hend, hcode]
  cases ht : line.text.trim with
  | nil =>
      rw [Line.parse, hvalue, ht]
      rfl
  | cons b t =>
      rw [item_zero]
      by_cases hb : b = ';'.toUInt8
      · rw [Line.parse, hvalue, ht, hb]
        rfl
      · simp only [List.isEmpty_cons, Bool.false_eq_true, if_false, Option.bind_some, hb]
        rw [Line.parse_eq_readCode ht hb]
        exact readCode_eq line.number (Text.code_ne_nil ht hb)

/-! ## Data -/

def numbers (args : Token) : Option Data.Contents :=
  if args.value.isEmpty then some (Data.fault (.missingOperand args.position))
  else do return Data.literals (← split args ','.toUInt8)

/-- The quotes are found by their offsets, and two different ones are needed. -/
def string (args : Token) : Option Data.Contents :=
  let first := firstIndex '"'.toUInt8 args.value
  let last := lastIndex '"'.toUInt8 args.value
  if first < 0 ∨ first = last then some (Data.fault (.invalidString args.position))
  else do
    let inner ← slice args.value (first + 1) last
    match Data.charWords? inner with
    | none => return Data.fault (.invalidString args.position)
    | some words => return { words := words ++ [0] }

/-- The offsets of a matrix header: where it starts and ends, and where the texts in its brackets do. -/
def headerOffsets (t : Text) : Option (List Int) :=
  (Data.matrixHeader? t).map fun header =>
    let size : Int := t.length - header.2.2.length
    [0, size, 1, 1 + header.1.length, size - 1 - header.2.1.length, size - 1]

/-- Stores literals in the cells from `i` on. The first that finds no cell is at fault and ends this. -/
def storeFrom (total : Nat) (cells : List Word) (i : Nat) : List Token → Option Data.Contents
  | [] => some { words := cells }
  | token :: tokens =>
    if cells.length ≤ i then
      some { words := cells, faults := [.excessInitializer token.position cells.length total] }
    else do
      let rest ← storeFrom total (← store cells i (token.literal.toOption.getD 0)) (i + 1) tokens
      return { rest with faults := (Data.faultOf token.literal).toList ++ rest.faults }

def matrix (args : Token) : Option Data.Contents :=
  match headerOffsets args.value with
  | none => some (Data.fault (.invalidMatrix args.position))
  | some offsets => do
    let rows ← cut args (← item offsets 2) (← item offsets 3)
    let columns ← cut args (← item offsets 4) (← item offsets 5)
    match Data.dimension? rows.value, Data.dimension? columns.value with
    | some rows, some columns =>
      if rows * columns ≤ Memory.size then
        let values ← cut args (← item offsets 1) args.value.length
        let tokens ← arguments values
        storeFrom tokens.length (List.replicate (rows * columns) 0) 0 tokens
      else
        let header ← cut args 0 (← item offsets 1)
        return Data.fault (.oversizedLiteral header.position
          (Text.of "<=" ++ Text.ofNat Memory.size ++ Text.of " cells") (Text.ofNat (rows * columns)))
    | _, _ =>
      let header ← cut args 0 (← item offsets 1)
      return Data.fault (.invalidMatrix header.position)

def contents : Directive → Token → Option Data.Contents
  | .data, args => numbers args
  | .string, args => string args
  | .mat, args => matrix args
  | .entry, _ | .external, _ => some {}

theorem numbers_eq (args : Token) : numbers args = some (Data.numbers args) := by
  rw [numbers, Data.numbers, split_eq]
  split_ifs <;> rfl

theorem exists_last {b : UInt8} {t : Text} (h : b ∈ t) : ∃ front back, t = front ++ b :: back ∧ b ∉ back := by
  obtain ⟨back, front, ht, hback⟩ := List.eq_append_cons_of_mem (List.mem_reverse.mpr h)
  refine ⟨front.reverse, back.reverse, ?_, mt List.mem_reverse.mp hback⟩
  rw [← List.reverse_reverse t, ht]
  simp

/-- Without a text in quotes there is at most one quote. -/
theorem firstIndex_eq_lastIndex {t : Text} (h : Data.quoted? t = none) :
    firstIndex '"'.toUInt8 t < 0 ∨ firstIndex '"'.toUInt8 t = lastIndex '"'.toUInt8 t := by
  by_cases hquote : '"'.toUInt8 ∈ t
  · obtain ⟨before, rest, rfl, hbefore⟩ := List.eq_append_cons_of_mem hquote
    have hrest : '"'.toUInt8 ∉ rest := by
      intro hmem
      obtain ⟨inner, after, rfl, hafter⟩ := exists_last hmem
      have hquoted : Data.quoted? (before ++ '"'.toUInt8 :: (inner ++ '"'.toUInt8 :: after)) = some inner :=
        Data.quoted?_eq_some.mpr ⟨before, after, by simp, hbefore, hafter⟩
      rw [h] at hquoted
      cases hquoted
    rw [firstIndex_append hbefore, lastIndex_append hrest]
    exact Or.inr rfl
  · rw [firstIndex_of_not_mem hquote]
    exact Or.inl (by decide)

theorem string_eq (args : Token) : string args = some (Data.string args) := by
  cases hquoted : Data.quoted? args.value with
  | none =>
      rw [string, Data.string, hquoted, if_pos (firstIndex_eq_lastIndex hquoted)]
      rfl
  | some inner =>
      obtain ⟨before, after, hv, hbefore, hafter⟩ := Data.quoted?_eq_some.mp hquoted
      have hfirst : firstIndex '"'.toUInt8 args.value = before.length := by
        rw [hv, List.append_assoc, List.cons_append, firstIndex_append hbefore]
      have hlast : lastIndex '"'.toUInt8 args.value = before.length + 1 + inner.length := by
        rw [hv, lastIndex_append hafter]
        simp
        omega
      have hslice : slice args.value (before.length + 1) (before.length + 1 + inner.length) = some inner := by
        have happend := slice_append (before ++ ['"'.toUInt8]) inner ('"'.toUInt8 :: after)
        rw [List.length_append, List.length_singleton] at happend
        rw [hv]
        simpa using happend
      rw [string, Data.string, hquoted, hfirst, hlast, if_neg (by omega), hslice]
      simp only [Option.bind_eq_bind, Option.bind_some]
      cases Data.charWords? inner <;> rfl

/-- The fault of the first token of a list, if there is one. -/
def excess (count total : Nat) (tokens : List Token) : List Diagnostic :=
  (tokens.head?.map fun token => Diagnostic.excessInitializer token.position count total).toList

theorem cells_eq (count : Nat) (tokens : List Token) : Data.cells count tokens =
    { words := (Data.literals (tokens.take count)).words ++ List.replicate (count - tokens.length) 0
      faults := (Data.literals (tokens.take count)).faults ++ excess count tokens.length (tokens.drop count) } := by
  rw [Data.cells]
  cases tokens.drop count <;> rfl

theorem literals_cons (token : Token) (tokens : List Token) : Data.literals (token :: tokens) =
    { words := token.literal.toOption.getD 0 :: (Data.literals tokens).words
      faults := (Data.faultOf token.literal).toList ++ (Data.literals tokens).faults } := by
  simp only [Data.literals, List.map_cons, List.filterMap_cons]
  cases Data.faultOf token.literal <;> rfl

/-- The cells before the current one are filled, and those from it on are still empty. -/
theorem storeFrom_eq (total : Nat) (tokens : List Token) (done : List Word) (n : Nat) :
    storeFrom total (done ++ List.replicate n 0) done.length tokens = some
      { words := done ++ ((Data.literals (tokens.take n)).words ++ List.replicate (n - tokens.length) 0)
        faults := (Data.literals (tokens.take n)).faults ++ excess (done.length + n) total (tokens.drop n) } := by
  induction tokens generalizing done n with
  | nil => simp [storeFrom, Data.literals, excess]
  | cons token tokens ih =>
      cases n with
      | zero => simp [storeFrom, Data.literals, excess]
      | succ n =>
          have hstore : store (done ++ List.replicate (n + 1) 0) done.length (token.literal.toOption.getD 0) =
              some (done ++ [token.literal.toOption.getD 0] ++ List.replicate n 0) := by
            have hin : (0 : Int) ≤ done.length ∧
                (done.length : Int) < (done ++ List.replicate (n + 1) (0 : Word)).length := by
              simp
            rw [store, if_pos hin, Int.toNat_natCast, List.replicate_succ, List.set_append_right _ _ le_rfl]
            simp
          have hnext := ih (done ++ [token.literal.toOption.getD 0]) n
          rw [List.length_append, List.length_singleton] at hnext
          rw [storeFrom, if_neg (by simp), hstore]
          simp only [Option.bind_eq_bind, Option.bind_some, hnext]
          rw [List.take_succ_cons, literals_cons]
          simp [Nat.add_assoc, Nat.add_comm 1 n]

theorem dimension?_trim (t : Text) : Data.dimension? t.trim = Data.dimension? t := by
  rw [Data.dimension?, Text.trim_trim, Data.dimension?]

section
variable {args : Token} {rows columns rest : Text} (h : Data.IsHeader args.value rows columns rest)
include h

/-- The parts of a matrix are found at the offsets of its header. -/
theorem cut_header : ∃ start : Nat,
    headerOffsets args.value =
      some [0, ((args.value.length - rest.length : Nat) : Int), 1, 1 + (rows.length : Int), (start : Int),
        start + (columns.length : Int)] ∧
    cut args 1 (1 + rows.length) = some (args.piece 1 rows) ∧
    cut args start (start + columns.length) = some (args.piece start columns) ∧
    cut args 0 (args.value.length - rest.length : Nat) = some (args.slice 0 (args.value.length - rest.length)) ∧
    cut args (args.value.length - rest.length : Nat) args.value.length =
      some (args.piece (args.value.length - rest.length) rest) := by
  have hheader := Data.matrixHeader?_eq_some.mpr h
  obtain ⟨gap, hv, -⟩ := h
  have hrows : args.value = ['['.toUInt8] ++ (rows ++ (']'.toUInt8 :: gap ++ columns.inBrackets ++ rest)) := by
    simp [hv, Text.inBrackets]
  have hcolumns : args.value = (rows.inBrackets ++ gap ++ ['['.toUInt8]) ++ (columns ++ (']'.toUInt8 :: rest)) := by
    simp [hv, Text.inBrackets]
  have hrest : args.value = (rows.inBrackets ++ gap ++ columns.inBrackets) ++ (rest ++ []) := by
    simp [hv]
  have hend : args.value.length = (rows.inBrackets ++ gap ++ columns.inBrackets).length + rest.length := by
    rw [hv, List.length_append]
  have hsize : args.value.length - rest.length = (rows.inBrackets ++ gap ++ columns.inBrackets).length := by
    omega
  refine ⟨(rows.inBrackets ++ gap ++ ['['.toUInt8]).length, ?_, cut_append hrows, cut_append hcolumns,
    cut_zero (Nat.sub_le _ _), ?_⟩
  · rw [headerOffsets, hheader, hsize, hend]
    simp [Text.inBrackets]
    omega
  · have hcut := cut_append hrest
    rw [← Int.natCast_add, ← hend, ← hsize] at hcut
    exact hcut

end

theorem storeFrom_zero (count : Nat) (tokens : List Token) :
    storeFrom tokens.length (List.replicate count 0) 0 tokens = some (Data.cells count tokens) := by
  have hstore := storeFrom_eq tokens.length tokens [] count
  rw [List.length_nil, Nat.zero_add, List.nil_append, List.nil_append] at hstore
  rw [cells_eq]
  exact hstore

theorem matrix_eq (args : Token) : matrix args = some (Data.matrix args) := by
  cases hheader : Data.matrixHeader? args.value with
  | none =>
      rw [matrix, Data.matrix, headerOffsets, hheader]
      rfl
  | some header =>
      obtain ⟨rows, columns, rest⟩ := header
      obtain ⟨start, hoffsets, hrows, hcolumns, hfront, hrest⟩ := cut_header (Data.matrixHeader?_eq_some.mp hheader)
      have hitem : ∀ a b c d e f : Int, item [a, b, c, d, e, f] 1 = some b ∧ item [a, b, c, d, e, f] 2 = some c ∧
          item [a, b, c, d, e, f] 3 = some d ∧ item [a, b, c, d, e, f] 4 = some e ∧
          item [a, b, c, d, e, f] 5 = some f :=
        fun a b c d e f => ⟨rfl, rfl, rfl, rfl, rfl⟩
      rw [matrix, Data.matrix, hheader, hoffsets]
      simp only [Option.bind_eq_bind, Option.bind_some, hitem, hrows, hcolumns, hfront, hrest, Token.value_piece,
        dimension?_trim]
      cases Data.dimension? rows with
      | none => rfl
      | some r =>
          cases Data.dimension? columns with
          | none => rfl
          | some c =>
              dsimp only
              rw [arguments_eq, Option.bind_some, storeFrom_zero]
              by_cases hcount : r * c ≤ Memory.size
              · rw [if_pos hcount, if_pos hcount]
                rfl
              · rw [if_neg hcount, if_neg hcount]
                rfl

theorem contents_eq (d : Directive) (args : Token) : contents d args = some (Data.contents d args) := by
  cases d with
  | data => exact numbers_eq args
  | string => exact string_eq args
  | mat => exact matrix_eq args
  | entry => rfl
  | external => rfl

end Strict

end TwoPass
