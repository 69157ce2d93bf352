import TwoPass.Proofs.Excerpts
import TwoPass.Proofs.Positions
import TwoPass.Proofs.StrictReading

/-!
Assembling by offsets. Operands, instructions, both passes and the excerpts of a report are built here from
accesses that fail out of range, as lines and data are in `StrictReading`. None of them fails, whatever the
source, the diagnostic or the terminal.
-/
namespace TwoPass.Strict

/-! ## Operands -/

/-- The offsets of a matrix operand: where it starts and ends, and where its label, row and column do. -/
def matrixOffsets (t : Text) : Option (List Int) :=
  let label := t.takeWhile (!Text.isBracket ·)
  if label.isEmpty then none
  else do
    let row ← Text.bracketed? (t.drop label.length)
    let column ← Text.bracketed? row.2
    if column.2.isEmpty then
      return [0, t.length, 0, label.length, label.length + 1, label.length + 1 + row.1.length,
        label.length + row.1.length + 3, label.length + row.1.length + 3 + column.1.length]
    else none

/-- Whether a text starts with a byte. Its first byte is looked at only if it has one. -/
def startsWith (b : UInt8) (t : Text) : Option Bool :=
  if 0 < t.length then (item t 0).map (· == b) else some false

def mode (t : Token) : Option AddressMode := do
  if ← startsWith ('#').toUInt8 t.value then return .immediate
  else if (Register.parse? t.value).isSome then return .register
  else if (matrixOffsets t.value).isSome then return .matrix
  else return .direct

/-- The shape of an operand of a given mode. One of matrix mode has to fit the pattern of a matrix. -/
def shape (t : Token) : AddressMode → Option Shape
  | .immediate => do return .immediate (← cut t 1 t.value.length)
  | .register => do return .register (← Register.parse? t.value)
  | .matrix => do
    let offsets ← matrixOffsets t.value
    return .matrix (← cut t (← item offsets 2) (← item offsets 3)) (← cut t (← item offsets 4) (← item offsets 5))
      (← cut t (← item offsets 6) (← item offsets 7))
  | .direct => some (.direct t)

def operand (table : SymbolTable) (t : Token) : Option (Except Diagnostic Operand) := do
  let mode ← mode t
  if t.value.isEmpty then return .error (.missingOperand t.position)
  else return Operand.ofShape table (← shape t mode)

/-- The offsets of a matrix operand are those of its parts. -/
theorem matrixOffsets_eq_some {t : Text} {offsets : List Int} : matrixOffsets t = some offsets ↔
    ∃ label row column : Text, t = Shape.matrixText label row column ∧ label ≠ [] ∧
      label.NoBrackets ∧ row.NoBrackets ∧ column.NoBrackets ∧
      offsets = [0, (t.length : Int), 0, (label.length : Int), label.length + 1,
        label.length + 1 + (row.length : Int), label.length + row.length + 3,
        label.length + row.length + 3 + (column.length : Int)] := by
  constructor
  · intro h
    rw [matrixOffsets] at h
    split at h
    · cases h
    rename_i hne
    simp only [Option.bind_eq_bind, Option.bind_eq_some_iff, Option.pure_def, Option.ite_none_right_eq_some,
      Option.some.injEq] at h
    obtain ⟨⟨row, rest⟩, hr, ⟨column, tail⟩, hc, htail, rfl⟩ := h
    obtain ⟨hdrop, hrow⟩ := Text.bracketed?_eq_some.mp hr
    obtain ⟨rfl, hcolumn⟩ := Text.bracketed?_eq_some.mp hc
    obtain rfl : tail = [] := by simpa using htail
    refine ⟨_, row, column, ?_, by simpa using hne, fun b hb => by simpa using List.mem_takeWhile_imp hb, hrow,
      hcolumn, rfl⟩
    rw [List.append_nil] at hdrop
    rw [Shape.matrixText, ← hdrop]
    exact (List.prefix_iff_eq_append.mp (List.takeWhile_prefix _)).symm
  · rintro ⟨label, row, column, rfl, hne, hlabel, hrow, hcolumn, rfl⟩
    have htake : (Shape.matrixText label row column).takeWhile (!Text.isBracket ·) = label :=
      (Text.cut_iff.mpr ⟨rfl, fun b hb => by simp [hlabel b hb], by decide⟩).1
    have hr : Text.bracketed? ((Shape.matrixText label row column).drop label.length) =
        some (row, column.inBrackets) := by
      rw [Shape.matrixText, List.drop_left]
      exact Text.bracketed?_eq_some.mpr ⟨rfl, hrow⟩
    have hc : Text.bracketed? column.inBrackets = some (column, []) :=
      Text.bracketed?_eq_some.mpr ⟨(List.append_nil _).symm, hcolumn⟩
    simp [matrixOffsets, htake, hne, hr, hc]

theorem matrixOffsets_isSome (t : Token) : (matrixOffsets t.value).isSome = (Shape.matrix? t).isSome := by
  rw [Bool.eq_iff_iff, Option.isSome_iff_exists, Option.isSome_iff_exists]
  simp only [matrixOffsets_eq_some, Shape.matrix?_eq_some]
  constructor
  · rintro ⟨_, label, row, column, hv, hne, hlabel, hrow, hcolumn, -⟩
    exact ⟨_, label, row, column, hv, hne, hlabel, hrow, hcolumn, rfl⟩
  · rintro ⟨_, label, row, column, hv, hne, hlabel, hrow, hcolumn, -⟩
    exact ⟨_, label, row, column, hv, hne, hlabel, hrow, hcolumn, rfl⟩

theorem startsWith_eq (b : UInt8) (t : Text) : startsWith b t = some (t.head? == some b) := by
  cases t <;> rfl

/-- A token is of matrix shape exactly if it has the offsets of a matrix operand. -/
theorem mode_eq (t : Token) : mode t = some (Shape.ofToken t).mode := by
  rw [mode, startsWith_eq, Shape.ofToken]
  simp only [Option.bind_eq_bind, Option.bind_some, matrixOffsets_isSome, beq_iff_eq]
  split
  · rfl
  cases Register.parse? t.value with
  | some r => rfl
  | none =>
      cases hmatrix : Shape.matrix? t with
      | none => rfl
      | some shape =>
          obtain ⟨_, _, _, _, _, _, _, _, rfl⟩ := Shape.matrix?_eq_some.mp hmatrix
          rfl

/-- The three parts of a matrix operand, cut out at their offsets. -/
theorem cut_matrix {t : Token} {label row column : Text} (h : t.value = Shape.matrixText label row column) :
    cut t 0 label.length = some (t.piece 0 label) ∧
    cut t (label.length + 1) (label.length + 1 + row.length) = some (t.piece (label.length + 1) row) ∧
    cut t (label.length + row.length + 3) (label.length + row.length + 3 + column.length) =
      some (t.piece (label.length + row.length + 3) column) := by
  have hlabel : t.value = [] ++ (label ++ (row.inBrackets ++ column.inBrackets)) := h
  have hrow : t.value = (label ++ ['['.toUInt8]) ++ (row ++ (']'.toUInt8 :: column.inBrackets)) := by
    simp [h, Shape.matrixText, Text.inBrackets]
  have hcolumn : t.value = (label ++ row.inBrackets ++ ['['.toUInt8]) ++ (column ++ [']'.toUInt8]) := by
    simp [h, Shape.matrixText, Text.inBrackets]
  have hrowStart : (label ++ ['['.toUInt8]).length = label.length + 1 := by simp
  have hcolumnStart : (label ++ row.inBrackets ++ ['['.toUInt8]).length = label.length + row.length + 3 := by
    simp [Text.inBrackets]
    omega
  have hlabelCut := cut_append hlabel
  have hrowCut := cut_append hrow
  have hcolumnCut := cut_append hcolumn
  rw [List.length_nil, Int.natCast_zero, Int.zero_add] at hlabelCut
  rw [hrowStart] at hrowCut
  rw [hcolumnStart] at hcolumnCut
  exact ⟨hlabelCut, hrowCut, hcolumnCut⟩

theorem shape_eq (t : Token) : shape t (Shape.ofToken t).mode = some (Shape.ofToken t) := by
  rw [Shape.ofToken]
  split
  · rename_i hhead
    obtain ⟨rest, hv⟩ := List.head?_eq_some_iff.mp hhead
    have hcut : cut t 1 t.value.length = some (t.sliceFrom 1) := cut_eq_sliceFrom (by simp [hv])
    rw [Shape.mode, shape, hcut]
    rfl
  cases hregister : Register.parse? t.value with
  | some r =>
      dsimp only
      rw [Shape.mode, shape, hregister]
      rfl
  | none =>
      cases hmatrix : Shape.matrix? t with
      | none => rfl
      | some shape =>
          obtain ⟨label, row, column, hv, hne, hlabel, hrow, hcolumn, rfl⟩ := Shape.matrix?_eq_some.mp hmatrix
          have hoffsets := matrixOffsets_eq_some.mpr ⟨label, row, column, hv, hne, hlabel, hrow, hcolumn, rfl⟩
          obtain ⟨hlabelCut, hrowCut, hcolumnCut⟩ := cut_matrix hv
          have hitem : ∀ a b c d e f g h : Int, item [a, b, c, d, e, f, g, h] 2 = some c ∧
              item [a, b, c, d, e, f, g, h] 3 = some d ∧ item [a, b, c, d, e, f, g, h] 4 = some e ∧
              item [a, b, c, d, e, f, g, h] 5 = some f ∧ item [a, b, c, d, e, f, g, h] 6 = some g ∧
              item [a, b, c, d, e, f, g, h] 7 = some h :=
            fun a b c d e f g h => ⟨rfl, rfl, rfl, rfl, rfl, rfl⟩
          dsimp only [Option.getD_some, Shape.mode, Strict.shape]
          rw [hoffsets]
          simp only [Option.bind_eq_bind, Option.bind_some, hitem, hlabelCut, hrowCut, hcolumnCut]
          rfl

theorem operand_eq (table : SymbolTable) (t : Token) : operand table t = some (Operand.ofToken table t) := by
  rw [operand, mode_eq, Operand.ofToken]
  simp only [Option.bind_eq_bind, Option.bind_some, shape_eq]
  split_ifs <;> rfl

/-! ## Instructions -/

/-- A main word. Two operands are looked for if the operation takes two, and one if it takes one. -/
def mainWord (op : Opcode) (ops : List Operand) : Option Word :=
  if op.arity = 2 then do
    return .ofNat (op.code * 4096 + (← item ops 0).field * 64 + (← item ops 1).field)
  else if op.arity = 1 then do return .ofNat (op.code * 4096 + (← item ops 0).field)
  else some (.ofNat (op.code * 4096))

/-- Puts an operand in front of others, or its fault in front of theirs. -/
def gather : Except Diagnostic Operand → Except (List Diagnostic) (List Operand) →
    Except (List Diagnostic) (List Operand)
  | .ok op, .ok ops => .ok (op :: ops)
  | .ok _, .error es => .error es
  | .error e, .ok _ => .error [e]
  | .error e, .error es => .error (e :: es)

def resolve (table : SymbolTable) : List Token → Option (Except (List Diagnostic) (List Operand))
  | [] => some (.ok [])
  | t :: ts => do return gather (← operand table t) (← resolve table ts)

example : mainWord .mov [.register 0] = none ∧ shape ⟨⟨1, 1, 1⟩, Text.of "M"⟩ .matrix = none := by decide

def encode (table : SymbolTable) (pc : Word) (op : Option Opcode) (keyword args : Token) :
    Option (Except (List Diagnostic) (List Word × List ExternalUse)) :=
  match op with
  | none => some (.error [.unknownInstruction keyword.position keyword.value])
  | some op => do
    let tokens ← arguments args
    if tokens.length = op.arity then
      match ← resolve table tokens with
      | .ok ops => return .ok ((← mainWord op ops) :: ops.flatMap Operand.words, Instruction.uses (pc + 1) ops)
      | .error es => return .error es
    else return .error [.argumentCount keyword.position op.arity tokens.length]

/-- Goes through the places of the first two operands, as far as there are any. -/
def size (op : Option Opcode) (args : Token) : Option Nat :=
  match op with
  | none => some 0
  | some op =>
    if op.arity = 0 then some 1
    else do
      let tokens ← arguments args
      (List.range (min tokens.length 2)).foldlM
        (fun n i => do return n + (← mode (← item tokens i)).extraWords) 1

/-- As many operands as the operation takes are enough for its main word. -/
theorem mainWord_eq {op : Opcode} {ops : List Operand} (h : ops.length = op.arity) :
    mainWord op ops = some (Instruction.mainWord op ops) := by
  have hle := Instruction.arity_le op
  rw [← h] at hle
  rw [mainWord, ← h]
  rcases ops with _ | ⟨first, _ | ⟨second, _ | ⟨third, rest⟩⟩⟩
  · rfl
  · rfl
  · rfl
  · simp only [List.length_cons] at hle
    omega

theorem resolve_eq (table : SymbolTable) (ts : List Token) :
    resolve table ts = some (Instruction.resolve table ts) := by
  induction ts with
  | nil => rfl
  | cons t ts ih =>
      rw [resolve, operand_eq, ih, Instruction.resolve]
      cases Operand.ofToken table t <;> cases Instruction.resolve table ts <;> rfl

theorem encode_eq (table : SymbolTable) (pc : Word) (op : Option Opcode) (keyword args : Token) :
    encode table pc op keyword args = some (Instruction.encode table pc op keyword args) := by
  cases op with
  | none => rfl
  | some op =>
      have harguments : arguments args = some (Instruction.operands args) := arguments_eq args
      rw [encode, Instruction.encode, harguments]
      simp only [Option.bind_eq_bind, Option.bind_some, resolve_eq]
      split
      · rename_i hcount
        cases hresolve : Instruction.resolve table (Instruction.operands args) with
        | error es => rfl
        | ok ops =>
            -- every token has become an operand, so there are as many as were counted
            have hlength := (Instruction.length_of_resolve hresolve).trans hcount
            dsimp only
            rw [mainWord_eq hlength]
            rfl
      · rfl

theorem size_eq (op : Option Opcode) (args : Token) : size op args = some (Instruction.size op args) := by
  cases op with
  | none => rfl
  | some op =>
      have harguments : arguments args = some (Instruction.operands args) := arguments_eq args
      rw [size, Instruction.size, harguments]
      simp only [Option.bind_eq_bind, Option.bind_some]
      split
      · rfl
      · rcases Instruction.operands args with _ | ⟨first, _ | ⟨second, rest⟩⟩
        · rfl
        · simp [List.range_succ, item, mode_eq]
        · simp [List.range_succ, item, mode_eq]

/-! ## Both passes -/

def place (l : Layout) (s : Statement) : Option Layout :=
  match s.action with
  | .instruction op => do return { l with codeSize := l.codeSize + (← size op s.args) }
  | .directive .external => some (l.addExternal s.args)
  | .directive d => do
    let contents ← contents d s.args
    return { l with data := l.data ++ contents.words, errors := l.errors ++ contents.faults }

def addLine (l : Layout) (line : Line) : Option Layout := do
  match ← parse line with
  | .ok (.statement s) => place ({ l with statements := l.statements.push s }.addLabel s) s
  | parsed => return l.addParsed parsed

def layout (lines : List Line) : Option Layout :=
  lines.foldlM addLine {}

def addInstruction (e : Emission) (s : Statement) (op : Option Opcode) : Option (Except Emission Emission) := do
  let size ← size op s.args
  match ← encode e.symbols e.pc op s.keyword s.args with
  | .error ds =>
    return .ok ({ e with errors := e.errors ++ ds }.append s.line size (List.replicate size 0) [])
  | .ok (words, uses) =>
    if words.length = size then return .ok (e.append s.line size words uses)
    else return .error (e.fail (.wordCountMismatch s.keyword.position size words.length))

def addStatement (e : Emission) (s : Statement) : Option (Except Emission Emission) :=
  match s.action with
  | .instruction op => addInstruction e s op
  | .directive _ => some (e.addStatement s)

def emit (e : Emission) : List Statement → Option (Except Emission Emission)
  | [] => some (.ok e)
  | s :: statements => do
    match ← addStatement e s with
    | .ok e => emit e statements
    | .error e => return .error e

def assemble (lines : List Line) : Option Assembly := do
  let layout ← layout lines
  let warnings := layout.warnings.toList
  match layout.finalSymbols with
  | .error d =>
    return { program := { symbols := layout.symbols, warnings }
             errors := (layout.errors.push d).toList }
  | .ok symbols =>
    match ← emit { symbols } layout.statements.toList with
    | .error e =>
      return { program := { symbols := e.symbols, warnings }
               errors := (layout.errors ++ e.errors).toList
               debug := { lines := e.lines.toList } }
    | .ok e =>
      return { program :=
                 { instructions := e.instructions.toList
                   data := layout.data.toList
                   symbols := e.symbols
                   externals := e.externals.toList
                   warnings }
               errors := (layout.errors ++ e.errors).toList
               debug := { lines := e.lines.toList, labels := e.symbols.labels } }

def assembleText (text : Text) (limit : Int) : Option (Except Diagnostic (List Line × Assembly)) :=
  match Assembly.expandText text limit with
  | .error d => some (.error d)
  | .ok lines => do return .ok (lines, ← assemble lines)

theorem place_eq (l : Layout) (s : Statement) : place l s = some (l.place s) := by
  rw [place, Layout.place]
  cases s.action with
  | instruction op =>
      dsimp only
      rw [size_eq]
      rfl
  | directive d => cases d <;> simp only [contents_eq] <;> rfl

theorem addLine_eq (l : Layout) (line : Line) : addLine l line = some (l.addLine line) := by
  rw [addLine, parse_eq, Layout.addLine]
  simp only [Option.bind_eq_bind, Option.bind_some]
  cases line.parse with
  | error d => rfl
  | ok parsed =>
      cases parsed with
      | blank => rfl
      | comment => rfl
      | labelOnly label => rfl
      | statement s => exact place_eq _ s

theorem layout_eq (lines : List Line) : layout lines = some (Layout.ofLines lines) := by
  have hstep : addLine = fun l line => pure (l.addLine line) := funext₂ addLine_eq
  rw [layout, hstep, List.foldlM_pure]
  rfl

theorem addInstruction_eq (e : Emission) (s : Statement) (op : Option Opcode) :
    addInstruction e s op = some (e.addInstruction s op) := by
  rw [addInstruction, size_eq, encode_eq, Emission.addInstruction]
  simp only [Option.bind_eq_bind, Option.bind_some]
  cases Instruction.encode e.symbols e.pc op s.keyword s.args with
  | error ds => rfl
  | ok found =>
      dsimp only
      split_ifs <;> rfl

theorem addStatement_eq (e : Emission) (s : Statement) : addStatement e s = some (e.addStatement s) := by
  cases ha : s.action with
  | instruction op => simp only [addStatement, Emission.addStatement, ha, addInstruction_eq]
  | directive d => simp only [addStatement, ha]

theorem emit_eq (e : Emission) (statements : List Statement) :
    emit e statements = some (statements.foldlM Emission.addStatement e) := by
  induction statements generalizing e with
  | nil => rfl
  | cons s statements ih =>
      rw [emit, addStatement_eq, List.foldlM_cons]
      simp only [Option.bind_eq_bind, Option.bind_some]
      cases e.addStatement s with
      | error stopped => rfl
      | ok next => exact ih next

theorem assemble_eq (lines : List Line) : assemble lines = some (Assembly.ofLines lines) := by
  rw [assemble, layout_eq, Assembly.ofLines]
  simp only [Option.bind_eq_bind, Option.bind_some, emit_eq]
  cases (Layout.ofLines lines).finalSymbols with
  | error d => rfl
  | ok symbols =>
      dsimp only [Emission.ofStatements]
      cases List.foldlM Emission.addStatement { symbols } (Layout.ofLines lines).statements.toList <;> rfl

theorem assembleText_eq (text : Text) (limit : Int) :
    assembleText text limit = some (Assembly.ofText text limit) := by
  rw [assembleText, Assembly.ofText]
  cases Assembly.expandText text limit with
  | error d => rfl
  | ok lines =>
      dsimp only
      rw [assemble_eq]
      rfl

/-! ## Reports -/

/-- The dashes of a banner are counted down from half of the terminal and held between two bounds. -/
def banner (width : Int) (title path : Text) : Option Text := do
  let fileName := Path.fileName path
  let half := if 50 < width.tdiv 2 then 50 else width.tdiv 2
  let dashes := half - fileName.length - title.length - 1
  return Text.of "\n-- " ++ title ++ Text.of " " ++ (← fill (if dashes < 2 then 2 else dashes) '-'.toUInt8) ++
    Text.of " " ++ fileName ++ Text.of "\n"

/-- The numbers under which another text stands than in the source file. Numbers of no line are passed over. -/
def changedLines (raw : List Line) : List Line → Option (List Int)
  | [] => some []
  | line :: lines => do
    let changed ← changedLines raw lines
    if line.number < 1 ∨ raw.length < line.number then return changed
    else if line.text = (← item raw (line.number - 1)).text then return changed
    else return line.number :: changed

/-- A span marked below its line. Its column is held in the line, and its size to one at least. -/
def underline (text : Text) (p : Span) : Option Text := do
  let column : Int := if p.column - 1 < 0 ∨ text.length < p.column - 1 then text.length else p.column - 1
  let before ← slice text 0 column
  return (← fill (Report.expandTabs before).length ' '.toUInt8) ++ Text.of "^" ++
    (← fill ((if p.size < 1 then 1 else p.size) - 1) '~'.toUInt8)

def excerpt (raw : List Line) (changed : List Int) (p : Span) : Option Text :=
  if p.line < 1 ∨ raw.length < p.line then some []
  else do
    let text := (← item raw (p.line - 1)).text
    let marks ← underline text p
    let number := Text.ofInt p.line
    let below := if changed.contains p.line then Text.of "(in macro expansion)" else marks
    return Text.of "\n " ++ number ++ Text.of " |  " ++ Report.expandTabs text ++ Text.of "\n" ++
      (← fill (number.length + 1) ' '.toUInt8) ++ Text.of " |  " ++ below ++ Text.of "\n"

def display (width : Int) (path : Text) (raw expanded : List Line) (title : Text) (d : Diagnostic) :
    Option Text := do
  let changed ← changedLines raw expanded
  let head ← banner width title path
  match d.position? with
  | some p => return head ++ d.message ++ Text.of "\n" ++ (← excerpt raw changed p)
  | none => return head ++ d.message ++ Text.of "\n"

theorem banner_eq (width : Int) (title path : Text) :
    banner width title path = some (Report.banner width title path) := by
  have hdashes : ∀ half used : Int,
      (if half - used < 2 then 2 else half - used) = ((max 2 (half - used)).toNat : Int) := by
    intro half used
    split_ifs <;> omega
  have hhalf : (if 50 < width.tdiv 2 then 50 else width.tdiv 2) = min (width.tdiv 2) 50 := by
    split_ifs <;> omega
  rw [banner, hhalf]
  simp only [Option.bind_eq_bind, hdashes, fill_natCast, Option.bind_some]
  rfl

/-- A number that is held to the lines of a file is the number of one of them. -/
theorem exists_item_line {raw : List Line} {n : Int} (h : ¬ (n < 1 ∨ (raw.length : Int) < n)) :
    ∃ line, raw[(n - 1).toNat]? = some line ∧ item raw (n - 1) = some line := by
  have hin : (n - 1).toNat < raw.length := by omega
  have hpos : 0 ≤ n - 1 := by omega
  refine ⟨raw[(n - 1).toNat], List.getElem?_eq_getElem hin, ?_⟩
  rw [item, if_pos hpos, List.getElem?_eq_getElem hin]

theorem item_line_eq_none {raw : List Line} {n : Int} (h : n < 1 ∨ (raw.length : Int) < n) :
    item raw (n - 1) = none := by
  rw [item]
  split_ifs
  · exact List.getElem?_eq_none (by omega)
  · rfl

-- Each line adds its own number at most, so the induction is over the lines after expansion.
theorem changedLines_spec (raw lines : List Line) : ∃ changed, changedLines raw lines = some changed ∧
    ∀ n, n ∈ changed ↔
      ∃ l ∈ lines, l.number = n ∧ 1 ≤ n ∧ ∃ line, raw[(n - 1).toNat]? = some line ∧ l.text ≠ line.text := by
  induction lines with
  | nil => exact ⟨[], rfl, by simp⟩
  | cons l lines ih =>
      obtain ⟨changed, hchanged, hmem⟩ := ih
      rw [changedLines, hchanged]
      simp only [Option.bind_eq_bind, Option.bind_some, List.exists_mem_cons_iff, ← hmem]
      by_cases hout : l.number < 1 ∨ (raw.length : Int) < l.number
      · refine ⟨changed, if_pos hout, fun n => (or_iff_right ?_).symm⟩
        rintro ⟨rfl, hpos, line, hline, -⟩
        obtain ⟨hlt, -⟩ := List.getElem?_eq_some_iff.mp hline
        omega
      · obtain ⟨line, hline, hitem⟩ := exists_item_line hout
        rw [if_neg hout, hitem]
        by_cases htext : l.text = line.text
        · refine ⟨changed, by simp [htext], fun n => (or_iff_right ?_).symm⟩
          rintro ⟨rfl, -, line', hline', hne⟩
          rw [hline] at hline'
          cases hline'
          exact hne htext
        · refine ⟨l.number :: changed, by simp [htext], fun n => ?_⟩
          rw [List.mem_cons, eq_comm]
          refine or_congr_left ⟨?_, fun h => h.1⟩
          rintro rfl
          exact ⟨rfl, by omega, line, hline, htext⟩

theorem changedLines_eq (raw expanded : List Line) : ∃ changed, changedLines raw expanded = some changed ∧
    ∀ n, changed.contains n = (Report.Listing.ofLines raw expanded).isChanged n := by
  obtain ⟨changed, hchanged, hmem⟩ := changedLines_spec raw expanded
  refine ⟨changed, hchanged, fun n => ?_⟩
  rw [Bool.eq_iff_iff, List.contains_iff_mem, hmem, Report.Listing.isChanged_ofLines]

theorem underline_eq (text : Text) (p : Span) : underline text p = some (Report.underline text p) := by
  have hsize : (if p.size < 1 then 1 else p.size) - 1 = ((p.size - 1).toNat : Int) := by
    split_ifs <;> omega
  have hbefore : slice text 0 (if p.column - 1 < 0 ∨ (text.length : Int) < p.column - 1 then (text.length : Int)
      else p.column - 1) =
      some (if 0 ≤ p.column - 1 ∧ p.column - 1 ≤ text.length then text.take (p.column - 1).toNat else text) := by
    by_cases hin : 0 ≤ p.column - 1 ∧ p.column - 1 ≤ text.length
    · rw [if_neg (by omega), if_pos hin, slice, if_pos ⟨le_rfl, hin⟩]
      simp
    · rw [if_pos (by omega), if_neg hin, slice, if_pos (by omega)]
      simp
  rw [underline]
  simp only [Option.bind_eq_bind, hbefore, Option.bind_some, hsize, fill_natCast]
  rfl

/-- A listing shows the line that stands at the place of a number. -/
theorem line?_ofLines (raw expanded : List Line) (n : Int) :
    (Report.Listing.ofLines raw expanded).line? n = (item raw (n - 1)).map (·.text) := by
  rw [Report.Listing.line?, Report.Listing.index?, item]
  by_cases hn : 1 ≤ n
  · rw [if_pos hn, if_pos (by omega)]
    simp [Report.Listing.ofLines]
  · rw [if_neg hn, if_neg (by omega)]
    rfl

theorem excerpt_eq (raw expanded : List Line) {changed : List Int}
    (h : ∀ n, changed.contains n = (Report.Listing.ofLines raw expanded).isChanged n) (p : Span) :
    excerpt raw changed p = some (Report.excerpt (Report.Listing.ofLines raw expanded) p) := by
  rw [excerpt, Report.excerpt, h]
  by_cases hout : p.line < 1 ∨ (raw.length : Int) < p.line
  · have hnone : (Report.Listing.ofLines raw expanded).line? p.line = none := by
      rw [line?_ofLines, Option.map_eq_none_iff, item_line_eq_none hout]
    rw [if_pos hout, hnone]
  · obtain ⟨line, hline, hitem⟩ := exists_item_line hout
    have hsome : (Report.Listing.ofLines raw expanded).line? p.line = some line.text := by
      rw [line?_ofLines, hitem, Option.map_some]
    have hfill := fill_natCast ((Text.ofInt p.line).length + 1) ' '.toUInt8
    rw [Int.natCast_add, Int.natCast_one] at hfill
    rw [if_neg hout, hsome, hitem]
    simp only [Option.bind_eq_bind, Option.bind_some, underline_eq, hfill]
    rfl

theorem display_eq (width : Int) (path : Text) (raw expanded : List Line) (title : Text) (d : Diagnostic) :
    display width path raw expanded title d =
      some (Report.display width path (Report.Listing.ofLines raw expanded) title d) := by
  obtain ⟨changed, hchanged, hcontains⟩ := changedLines_eq raw expanded
  rw [display, hchanged, banner_eq, Report.display]
  simp only [Option.bind_eq_bind, Option.bind_some, excerpt_eq raw expanded hcontains]
  cases d.position? with
  | some p => rfl
  | none => exact congrArg some (List.append_nil _).symm

/-! ## Everything together -/

/-- No line, source text, macro limit, diagnostic or terminal makes an offset, a place or a count fall out of
range: read, encoded, assembled and shown by accesses that could fail, everything comes out as the library
gives it. -/
theorem accesses_in_range :
    (∀ line : Line, parse line = some line.parse) ∧
    (∀ t : Token, headRest t = some t.headRest) ∧
    (∀ (t : Token) (sep : UInt8), split t sep = some (t.split sep)) ∧
    (∀ (d : Directive) (args : Token), contents d args = some (Data.contents d args)) ∧
    (∀ (table : SymbolTable) (t : Token), operand table t = some (Operand.ofToken table t)) ∧
    (∀ (table : SymbolTable) (pc : Word) (op : Option Opcode) (keyword args : Token),
      size op args = some (Instruction.size op args) ∧
      encode table pc op keyword args = some (Instruction.encode table pc op keyword args)) ∧
    (∀ lines : List Line, assemble lines = some (Assembly.ofLines lines)) ∧
    (∀ (text : Text) (limit : Int), assembleText text limit = some (Assembly.ofText text limit)) ∧
    ∀ (width : Int) (path : Text) (raw expanded : List Line) (title : Text) (d : Diagnostic),
      display width path raw expanded title d =
        some (Report.display width path (Report.Listing.ofLines raw expanded) title d) :=
  ⟨parse_eq, headRest_eq, split_eq, contents_eq, operand_eq,
    fun table pc op keyword args => ⟨size_eq op args, encode_eq table pc op keyword args⟩,
    assemble_eq, assembleText_eq, display_eq⟩

end TwoPass.Strict
