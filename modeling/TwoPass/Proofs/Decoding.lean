import TwoPass.Proofs.Acceptance

/-!
Reading machine code back. A main word tells how many operands follow and how many words each of them
takes, so code is cut into instructions from its start, with no table and no marks between them.
-/
namespace TwoPass

namespace MachineCode

/-- An operand as the machine sees it. -/
inductive Value where
  | immediate (value : Word)
  | direct (address : Word)
  | register (r : Register)
  | matrix (address : Word) (row column : Register)
  deriving DecidableEq

structure Command where
  op : Opcode
  values : List Value
  deriving DecidableEq

/-! ## The decoder -/

/-- The lowest three bits. -/
def registerBits (n : Nat) : Register :=
  ⟨n % 8, Nat.mod_lt n (Nat.succ_pos 7)⟩

def opcodeField (main : Word) : Nat :=
  main.toNat / 4096

/-- Mode and register of the source, three bits each. -/
def sourceField (main : Word) : Nat :=
  main.toNat / 64 % 64

/-- Mode and register of the destination. -/
def destinationField (main : Word) : Nat :=
  main.toNat % 64

/-- Reads an operand off its field in the main word and the words to come, and returns the words
behind it. -/
def readValue (field : Nat) (words : List Word) : Option (Value × List Word) :=
  match AddressMode.ofCode? (field / 8), words with
  | some .immediate, w :: rest => some (.immediate w, rest)
  | some .direct, w :: rest => some (.direct w, rest)
  | some .register, rest => some (.register (registerBits field), rest)
  | some .matrix, w :: cell :: rest =>
    some (.matrix w (registerBits (cell.toNat / 8)) (registerBits cell.toNat), rest)
  | _, _ => none

def readCommand (main : Word) (words : List Word) : Option (Command × List Word) := do
  let op ← Opcode.ofCode? (opcodeField main)
  match op.arity with
  | 0 => return (⟨op, []⟩, words)
  | 1 =>
    let dst ← readValue (destinationField main) words
    return (⟨op, [dst.1]⟩, dst.2)
  | _ =>
    let src ← readValue (sourceField main) words
    let dst ← readValue (destinationField main) src.2
    return (⟨op, [src.1, dst.1]⟩, dst.2)

theorem length_readValue {field words r} (h : readValue field words = some r) : r.2.length ≤ words.length := by
  unfold readValue at h
  split at h <;> cases h <;> simp
  omega

theorem length_readCommand {main words r} (h : readCommand main words = some r) :
    r.2.length ≤ words.length := by
  unfold readCommand at h
  obtain ⟨op, -, h⟩ := Option.bind_eq_some_iff.mp h
  split at h
  · cases h
    exact Nat.le_refl _
  · obtain ⟨dst, hd, h⟩ := Option.bind_eq_some_iff.mp h
    cases h
    exact length_readValue hd
  · obtain ⟨src, hs, h⟩ := Option.bind_eq_some_iff.mp h
    obtain ⟨dst, hd, h⟩ := Option.bind_eq_some_iff.mp h
    cases h
    exact (length_readValue hd).trans (length_readValue hs)

/-- Reads commands until no word is left. -/
def decode : List Word → Option (List Command)
  | [] => some []
  | main :: words =>
    match _h : readCommand main words with
    | none => none
    | some r => (decode r.2).map (r.1 :: ·)
termination_by words => words.length
decreasing_by
  have hle := length_readCommand _h
  simp only [List.length_cons]
  omega

theorem decode_cons {main words c rest} (h : readCommand main words = some (c, rest)) :
    decode (main :: words) = (decode rest).map (c :: ·) := by
  rw [decode]
  split
  · rename_i hn
    rw [h] at hn
    cases hn
  · rename_i r hr
    rw [h] at hr
    cases hr
    rfl

end MachineCode

/-! ## Encoded operands -/

namespace Operand

/-- What is left of an operand in machine code. -/
def value : Operand → MachineCode.Value
  | .immediate w => .immediate w
  | .direct leads => .direct leads.address
  | .register r => .register r
  | .matrix leads row column => .matrix leads.address row column

theorem field_lt (op : Operand) : op.field < 32 := by
  cases op with
  | register r =>
      have hr := r.isLt
      simp only [field, mode, AddressMode.code]
      omega
  | _ => simp [field, mode, AddressMode.code]

theorem field_div (op : Operand) : op.field / 8 = op.mode.code := by
  cases op with
  | register r =>
      have hr := r.isLt
      simp only [field, mode, AddressMode.code]
      omega
  | _ => simp [field, mode, AddressMode.code]

theorem ofCode?_code (m : AddressMode) : AddressMode.ofCode? m.code = some m := by
  cases m <;> rfl

/-- An operand is read back from its field and its words, whatever follows them. -/
theorem readValue_words (op : Operand) (rest : List Word) :
    MachineCode.readValue op.field (op.words ++ rest) = some (op.value, rest) := by
  have hmode : AddressMode.ofCode? (op.field / 8) = some op.mode := by rw [field_div, ofCode?_code]
  unfold MachineCode.readValue
  rw [hmode]
  cases op with
  | immediate w => rfl
  | direct leads => rfl
  | register r =>
      have hr : MachineCode.registerBits (field (.register r)) = r := by
        revert r
        decide
      simp only [mode, words, List.nil_append, hr, value]
  | matrix leads row column =>
      have hcell : ∀ row column : Register,
          MachineCode.registerBits ((UInt16.ofNat (row.val * 8 + column.val)).toNat / 8) = row ∧
            MachineCode.registerBits (UInt16.ofNat (row.val * 8 + column.val)).toNat = column := by decide
      obtain ⟨hrow, hcolumn⟩ := hcell row column
      simp only [mode, words, List.cons_append, List.nil_append, hrow, hcolumn, value]

end Operand

namespace Opcode

theorem ofCode?_code (op : Opcode) : ofCode? op.code = some op := by
  cases op <;> rfl

theorem code_lt (op : Opcode) : op.code < 16 := by
  cases op <;> decide

end Opcode

/-! ## Encoded instructions -/

namespace Instruction

/-- What stands in the fields of the source and of the destination. -/
def operandFields : List Operand → Nat × Nat
  | [] => (0, 0)
  | [dst] => (0, dst.field)
  | src :: dst :: _ => (src.field, dst.field)

theorem mainWord_eq (op : Opcode) (ops : List Operand) :
    mainWord op ops = .ofNat (op.code * 4096 + (operandFields ops).1 * 64 + (operandFields ops).2) := by
  match ops with
  | [] => simp [mainWord, operandFields]
  | [dst] => simp [mainWord, operandFields]
  | src :: dst :: rest => rfl

theorem operandFields_lt (ops : List Operand) : (operandFields ops).1 < 32 ∧ (operandFields ops).2 < 32 := by
  match ops with
  | [] => decide
  | [dst] => exact ⟨Nat.zero_lt_succ 31, dst.field_lt⟩
  | src :: dst :: rest => exact ⟨src.field_lt, dst.field_lt⟩

/-- The fields of a main word do not overlap. -/
theorem fields_mainWord (op : Opcode) (ops : List Operand) :
    MachineCode.opcodeField (mainWord op ops) = op.code ∧
      MachineCode.sourceField (mainWord op ops) = (operandFields ops).1 ∧
      MachineCode.destinationField (mainWord op ops) = (operandFields ops).2 := by
  have hcode := op.code_lt
  obtain ⟨hsrc, hdst⟩ := operandFields_lt ops
  have hmain : (mainWord op ops).toNat = op.code * 4096 + (operandFields ops).1 * 64 + (operandFields ops).2 := by
    rw [mainWord_eq]
    apply toNat_ofNat_of_lt
    rw [Memory.size]
    omega
  unfold MachineCode.opcodeField MachineCode.sourceField MachineCode.destinationField
  omega

/-- An instruction is read back from its words, whatever follows them. -/
theorem readCommand_words {op : Opcode} {ops : List Operand} (h : ops.length = op.arity) (rest : List Word) :
    MachineCode.readCommand (mainWord op ops) (ops.flatMap Operand.words ++ rest) =
      some (⟨op, ops.map Operand.value⟩, rest) := by
  obtain ⟨hcode, hsrc, hdst⟩ := fields_mainWord op ops
  have hle := arity_le op
  unfold MachineCode.readCommand
  rw [hcode, hsrc, hdst, op.ofCode?_code]
  match ops with
  | [] =>
      have ha : op.arity = 0 := h.symm
      simp only [Option.bind_eq_bind, Option.bind_some, ha]
      rfl
  | [dst] =>
      have ha : op.arity = 1 := h.symm
      simp only [Option.bind_eq_bind, Option.bind_some, ha, operandFields, List.flatMap_cons,
        List.flatMap_nil, List.append_nil, Operand.readValue_words]
      rfl
  | [src, dst] =>
      have ha : op.arity = 2 := h.symm
      simp only [Option.bind_eq_bind, Option.bind_some, ha, operandFields, List.flatMap_cons,
        List.flatMap_nil, List.append_nil, List.append_assoc, Operand.readValue_words]
      rfl
  | _ :: _ :: _ :: _ =>
      simp only [List.length_cons] at h
      omega

end Instruction

namespace MachineCode

/-- The bits of a main word that its operation and its modes do not use are 0. -/
def Tidy (main : Word) : Prop :=
  ∀ op, Opcode.ofCode? (opcodeField main) = some op →
    (op.arity < 2 → sourceField main = 0) ∧ (op.arity < 1 → destinationField main = 0) ∧
      (sourceField main / 8 ≠ AddressMode.register.code → sourceField main % 8 = 0) ∧
      (destinationField main / 8 ≠ AddressMode.register.code → destinationField main % 8 = 0)

/-- A command says what an instruction of the source says: its operation, and what its operands stand
for. -/
structure Command.Reads (table : SymbolTable) (s : Statement) (c : Command) : Prop where
  op : s.action = .instruction (some c.op)
  values : List.Forall₂ (fun t v => ∃ op, Operand.Denotes table t op ∧ op.value = v) s.args.value.arguments
    c.values

end MachineCode

namespace Operand

theorem field_mod {op : Operand} (h : op.field / 8 ≠ AddressMode.register.code) : op.field % 8 = 0 := by
  cases op with
  | register r => exact absurd (field_div _) h
  | _ => simp [field, mode, AddressMode.code]

end Operand

theorem Instruction.tidy_mainWord {op : Opcode} {ops : List Operand} (h : ops.length = op.arity) :
    MachineCode.Tidy (mainWord op ops) := by
  obtain ⟨hcode, hsrc, hdst⟩ := fields_mainWord op ops
  intro op' hop
  rw [hcode, op.ofCode?_code] at hop
  cases hop
  rw [hsrc, hdst, ← h]
  match ops with
  | [] => exact ⟨fun _ => rfl, fun _ => rfl, fun _ => rfl, fun _ => rfl⟩
  | [dst] =>
      refine ⟨fun _ => rfl, fun hlt => ?_, fun _ => rfl, Operand.field_mod⟩
      exact absurd hlt (Nat.lt_irrefl 1)
  | src :: dst :: rest =>
      simp only [List.length_cons]
      exact ⟨fun hlt => by omega, fun hlt => by omega, Operand.field_mod, Operand.field_mod⟩

/-! ## Programs -/

def Statement.isInstruction (s : Statement) : Bool :=
  match s.action with
  | .instruction _ => true
  | .directive _ => false

namespace Placed

theorem reads_of_resolve {table : SymbolTable} {s : Statement} {o : Opcode} {ops : List Operand}
    (ha : s.action = .instruction (some o)) (hr : Instruction.resolve table (Instruction.operands s.args) = .ok ops) :
    MachineCode.Command.Reads table s ⟨o, ops.map Operand.value⟩ := by
  refine ⟨ha, ?_⟩
  rw [← Instruction.map_value_operands, List.forall₂_map_left_iff, List.forall₂_map_right_iff]
  exact (Instruction.resolve_eq_ok.mp hr).imp fun t op h => ⟨op, Operand.denotes_of_ofToken h, rfl⟩

/-- Code without faults is cut into the instructions of the source. -/
theorem decode_code {table : SymbolTable} {ps : List Placed} (h : ∀ p ∈ ps, ∃ r, p.encoded table = .ok r) :
    ∃ cs, MachineCode.decode (ps.flatMap (codeWords table)) = some cs ∧
      List.Forall₂ (MachineCode.Command.Reads table)
        ((ps.map (·.statement)).filter Statement.isInstruction) cs := by
  induction ps with
  | nil => exact ⟨[], by rw [List.flatMap_nil, MachineCode.decode], .nil⟩
  | cons p ps ih =>
      obtain ⟨⟨r, hr⟩, hrest⟩ := List.forall_mem_cons.mp h
      obtain ⟨cs, hcs, hall⟩ := ih hrest
      rw [List.flatMap_cons, List.map_cons]
      cases ha : p.statement.action with
      | directive d =>
          have hno : p.statement.isInstruction = false := by rw [Statement.isInstruction, ha]
          refine ⟨cs, ?_, ?_⟩
          · rw [codeWords, encoded_directive ha]
            exact hcs
          · rwa [List.filter_cons_of_neg (by simp [hno])]
      | instruction op =>
          obtain ⟨o, ops, rfl, harity, hresolve, hw, -⟩ := encoded_instruction hr ha
          have hlength := (Instruction.length_of_resolve hresolve).trans harity
          have hyes : p.statement.isInstruction = true := by rw [Statement.isInstruction, ha]
          refine ⟨⟨o, ops.map Operand.value⟩ :: cs, ?_, ?_⟩
          · rw [hw, Instruction.words, List.cons_append,
              MachineCode.decode_cons (Instruction.readCommand_words hlength _), hcs]
            rfl
          · rw [List.filter_cons_of_pos hyes]
            exact .cons (reads_of_resolve ha hresolve) hall

end Placed

namespace MachineCode

/-- There is one way to read an instruction. -/
theorem Command.Reads.unique {table : SymbolTable}
    (hnames : ∀ name, table.find? name ≠ none → Name.isValid name = true ∧ Name.isReserved name = false) :
    Relator.RightUnique (Command.Reads table) := by
  intro s c c' h h'
  have hop : c.op = c'.op := by simpa using h.op.symm.trans h'.op
  have hvalue : Relator.RightUnique fun t v => ∃ op, Operand.Denotes table t op ∧ op.value = v := by
    rintro t _ _ ⟨op, ho, rfl⟩ ⟨op', ho', rfl⟩
    have ht := Operand.ofToken_of_denotes hnames (t := ⟨default, t⟩) ho
    rw [Operand.ofToken_of_denotes hnames (t := ⟨default, t⟩) ho'] at ht
    cases ht
    rfl
  have hvalues : c.values = c'.values := hvalue.forall₂ h.values h'.values
  cases c
  cases c'
  simp_all

end MachineCode

namespace Assembly

/-- The commands say what the instructions of the source say, one by one. -/
def MeansCommands (lines : List Line) (cs : List MachineCode.Command) : Prop :=
  List.Forall₂ (MachineCode.Command.Reads (ofLines lines).program.symbols)
    ((Statement.ofLines lines).filter Statement.isInstruction) cs

section
variable {lines : List Line} (h : (ofLines lines).errors = [])
include h

theorem encoded_of_no_errors {p : Placed} (hp : p ∈ Placed.list (Statement.ofLines lines)) :
    ∃ r, p.encoded (ofLines lines).program.symbols = .ok r := by
  obtain ⟨-, -, -, hfaults, hfits⟩ := (errors_ofLines_eq_nil lines).mp h
  rw [program_ofLines hfits, Placed.encoded_mark]
  exact Placed.encoded_of_faults (hfaults p hp)

theorem instructions_eq : (ofLines lines).program.instructions =
    (Placed.list (Statement.ofLines lines)).flatMap (Placed.codeWords (ofLines lines).program.symbols) := by
  obtain ⟨-, -, -, -, hfits⟩ := (errors_ofLines_eq_nil lines).mp h
  rw [program_ofLines hfits]
  exact List.flatMap_congr fun p _ => (p.codeWords_mark _ _).symm

theorem exists_decode : ∃ cs, MachineCode.decode (ofLines lines).program.instructions = some cs ∧
    MeansCommands lines cs := by
  obtain ⟨cs, hcs, hall⟩ := Placed.decode_code fun p hp => encoded_of_no_errors h hp
  rw [Placed.map_statement_list] at hall
  exact ⟨cs, (instructions_eq h).symm ▸ hcs, hall⟩

theorem meansCommands_unique {cs cs' : List MachineCode.Command} (hcs : MeansCommands lines cs)
    (hcs' : MeansCommands lines cs') : cs = cs' := by
  obtain ⟨-, -, -, -, hfits⟩ := (errors_ofLines_eq_nil lines).mp h
  have hnames : ∀ name, (ofLines lines).program.symbols.find? name ≠ none →
      Name.isValid name = true ∧ Name.isReserved name = false := by
    intro name hn
    obtain ⟨s, hs⟩ := Option.ne_none_iff_exists'.mp hn
    have hname : s.name = name := by simpa using List.find?_some hs
    exact hname ▸ name_of_mem hfits (List.mem_of_find?_eq_some hs)
  exact (MachineCode.Command.Reads.unique hnames).forall₂ hcs hcs'

theorem tidy_instruction {p : Placed} (hp : p ∈ Placed.list (Statement.ofLines lines)) {op}
    (ha : p.statement.action = .instruction op) :
    ∃ main, (ofLines lines).program.instructions[p.code]? = some main ∧ MachineCode.Tidy main := by
  obtain ⟨r, hr⟩ := encoded_of_no_errors h hp
  obtain ⟨o, ops, -, harity, hresolve, hw, -⟩ := Placed.encoded_instruction hr ha
  have hlength := (Instruction.length_of_resolve hresolve).trans harity
  obtain ⟨before, after, hcode, hbefore⟩ := Placed.code_split (ofLines lines).program.symbols hp
  refine ⟨Instruction.mainWord o ops, ?_, Instruction.tidy_mainWord hlength⟩
  rw [instructions_eq h, hcode, hw, ← hbefore, List.getElem?_append_right (Nat.le_refl _), Nat.sub_self]
  rfl

end

/-- Machine code is uniquely decodable. The code of a source without errors is cut into one command for
each instruction, with the operation and what the operands stand for, and nothing is left over; the
bits that a main word does not use are 0. So the code tells the instructions of the source. -/
theorem instructions_decode (lines : List Line) (h : (ofLines lines).errors = []) :
    ∃ cs, MachineCode.decode (ofLines lines).program.instructions = some cs ∧
      (∀ cs', MeansCommands lines cs' ↔ cs' = cs) ∧
      (∀ p ∈ Placed.list (Statement.ofLines lines), ∀ op, p.statement.action = .instruction op →
        ∃ main, (ofLines lines).program.instructions[p.code]? = some main ∧ MachineCode.Tidy main) ∧
      ∀ others, (ofLines others).errors = [] →
        (ofLines others).program.instructions = (ofLines lines).program.instructions →
        ∀ cs', MeansCommands others cs' ↔ cs' = cs := by
  have hmeans : ∀ others, (ofLines others).errors = [] → ∀ cs,
      MachineCode.decode (ofLines others).program.instructions = some cs →
      ∀ cs', MeansCommands others cs' ↔ cs' = cs := by
    intro others ho cs hd cs'
    obtain ⟨ds, hds, hall⟩ := exists_decode ho
    rw [hd] at hds
    cases hds
    exact ⟨fun hcs' => meansCommands_unique ho hcs' hall, fun he => he ▸ hall⟩
  obtain ⟨cs, hcs, -⟩ := exists_decode h
  refine ⟨cs, hcs, hmeans lines h cs hcs, fun p hp op ha => tidy_instruction h hp ha, ?_⟩
  intro others ho he
  exact hmeans others ho cs (he ▸ hcs)

/-- A source whose operands take none, one and two words, with data between the instructions. -/
def mixedSource : List Line :=
  [⟨1, Text.of "lea B[r3][r4], #-1"⟩, ⟨2, Text.of "B: .data 3"⟩, ⟨3, Text.of "jmp r5"⟩]

theorem mixedSource_decodes :
    (ofLines mixedSource).errors = [] ∧
      MachineCode.decode (ofLines mixedSource).program.instructions =
        some [⟨.lea, [.matrix 105 3 4, .immediate 65535]⟩, ⟨.jmp, [.register 5]⟩] ∧
      MeansCommands mixedSource [⟨.lea, [.matrix 105 3 4, .immediate 65535]⟩, ⟨.jmp, [.register 5]⟩] := by
  have herrors : (ofLines mixedSource).errors = [] := by decide +kernel
  have hcode : (ofLines mixedSource).program.instructions = [17920, 105, 28, 65535, 36885] := by
    decide +kernel
  have hlea : MachineCode.readCommand 17920 [105, 28, 65535, 36885] =
      some (⟨.lea, [.matrix 105 3 4, .immediate 65535]⟩, [36885]) := by decide
  have hjmp : MachineCode.readCommand 36885 [] = some (⟨.jmp, [.register 5]⟩, []) := by decide
  have hdecode : MachineCode.decode [17920, 105, 28, 65535, 36885] =
      some [⟨.lea, [.matrix 105 3 4, .immediate 65535]⟩, ⟨.jmp, [.register 5]⟩] := by
    rw [MachineCode.decode_cons hlea, MachineCode.decode_cons hjmp, MachineCode.decode]
    rfl
  obtain ⟨cs, hcs, hmeans, -⟩ := instructions_decode mixedSource herrors
  rw [hcode, hdecode] at hcs
  cases hcs
  exact ⟨herrors, by rw [hcode, hdecode], (hmeans _).mpr rfl⟩

end Assembly

end TwoPass
