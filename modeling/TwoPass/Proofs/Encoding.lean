import TwoPass.Instruction
import TwoPass.Proofs.Symbols

/-!
What one instruction is encoded to. The size that the shapes of the operands promise is the number
of words that the operands give once they are looked up, and a lookup does not see export marks.
-/
namespace TwoPass

/-! ## Steps that may be at fault -/

section
variable {ε α β : Type} {x : Except ε α} {f : α → Except ε β}

theorem bind_eq_ok {b : β} : (x >>= f) = .ok b ↔ ∃ a, x = .ok a ∧ f a = .ok b := by
  cases x <;> simp [bind, Except.bind]

theorem bind_eq_error {e : ε} : (x >>= f) = .error e ↔ x = .error e ∨ ∃ a, x = .ok a ∧ f a = .error e := by
  cases x <;> simp [bind, Except.bind]

end

/-! ## Operands -/

/-- Where a symbol leads. -/
def Symbol.target (s : Symbol) : Target :=
  ⟨s.address, if s.kind = .external then some s.name else none⟩

namespace Operand

theorem length_words (op : Operand) : op.words.length = op.mode.extraWords := by
  cases op <;> rfl

section
variable {table : SymbolTable} {op : Operand}

theorem ofShape_immediate {literal : Token} :
    ofShape table (.immediate literal) = .ok op ↔ ∃ w, literal.literal = .ok w ∧ op = .immediate w := by
  simp [ofShape, bind_eq_ok, pure, Except.pure, eq_comm (a := op)]

theorem ofShape_register {r : Register} : ofShape table (.register r) = .ok op ↔ op = .register r := by
  simp [ofShape, pure, Except.pure, eq_comm]

theorem ofShape_matrix {label row column : Token} :
    ofShape table (.matrix label row column) = .ok op ↔
      ∃ r c leads, readRegister row = .ok r ∧ readRegister column = .ok c ∧
        target table label = .ok leads ∧ op = .matrix leads r c := by
  simp [ofShape, bind_eq_ok, pure, Except.pure, eq_comm (a := op)]

theorem ofShape_direct {label : Token} :
    ofShape table (.direct label) = .ok op ↔ ∃ leads, target table label = .ok leads ∧ op = .direct leads := by
  simp [ofShape, bind_eq_ok, pure, Except.pure, eq_comm (a := op)]

end

theorem target_eq_ok {table label leads} :
    target table label = .ok leads ↔ ∃ s, table.find? label.value = some s ∧ s.target = leads := by
  unfold target Symbol.target
  cases table.find? label.value <;> simp

theorem readRegister_eq_ok {t r} : readRegister t = .ok r ↔ Register.parse? t.value = some r := by
  unfold readRegister
  cases Register.parse? t.value <;> simp

theorem target_eq_error {table label d} :
    target table label = .error d ↔
      table.find? label.value = none ∧ d = .unknownLabel label.position label.value := by
  unfold target
  cases table.find? label.value <;> simp [eq_comm]

theorem readRegister_eq_error {t d} :
    readRegister t = .error d ↔ Register.parse? t.value = none ∧ d = .invalidRegister t.position := by
  unfold readRegister
  cases Register.parse? t.value <;> simp [eq_comm]

/-- Looking an operand up keeps the mode that its shape shows. -/
theorem mode_ofShape {table shape op} (h : ofShape table shape = .ok op) : op.mode = shape.mode := by
  cases shape with
  | immediate literal =>
      obtain ⟨w, -, rfl⟩ := ofShape_immediate.mp h
      rfl
  | register r =>
      obtain rfl := ofShape_register.mp h
      rfl
  | matrix label row column =>
      obtain ⟨r, c, leads, -, -, -, rfl⟩ := ofShape_matrix.mp h
      rfl
  | direct label =>
      obtain ⟨leads, -, rfl⟩ := ofShape_direct.mp h
      rfl

theorem mode_ofToken {table t op} (h : ofToken table t = .ok op) : op.mode = (Shape.ofToken t).mode := by
  unfold ofToken at h
  split at h
  · cases h
  · exact mode_ofShape h

theorem target_eq (table : SymbolTable) (label : Token) :
    target table label = ((table.find? label.value).map Symbol.target).elim
      (.error (.unknownLabel label.position label.value)) .ok := by
  unfold target
  cases table.find? label.value <;> rfl

/-- Of a table only where its names lead shows in an operand. -/
theorem ofToken_congr {table table' : SymbolTable}
    (h : ∀ name, (table.find? name).map Symbol.target = (table'.find? name).map Symbol.target) (t : Token) :
    ofToken table t = ofToken table' t := by
  have htarget : target table = target table' := funext fun label => by rw [target_eq, h, target_eq]
  unfold ofToken
  cases Shape.ofToken t <;> simp only [ofShape, htarget]

end Operand

/-! ## Instructions -/

namespace Instruction

/-- All operands are looked up if each of them is. -/
theorem resolve_eq_ok {table ts ops} :
    resolve table ts = .ok ops ↔ List.Forall₂ (fun t op => Operand.ofToken table t = .ok op) ts ops := by
  induction ts generalizing ops with
  | nil => simp [resolve, eq_comm]
  | cons t ts ih =>
      rw [List.forall₂_cons_left_iff]
      -- the rest is looked up even behind a fault, to tell all faults at once
      cases ht : Operand.ofToken table t with
      | error e => cases hs : resolve table ts <;> simp [resolve, ht, hs]
      | ok op =>
          cases hs : resolve table ts with
          | error es =>
              have hn : ∀ ops, ¬ List.Forall₂ (fun t op => Operand.ofToken table t = .ok op) ts ops := by
                intro ops hf
                have he := ih.mpr hf
                rw [hs] at he
                cases he
              simp [resolve, ht, hs, hn]
          | ok ops' =>
              have hu : ∀ l, List.Forall₂ (fun t op => Operand.ofToken table t = .ok op) ts l ↔
                  ops' = l := by
                intro l
                rw [← ih, hs, Except.ok.injEq]
              simp only [resolve, ht, hs, hu, Except.ok.injEq]
              constructor
              · rintro rfl
                exact ⟨op, ops', rfl, rfl, rfl⟩
              · rintro ⟨_, _, rfl, rfl, rfl⟩
                rfl

theorem length_of_resolve {table ts ops} (h : resolve table ts = .ok ops) : ops.length = ts.length :=
  (resolve_eq_ok.mp h).length_eq.symm

/-- Each operand gives as many words as its shape promises. -/
theorem lengths_of_resolve {table ts ops} (h : resolve table ts = .ok ops) :
    ops.map (fun op => op.words.length) = ts.map fun t => (Shape.ofToken t).mode.extraWords := by
  have hf := resolve_eq_ok.mp h
  clear h
  induction hf with
  | nil => rfl
  | cons ht _ ih => rw [List.map_cons, List.map_cons, ih, Operand.length_words, Operand.mode_ofToken ht]

section
variable {table table' : SymbolTable}
    (h : ∀ name, (table.find? name).map Symbol.target = (table'.find? name).map Symbol.target)
include h

theorem resolve_congr (ts : List Token) : resolve table ts = resolve table' ts := by
  induction ts with
  | nil => rfl
  | cons t ts ih => simp only [resolve, ih, Operand.ofToken_congr h]

theorem encode_congr (pc : Word) (op : Option Opcode) (keyword args : Token) :
    encode table pc op keyword args = encode table' pc op keyword args := by
  simp only [encode, resolve_congr h]

end

/-- Export marks do not show in where a name leads. -/
theorem encode_mark (names : List Text) (table : SymbolTable) (pc : Word) (op : Option Opcode)
    (keyword args : Token) :
    encode (table.mark names) pc op keyword args = encode table pc op keyword args := by
  apply encode_congr
  intro name
  rw [SymbolTable.find?_mark, Option.map_map]
  rfl

/-- An instruction is encoded if its mnemonic is known, its operands are as many as the operation
takes, and all of them are looked up. -/
theorem encode_eq_ok {table pc op keyword args words uses} :
    encode table pc op keyword args = .ok (words, uses) ↔
      ∃ o ops, op = some o ∧ (operands args).length = o.arity ∧
        resolve table (operands args) = .ok ops ∧
        words = Instruction.words o ops ∧ uses = Instruction.uses (pc + 1) ops := by
  cases op with
  | none => simp [encode]
  | some o =>
      by_cases ha : (operands args).length = o.arity
      · cases hr : resolve table (operands args) with
        | error es => simp [encode, ha, hr]
        | ok ops => simp [encode, ha, hr, eq_comm]
      · simp [encode, ha]

theorem resolve_ne_error_nil (table : SymbolTable) (ts : List Token) : resolve table ts ≠ .error [] := by
  induction ts with
  | nil => simp [resolve]
  | cons t ts ih =>
      cases ht : Operand.ofToken table t with
      | ok op =>
          cases hs : resolve table ts with
          | ok ops => simp [resolve, ht, hs]
          | error es =>
              rw [hs] at ih
              simpa [resolve, ht, hs] using ih
      | error e => cases hs : resolve table ts <;> simp [resolve, ht, hs]

/-- An instruction that is not encoded has a fault. -/
theorem encode_ne_error_nil (table : SymbolTable) (pc : Word) (op : Option Opcode)
    (keyword args : Token) : encode table pc op keyword args ≠ .error [] := by
  cases op with
  | none => simp [encode]
  | some o =>
      by_cases ha : (operands args).length = o.arity
      · cases hr : resolve table (operands args) with
        | ok ops => simp [encode, ha, hr]
        | error es =>
            have hne := resolve_ne_error_nil table (operands args)
            rw [hr] at hne
            simpa [encode, ha, hr] using hne
      · simp [encode, ha]

theorem arity_le (op : Opcode) : op.arity ≤ 2 := by
  cases op <;> decide

/-- The size of an instruction with as many operands as its operation takes. -/
theorem size_eq {op : Opcode} {args : Token} (h : (operands args).length = op.arity) :
    size (some op) args = 1 + ((operands args).map fun t => (Shape.ofToken t).mode.extraWords).sum := by
  have htake : (operands args).take 2 = operands args :=
    List.take_of_length_le (h ▸ arity_le op)
  have hfold : ∀ (ts : List Token) (n : Nat),
      ts.foldl (fun n t => n + (Shape.ofToken t).mode.extraWords) n =
        n + (ts.map fun t => (Shape.ofToken t).mode.extraWords).sum := by
    intro ts
    induction ts with
    | nil => simp
    | cons t ts ih => intro n; simp [ih, Nat.add_assoc]
  unfold size
  by_cases ha : op.arity = 0
  · rw [ha, List.length_eq_zero_iff] at h
    simp [ha, h]
  · simp [ha, htake, hfold]

/-- The words of an instruction fill the place that its size promises. -/
theorem length_of_encode {table pc op keyword args words uses}
    (h : encode table pc op keyword args = .ok (words, uses)) : words.length = size op args := by
  obtain ⟨o, ops, rfl, ha, hr, rfl, -⟩ := encode_eq_ok.mp h
  rw [size_eq ha, ← lengths_of_resolve hr]
  simp [Instruction.words, List.length_flatMap, Nat.add_comm]

end Instruction

end TwoPass
