import TwoPass.Proofs.Labels

/-!
The words of a program that refer to names defined elsewhere. Each operand of an encoded instruction
has a slot, which starts at the address of the first word that the operand adds, and the uses of a
program are read off its slots.
-/
namespace TwoPass

def Shape.label? : Shape → Option Token
  | .direct label | .matrix label _ _ => some label
  | .immediate _ | .register _ => none

structure Slot where
  address : Nat
  token : Token

namespace Slot

def shape (slot : Slot) : Shape :=
  Shape.ofToken slot.token

def size (slot : Slot) : Nat :=
  slot.shape.mode.extraWords

/-- The operand in the slot is a name defined elsewhere, or a matrix under such a name. -/
def Names (table : SymbolTable) (slot : Slot) (name : Text) : Prop :=
  slot.shape.label?.map (·.value) = some name ∧ ∃ s, table.find? name = some s ∧ s.kind = .external

def use? (table : SymbolTable) (slot : Slot) : Option ExternalUse := do
  let label ← slot.shape.label?
  let s ← table.find? label.value
  if s.kind = .external then some ⟨label.value, .ofNat slot.address⟩ else none

/-- The slots of operands whose words stand one behind the other. -/
def listFrom (address : Nat) : List Token → List Slot
  | [] => []
  | t :: ts => ⟨address, t⟩ :: listFrom (address + (Shape.ofToken t).mode.extraWords) ts

theorem use?_eq_some {table slot u} :
    use? table slot = some u ↔ slot.Names table u.name ∧ u.address = .ofNat slot.address := by
  unfold use? Names
  simp only [Option.bind_eq_bind, Option.bind_eq_some_iff, Option.map_eq_some_iff, Option.ite_none_right_eq_some,
    Option.some.injEq]
  constructor
  · rintro ⟨label, hl, s, hs, hk, rfl⟩
    exact ⟨⟨⟨label, hl, rfl⟩, s, hs, hk⟩, rfl⟩
  · obtain ⟨name, address⟩ := u
    rintro ⟨⟨⟨label, hl, rfl⟩, s, hs, hk⟩, rfl⟩
    exact ⟨label, hl, s, hs, hk, rfl⟩

theorem Names.size_pos {table slot name} (h : Names table slot name) : 0 < slot.size := by
  obtain ⟨hl, -⟩ := h
  unfold size
  cases hs : slot.shape with
  | immediate literal => simp [hs, Shape.label?] at hl
  | register r => simp [hs, Shape.label?] at hl
  | direct label => exact Nat.one_pos
  | matrix label row column => exact Nat.two_pos

end Slot

/-! ## Operands -/

namespace Operand

theorem external?_target {table label leads} (h : target table label = .ok leads) :
    leads.external = (table.find? label.value).bind fun s =>
      if s.kind = .external then some label.value else none := by
  obtain ⟨s, hs, rfl⟩ := target_eq_ok.mp h
  have hn : s.name = label.value := by simpa using List.find?_some hs
  rw [hs, Symbol.target, hn]
  rfl

/-- The name that an operand leads to shows in its shape. -/
theorem external?_ofShape {table shape op} (h : ofShape table shape = .ok op) :
    op.external? = shape.label?.bind fun label => (table.find? label.value).bind fun s =>
      if s.kind = .external then some label.value else none := by
  cases shape with
  | immediate literal =>
      obtain ⟨w, -, rfl⟩ := ofShape_immediate.mp h
      rfl
  | register r =>
      obtain rfl := ofShape_register.mp h
      rfl
  | direct label =>
      obtain ⟨leads, hl, rfl⟩ := ofShape_direct.mp h
      exact external?_target hl
  | matrix label row column =>
      obtain ⟨r, c, leads, -, -, hl, rfl⟩ := ofShape_matrix.mp h
      exact external?_target hl

theorem ofShape_of_ofToken {table t op} (h : ofToken table t = .ok op) :
    ofShape table (Shape.ofToken t) = .ok op := by
  unfold ofToken at h
  split at h
  · cases h
  · exact h

theorem use?_ofToken {table t op} (h : ofToken table t = .ok op) (address : Nat) :
    Slot.use? table ⟨address, t⟩ = op.external?.map (⟨·, .ofNat address⟩) := by
  rw [external?_ofShape (ofShape_of_ofToken h), Slot.use?, Slot.shape]
  cases (Shape.ofToken t).label? with
  | none => rfl
  | some label =>
      cases hf : table.find? label.value with
      | none => simp [hf]
      | some s => by_cases hk : s.kind = .external <;> simp [hf, hk]

theorem target_zero {table label leads} (h : target table label = .ok leads) {s}
    (hs : table.find? label.value = some s) (hz : s.address = 0) : leads.address = 0 := by
  obtain ⟨s', hs', rfl⟩ := target_eq_ok.mp h
  rw [hs] at hs'
  cases hs'
  exact hz

/-- An operand that names an external starts with the word 0. -/
theorem words_of_names {table t op address name} (h : ofToken table t = .ok op)
    (hn : Slot.Names table ⟨address, t⟩ name)
    (hzero : ∀ s, table.find? name = some s → s.kind = .external → s.address = 0) :
    ∃ rest, op.words = 0 :: rest := by
  obtain ⟨hl, s, hs, hk⟩ := hn
  obtain ⟨label, hlabel, rfl⟩ := Option.map_eq_some_iff.mp hl
  have hshape := ofShape_of_ofToken h
  unfold Slot.shape at hlabel
  cases hshow : Shape.ofToken t with
  | immediate literal => simp [hshow, Shape.label?] at hlabel
  | register r => simp [hshow, Shape.label?] at hlabel
  | direct token =>
      rw [hshow] at hlabel hshape
      obtain rfl := Option.some.inj hlabel
      obtain ⟨leads, ht, rfl⟩ := ofShape_direct.mp hshape
      exact ⟨[], by rw [words, target_zero ht hs (hzero s hs hk)]⟩
  | matrix token row column =>
      rw [hshow] at hlabel hshape
      obtain rfl := Option.some.inj hlabel
      obtain ⟨r, c, leads, -, -, ht, rfl⟩ := ofShape_matrix.mp hshape
      exact ⟨_, by rw [words, target_zero ht hs (hzero s hs hk)]⟩

end Operand

/-! ## Instructions -/

namespace Slot

section
variable {table : SymbolTable} {ts : List Token} {ops : List Operand}

theorem uses_eq (h : Instruction.resolve table ts = .ok ops) (address : Nat) :
    Instruction.uses (.ofNat address) ops = (listFrom address ts).filterMap (use? table) := by
  have hf := Instruction.resolve_eq_ok.mp h
  clear h
  induction hf generalizing address with
  | nil => rfl
  | @cons t op ts ops ht _ ih =>
      have hlength : op.words.length = (Shape.ofToken t).mode.extraWords := by
        rw [Operand.length_words, Operand.mode_ofToken ht]
      rw [Instruction.uses, hlength, ← UInt16.ofNat_add, ih, listFrom, List.filterMap_cons,
        Operand.use?_ofToken ht]
      cases op.external? <;> rfl

/-- The slots of an instruction follow each other within its extra words. -/
theorem pairwise_listFrom (address : Nat) (ts : List Token) :
    (listFrom address ts).Pairwise (fun x y => x.address + x.size ≤ y.address) ∧
      ∀ x ∈ listFrom address ts, address ≤ x.address ∧
        x.address + x.size ≤ address + (ts.map fun t => (Shape.ofToken t).mode.extraWords).sum := by
  induction ts generalizing address with
  | nil => exact ⟨.nil, fun x hx => absurd hx List.not_mem_nil⟩
  | cons t ts ih =>
      obtain ⟨hpair, hrange⟩ := ih (address + (Shape.ofToken t).mode.extraWords)
      rw [listFrom, List.pairwise_cons, List.forall_mem_cons, List.map_cons, List.sum_cons]
      refine ⟨⟨fun x hx => (hrange x hx).1, hpair⟩, ⟨Nat.le_refl _, ?_⟩, fun x hx => ?_⟩
      · simp only [size, shape]
        omega
      · obtain ⟨h₁, h₂⟩ := hrange x hx
        omega

/-- The words of an operand stand in its slot. -/
theorem words_split (h : Instruction.resolve table ts = .ok ops) {address : Nat} {slot : Slot}
    (hslot : slot ∈ listFrom address ts) :
    ∃ op before after, Operand.ofToken table slot.token = .ok op ∧
      ops.flatMap Operand.words = before ++ (op.words ++ after) ∧ slot.address = address + before.length := by
  have hf := Instruction.resolve_eq_ok.mp h
  clear h
  induction hf generalizing address with
  | nil => cases hslot
  | @cons t op ts ops ht _ ih =>
      rcases List.mem_cons.mp hslot with rfl | hslot
      · exact ⟨op, [], ops.flatMap Operand.words, ht, List.flatMap_cons, rfl⟩
      · obtain ⟨op', before, after, ht', hw, ha⟩ := ih hslot
        refine ⟨op', op.words ++ before, after, ht', ?_, ?_⟩
        · rw [List.flatMap_cons, hw, List.append_assoc]
        · rw [ha, List.length_append, Operand.length_words, Operand.mode_ofToken ht, Nat.add_assoc]

end

end Slot

namespace Placed

def slots (p : Placed) : List Slot :=
  match p.statement.action with
  | .instruction _ => Slot.listFrom (p.address + 1) (Instruction.operands p.statement.args)
  | .directive _ => []

/-- The slots that are filled. An instruction at fault has none. -/
def filledSlots (table : SymbolTable) (p : Placed) : List Slot :=
  match p.encoded table with
  | .ok _ => p.slots
  | .error _ => []

theorem mem_filledSlots {table p slot} :
    slot ∈ filledSlots table p ↔ (∃ r, p.encoded table = .ok r) ∧ slot ∈ p.slots := by
  unfold filledSlots
  cases p.encoded table <;> simp

/-- Only instructions have slots, and one that is filled has all its operands looked up. -/
theorem resolve_of_mem {table p slot} (h : slot ∈ filledSlots table p) :
    ∃ o ops, p.statement.action = .instruction (some o) ∧
      slot ∈ Slot.listFrom (p.address + 1) (Instruction.operands p.statement.args) ∧
      (Instruction.operands p.statement.args).length = o.arity ∧
      Instruction.resolve table (Instruction.operands p.statement.args) = .ok ops ∧
      p.codeWords table = Instruction.words o ops := by
  obtain ⟨⟨r, he⟩, hs⟩ := mem_filledSlots.mp h
  unfold slots at hs
  cases ha : p.statement.action with
  | directive d =>
      rw [ha] at hs
      cases hs
  | instruction op =>
      rw [ha] at hs
      obtain ⟨o, ops, rfl, harity, hr, hw, -⟩ := encoded_instruction he ha
      exact ⟨o, ops, rfl, hs, harity, hr, hw⟩

theorem uses_eq (table : SymbolTable) (p : Placed) :
    p.uses table = (p.filledSlots table).filterMap (Slot.use? table) := by
  unfold filledSlots slots
  cases he : p.encoded table with
  | error ds => simp only [uses, he, List.filterMap_nil]
  | ok r =>
      cases ha : p.statement.action with
      | directive d => simp only [uses, encoded_directive ha, List.filterMap_nil]
      | instruction op =>
          obtain ⟨o, ops, -, -, hr, -, hu⟩ := encoded_instruction he ha
          have hnext : UInt16.ofNat p.address + 1 = .ofNat (p.address + 1) :=
            (UInt16.ofNat_add p.address 1).symm
          rw [hu, hnext]
          exact Slot.uses_eq hr (p.address + 1)

/-- A filled slot lies behind the main word, within the place of its instruction. -/
theorem slot_range {table p slot} (h : slot ∈ filledSlots table p) :
    p.address < slot.address ∧ slot.address + slot.size ≤ p.address + p.statement.codeSize := by
  obtain ⟨o, ops, ha, hmem, harity, -⟩ := resolve_of_mem h
  obtain ⟨h₁, h₂⟩ := (Slot.pairwise_listFrom _ _).2 slot hmem
  have hsize : p.statement.codeSize =
      1 + ((Instruction.operands p.statement.args).map fun t => (Shape.ofToken t).mode.extraWords).sum := by
    rw [Statement.codeSize, ha]
    exact Instruction.size_eq harity
  omega

theorem slot_split {table p slot} (h : slot ∈ filledSlots table p) :
    ∃ op before after, Operand.ofToken table slot.token = .ok op ∧
      p.codeWords table = before ++ (op.words ++ after) ∧ slot.address = p.address + before.length := by
  obtain ⟨o, ops, -, hmem, -, hr, hw⟩ := resolve_of_mem h
  obtain ⟨op, before, after, ht, hops, ha⟩ := Slot.words_split hr hmem
  refine ⟨op, Instruction.mainWord o ops :: before, after, ht, ?_, ?_⟩
  · rw [hw, Instruction.words, hops]
    rfl
  · rw [ha, List.length_cons, Nat.add_assoc, Nat.add_comm 1]

/-! ## Programs -/

theorem pairwise_listFrom (code data : Nat) (ss : List Statement) :
    (listFrom code data ss).Pairwise (fun p q => p.address + p.statement.codeSize ≤ q.address) ∧
      ∀ p ∈ listFrom code data ss, Memory.base + code ≤ p.address := by
  induction ss generalizing code data with
  | nil => exact ⟨.nil, fun p hp => absurd hp List.not_mem_nil⟩
  | cons s ss ih =>
      obtain ⟨hpair, hrange⟩ := ih (code + s.codeSize) (data + s.dataWords.length)
      rw [listFrom, List.pairwise_cons, List.forall_mem_cons]
      refine ⟨⟨fun p hp => ?_, hpair⟩, Nat.le_refl _, fun p hp => ?_⟩
      · have hle := hrange p hp
        simp only [address] at hle ⊢
        omega
      · have hle := hrange p hp
        omega

/-- The places of two statements do not overlap. -/
theorem apart {ss p q} (hp : p ∈ list ss) (hq : q ∈ list ss) (hne : p ≠ q) :
    p.address + p.statement.codeSize ≤ q.address ∨ q.address + q.statement.codeSize ≤ p.address := by
  have hsymm : Std.Symm fun p q : Placed =>
      p.address + p.statement.codeSize ≤ q.address ∨ q.address + q.statement.codeSize ≤ p.address :=
    ⟨fun _ _ => Or.symm⟩
  have hall : (list ss).Pairwise fun p q : Placed =>
      p.address + p.statement.codeSize ≤ q.address ∨ q.address + q.statement.codeSize ≤ p.address :=
    (pairwise_listFrom 0 0 ss).1.imp Or.inl
  exact hall.forall hp hq hne

theorem end_le {ss p} (h : p ∈ list ss) :
    Memory.base ≤ p.address ∧ p.address + p.statement.codeSize ≤ Memory.base + Statement.codeTotal ss := by
  obtain ⟨before, after, rfl, hc, -⟩ := mem_list.mp h
  rw [address, hc, Statement.codeTotal_append, Statement.codeTotal_cons]
  omega

end Placed

/-- The filled slots of a program, in the order of the source. -/
def Slot.ofStatements (table : SymbolTable) (ss : List Statement) : List Slot :=
  (Placed.list ss).flatMap (Placed.filledSlots table)

namespace Slot

variable {table : SymbolTable} {ss : List Statement}

theorem pairwise_ofStatements (table : SymbolTable) (ss : List Statement) :
    (ofStatements table ss).Pairwise fun x y => x.address + x.size ≤ y.address := by
  refine List.pairwise_flatMap.mpr ⟨fun p hp => ?_, ?_⟩
  · unfold Placed.filledSlots Placed.slots
    split
    · split
      · exact (pairwise_listFrom _ _).1
      · exact .nil
    · exact .nil
  · refine (Placed.pairwise_listFrom 0 0 ss).1.imp fun hle x hx y hy => ?_
    obtain ⟨-, hx⟩ := Placed.slot_range hx
    obtain ⟨hy, -⟩ := Placed.slot_range hy
    omega

theorem range_ofStatements {slot} (h : slot ∈ ofStatements table ss) :
    Memory.base < slot.address ∧ slot.address + slot.size ≤ Memory.base + Statement.codeTotal ss := by
  obtain ⟨p, hp, hs⟩ := List.mem_flatMap.mp h
  obtain ⟨h₁, h₂⟩ := Placed.slot_range hs
  obtain ⟨h₃, h₄⟩ := Placed.end_le hp
  omega

theorem toNat_address (hfits : Statement.Fits ss) {slot name} (h : slot ∈ ofStatements table ss)
    (hn : slot.Names table name) : (UInt16.ofNat slot.address).toNat = slot.address := by
  have hpos := hn.size_pos
  have hrange := range_ofStatements h
  apply toNat_ofNat_of_lt
  unfold Statement.Fits at hfits
  omega

end Slot

theorem Layout.address_of_external {ss : List Statement} {name s} (h : (finalTable ss).find? name = some s)
    (hk : s.kind = .external) : s.address = 0 := by
  rw [find?_finalTable] at h
  obtain ⟨d, hd, rfl⟩ := Option.map_eq_some_iff.mp h
  obtain ⟨before, t, after, -, -, ht⟩ := Statement.find?_definitions hd
  rcases Placed.find?_definitions ht with ⟨label, -, -, rfl⟩ | ⟨-, token, -, -, rfl⟩
  · rw [Symbol.relocate_kind] at hk
    unfold Placed.labelSymbol at hk
    split at hk <;> cases hk
  · rfl

namespace Assembly

section
variable {lines : List Line} (hfits : Statement.Fits (Statement.ofLines lines))
include hfits

theorem externals_eq :
    (ofLines lines).program.externals =
      (Slot.ofStatements (Layout.finalTable (Statement.ofLines lines)) (Statement.ofLines lines)).filterMap
        (Slot.use? (Layout.finalTable (Statement.ofLines lines))) := by
  rw [program_ofLines hfits, Slot.ofStatements, List.filterMap_flatMap]
  exact List.flatMap_congr fun p _ => p.uses_eq _

theorem mem_externals {u : ExternalUse} :
    u ∈ (ofLines lines).program.externals ↔
      ∃ slot ∈ Slot.ofStatements (Layout.finalTable (Statement.ofLines lines)) (Statement.ofLines lines),
        slot.address = u.address.toNat ∧ slot.Names (Layout.finalTable (Statement.ofLines lines)) u.name := by
  rw [externals_eq hfits, List.mem_filterMap]
  apply exists_congr
  intro slot
  apply and_congr_right
  intro hslot
  rw [Slot.use?_eq_some, and_comm]
  apply and_congr_left
  intro hn
  have haddress := Slot.toNat_address hfits hslot hn
  constructor
  · intro hu
    rw [hu, haddress]
  · intro hu
    rw [hu, UInt16.ofNat_toNat]

theorem pairwise_externals :
    (ofLines lines).program.externals.Pairwise fun u v => u.address.toNat < v.address.toNat := by
  rw [externals_eq hfits, List.pairwise_filterMap]
  refine (Slot.pairwise_ofStatements _ _).imp_of_mem fun {x y} hx hy hle u hu v hv => ?_
  obtain ⟨hxn, hxa⟩ := Slot.use?_eq_some.mp hu
  obtain ⟨hyn, hya⟩ := Slot.use?_eq_some.mp hv
  have hpos := hxn.size_pos
  rw [hxa, hya, Slot.toNat_address hfits hx hxn, Slot.toNat_address hfits hy hyn]
  omega

theorem slot_split {slot : Slot}
    (h : slot ∈ Slot.ofStatements (Layout.finalTable (Statement.ofLines lines)) (Statement.ofLines lines)) :
    ∃ op before after, Operand.ofToken (Layout.finalTable (Statement.ofLines lines)) slot.token = .ok op ∧
      (ofLines lines).program.instructions = before ++ (op.words ++ after) ∧
      slot.address = Memory.base + before.length := by
  obtain ⟨p, hp, hs⟩ := List.mem_flatMap.mp h
  obtain ⟨op, before, after, ht, hw, ha⟩ := Placed.slot_split hs
  obtain ⟨front, back, hcode, hlength⟩ :=
    Placed.code_split (Layout.finalTable (Statement.ofLines lines)) hp
  refine ⟨op, front ++ before, after ++ back, ht, ?_, ?_⟩
  · rw [program_ofLines hfits]
    simp only [hcode, hw, List.append_assoc]
  · rw [ha, Placed.address, List.length_append, hlength, Nat.add_assoc]

/-- No use lies in the place of an instruction at fault. -/
theorem not_mem_place {p : Placed} (hp : p ∈ Placed.list (Statement.ofLines lines)) {ds}
    (he : p.encoded (Layout.finalTable (Statement.ofLines lines)) = .error ds) {u : ExternalUse}
    (hu : u ∈ (ofLines lines).program.externals) :
    ¬ (p.address ≤ u.address.toNat ∧ u.address.toNat < p.address + p.statement.codeSize) := by
  obtain ⟨slot, hslot, ha, hn⟩ := (mem_externals hfits).mp hu
  obtain ⟨q, hq, hs⟩ := List.mem_flatMap.mp hslot
  obtain ⟨hlt, hle⟩ := Placed.slot_range hs
  have hpos := hn.size_pos
  -- the slot belongs to another statement
  have hne : p ≠ q := by
    rintro rfl
    obtain ⟨⟨r, hr⟩, -⟩ := Placed.mem_filledSlots.mp hs
    rw [he] at hr
    cases hr
  rcases Placed.apart hp hq hne with h | h <;> omega

end

/-- The uses of names defined elsewhere are told completely and in order. There is one for each operand
of an encoded instruction that names an external, it stands at the first word of the operand, which
is 0, and no address is cut to 16 bits. An instruction at fault adds none. -/
theorem externals_fill_slots (lines : List Line) (table : SymbolTable)
    (h : (Layout.ofLines lines).finalSymbols = .ok table) :
    (ofLines lines).program.externals =
        (Slot.ofStatements table (Statement.ofLines lines)).filterMap (Slot.use? table) ∧
      (ofLines lines).program.externals.Pairwise (fun u v => u.address.toNat < v.address.toNat) ∧
      (∀ u ∈ (ofLines lines).program.externals,
        Memory.base + 1 ≤ u.address.toNat ∧
          u.address.toNat ≤ Memory.base + (Layout.ofLines lines).codeSize - 1 ∧
          ∃ slot ∈ Slot.ofStatements table (Statement.ofLines lines),
            slot.address = u.address.toNat ∧ slot.Names table u.name ∧
              ∃ op rest before after, Operand.ofToken table slot.token = .ok op ∧ op.words = 0 :: rest ∧
                (ofLines lines).program.instructions = before ++ (op.words ++ after) ∧
                u.address.toNat = Memory.base + before.length) ∧
      ∀ p ∈ Placed.list (Statement.ofLines lines),
        (∀ r, p.encoded table = .ok r → ∀ slot ∈ p.slots, ∀ name, slot.Names table name →
          (ofLines lines).program.externals.count ⟨name, .ofNat slot.address⟩ = 1) ∧
        ∀ ds, p.encoded table = .error ds → ∀ u ∈ (ofLines lines).program.externals,
          ¬ (p.address ≤ u.address.toNat ∧ u.address.toNat < p.address + p.statement.codeSize) := by
  obtain ⟨hfits, rfl⟩ := Layout.finalSymbols_eq_ok.mp h
  refine ⟨externals_eq hfits, pairwise_externals hfits, ?_, ?_⟩
  · intro u hu
    obtain ⟨slot, hslot, ha, hn⟩ := (mem_externals hfits).mp hu
    obtain ⟨hlow, hhigh⟩ := Slot.range_ofStatements hslot
    have hpos := hn.size_pos
    obtain ⟨op, before, after, ht, hw, haddress⟩ := slot_split hfits hslot
    obtain ⟨rest, hrest⟩ := Operand.words_of_names ht hn fun s => Layout.address_of_external
    refine ⟨by omega, ?_, slot, hslot, ha, hn, op, rest, before, after, ht, hrest, hw, ha.symm.trans haddress⟩
    rw [(Layout.holds_ofLines lines).codeSize]
    omega
  · intro p hp
    refine ⟨fun r hr slot hslot name hn => ?_, fun ds he u hu => not_mem_place hfits hp he hu⟩
    have hmem : slot ∈ Slot.ofStatements (Layout.finalTable (Statement.ofLines lines)) (Statement.ofLines lines) :=
      List.mem_flatMap.mpr ⟨p, hp, Placed.mem_filledSlots.mpr ⟨⟨r, hr⟩, hslot⟩⟩
    have hnodup : (ofLines lines).program.externals.Nodup :=
      (pairwise_externals hfits).imp fun hlt he => by
        subst he
        omega
    refine List.count_eq_one_of_mem hnodup ((mem_externals hfits).mpr ⟨slot, hmem, ?_, hn⟩)
    exact (Slot.toNat_address hfits hmem hn).symm

/-- A source with two uses, and two instructions at fault that name the same external. -/
def linkedSource : List Line :=
  [⟨1, Text.of "mov X, r1"⟩, ⟨2, Text.of "foo X"⟩, ⟨3, Text.of "sub X, Y"⟩, ⟨4, Text.of ".extern X"⟩,
    ⟨5, Text.of "cmp #7, X[r1][r2]"⟩]

theorem linkedSource_externals :
    (Layout.ofLines linkedSource).finalSymbols = .ok (Layout.finalTable (Statement.ofLines linkedSource)) ∧
      (ofLines linkedSource).program.externals = [⟨Text.of "X", 101⟩, ⟨Text.of "X", 107⟩] ∧
      (ofLines linkedSource).program.externals.Pairwise (fun u v => u.address.toNat < v.address.toNat) ∧
      ∀ u ∈ (ofLines linkedSource).program.externals, Memory.base + 1 ≤ u.address.toNat ∧
        ∃ before rest, (ofLines linkedSource).program.instructions = before ++ 0 :: rest ∧
          u.address.toNat = Memory.base + before.length := by
  have hs : (Layout.ofLines linkedSource).finalSymbols =
      .ok (Layout.finalTable (Statement.ofLines linkedSource)) := by decide
  obtain ⟨-, hpair, huses, -⟩ := externals_fill_slots linkedSource _ hs
  refine ⟨hs, by decide, hpair, fun u hu => ?_⟩
  obtain ⟨hlow, -, slot, -, -, -, op, rest, before, after, -, hw, hcode, ha⟩ := huses u hu
  exact ⟨hlow, before, rest ++ after, by rw [hcode, hw]; rfl, ha⟩

end Assembly

end TwoPass
