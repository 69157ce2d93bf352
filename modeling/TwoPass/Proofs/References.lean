import TwoPass.Proofs.Acceptance
import TwoPass.Proofs.ExternalUses
import TwoPass.Proofs.InstructionGrammar

/-!
Names as operands. A name is checked where it is defined, and the shape of an operand is read off its
text alone, so a name that passes the one check must not be taken for anything else by the other.
-/
namespace TwoPass

theorem Name.length_of_isValid {t : Text} (h : isValid t = true) : 1 ≤ t.length ∧ t.length ≤ sizeLimit := by
  cases t with
  | nil => cases h
  | cons b t =>
      simp only [isValid, Bool.and_eq_true, decide_eq_true_eq] at h
      rw [List.length_cons]
      omega

theorem Name.trim_of_isValid {t : Text} (h : isValid t = true) : t.trim = t :=
  (Text.isWord_of_isValid h).firm.trim

/-- Registers are spelt like names. Only as reserved words do they differ. -/
theorem Register.Written.isValid {t : Text} {r : Register} (h : Written t r) : Name.isValid t = true := by
  have hall : ∀ r : Register, Name.isValid ['r'.toUInt8, .ofNat (48 + r.val)] = true ∧
      Name.isValid ['R'.toUInt8, .ofNat (48 + r.val)] = true := by decide
  rcases h with rfl | rfl
  · exact (hall r).1
  · exact (hall r).2

/-- The part in front of the brackets is the name as it was defined. -/
theorem Shape.ofToken_matrix_of_name {t : Token} {name row column : Text} (hname : Name.isValid name = true)
    (ht : t.value = matrixText name row column) (hrow : row.NoBrackets) (hcolumn : column.NoBrackets) :
    ∃ label r c, ofToken t = .matrix label r c ∧ label.value = name ∧ r.value = row.trim ∧
      c.value = column.trim := by
  have hvalid : Name.isValid name.trim = true := (Name.trim_of_isValid hname).symm ▸ hname
  refine ⟨_, _, _, ofToken_matrix_of_isValid ht hvalid (Name.noBrackets hname) hrow hcolumn, ?_⟩
  exact ⟨Name.trim_of_isValid hname, rfl, rfl⟩

/-- The texts of operands that use a symbol, with what they stand for. -/
inductive Operand.Uses (s : Symbol) : Text → Operand → Prop
  | direct : Uses s s.name (.direct s.target)
  | matrix {row column r c} : Register.Written row r → Register.Written column c →
      Uses s (Shape.matrixText s.name row column) (.matrix s.target r c)

namespace Operand.Uses

variable {s : Symbol} {t : Text} {op : Operand}

/-- Where a name is found, its uses are what the text says. -/
theorem denotes (h : Uses s t op) (hname : Name.isValid s.name = true) {table : SymbolTable} {s' : Symbol}
    (hs : table.find? s.name = some s') (hsame : s'.target = s.target) : Denotes table t op := by
  cases h with
  | direct => exact hsame ▸ .direct hs
  | matrix hr hc =>
      rw [← hsame]
      refine .matrix (Name.noBrackets hname) (Name.noBrackets hr.isValid) (Name.noBrackets hc.isValid) ?_ ?_ ?_
      · rwa [Name.trim_of_isValid hr.isValid, Register.parse?_eq_some]
      · rwa [Name.trim_of_isValid hc.isValid, Register.parse?_eq_some]
      · rwa [Name.trim_of_isValid hname]

/-- The first word of an operand that uses a symbol is the address of the symbol. -/
theorem words (h : Uses s t op) : ∃ rest, op.words = s.address :: rest := by
  cases h with
  | direct => exact ⟨_, rfl⟩
  | matrix hr hc => exact ⟨_, rfl⟩

end Operand.Uses

namespace Assembly

variable {lines : List Line} {s : Symbol}

/-- Whether or not the image fits, the table holds only names that the source defines. -/
theorem mem_definedNames (hs : s ∈ (ofLines lines).program.symbols.symbols) :
    s.name ∈ Statement.definedNames (Statement.ofLines lines) := by
  rw [← Statement.map_name_definitions]
  by_cases hfits : Statement.Fits (Statement.ofLines lines)
  · obtain ⟨d, hd, -⟩ := first_of_mem hfits hs
    exact List.mem_map.mpr ⟨d, List.mem_of_find?_eq_some hd, by simpa using List.find?_some hd⟩
  · rw [program_ofLines_of_not_fits hfits, (Layout.holds_ofLines lines).symbols] at hs
    have hfind := SymbolTable.find?_of_mem_declareAll hs
    by_contra hnone
    rw [SymbolTable.find?_declareAll_eq_none.mpr hnone] at hfind
    cases hfind

/-- In the final table a symbol is found under its name. The marks of entries do not move it. -/
theorem find?_of_mem (hfits : Statement.Fits (Statement.ofLines lines))
    (hs : s ∈ (ofLines lines).program.symbols.symbols) :
    ∃ s', (Layout.finalTable (Statement.ofLines lines)).find? s.name = some s' ∧ s'.target = s.target := by
  obtain ⟨d, hd, hsd⟩ := first_of_mem hfits hs
  refine ⟨_, by rw [Layout.find?_finalTable, hd]; rfl, ?_⟩
  rw [hsd]
  rfl

theorem ofToken_of_uses (hfits : Statement.Fits (Statement.ofLines lines))
    (hs : s ∈ (ofLines lines).program.symbols.symbols) {t : Token} {op : Operand}
    (h : Operand.Uses s t.value op) :
    Operand.ofToken (Layout.finalTable (Statement.ofLines lines)) t = .ok op := by
  obtain ⟨s', hfind, hsame⟩ := find?_of_mem hfits hs
  have hname := Statement.name_of_mem_definedNames (mem_definedNames hs)
  refine Operand.ofToken_of_denotes (fun name hn => ?_) (h.denotes hname.1 hfind hsame)
  exact Statement.name_of_mem_definedNames (Layout.find?_finalTable_ne_none.mp hn)

/-- Where an operand uses a symbol, the code holds the address of the symbol. -/
theorem word_of_uses (hfits : Statement.Fits (Statement.ofLines lines))
    (hs : s ∈ (ofLines lines).program.symbols.symbols) {slot : Slot}
    (hslot : slot ∈ Slot.ofStatements (Layout.finalTable (Statement.ofLines lines)) (Statement.ofLines lines))
    {op : Operand} (h : Operand.Uses s slot.token.value op) :
    (ofLines lines).program.instructions[slot.address - Memory.base]? = some s.address := by
  obtain ⟨op', before, after, hop, hcode, haddress⟩ := slot_split hfits hslot
  have hsame : op' = op := Except.ok.inj (hop.symm.trans (ofToken_of_uses hfits hs h))
  obtain ⟨rest, hwords⟩ := h.words
  rw [hcode, hsame, hwords, haddress, Nat.add_sub_cancel_left]
  simp

/-- Every defined name can be referred to. Whatever the source, the names in the symbol table are names of
1 to 31 bytes that are not reserved. As an operand such a name is direct, and in front of brackets it is the
label of a matrix. In a source that is laid out, an operand that uses a symbol comes to its address, and
the words of an encoded instruction hold that address in the slot of the operand. -/
theorem defined_names_resolve (lines : List Line) (s : Symbol)
    (hs : s ∈ (ofLines lines).program.symbols.symbols) :
    Name.isValid s.name = true ∧ Name.isReserved s.name = false ∧
      1 ≤ s.name.length ∧ s.name.length ≤ 31 ∧
      (∀ t : Token, t.value = s.name → Shape.ofToken t = .direct t) ∧
      (∀ (t : Token) (row column : Text), row.NoBrackets → column.NoBrackets →
        t.value = Shape.matrixText s.name row column →
        ∃ label r c, Shape.ofToken t = .matrix label r c ∧ label.value = s.name ∧ r.value = row.trim ∧
          c.value = column.trim) ∧
      ∀ table, (Layout.ofLines lines).finalSymbols = .ok table →
        ∀ p ∈ Placed.list (Statement.ofLines lines), ∀ slot ∈ p.slots, ∀ op,
          Operand.Uses s slot.token.value op →
          Operand.ofToken table slot.token = .ok op ∧
            ∀ r, p.encoded table = .ok r →
              (ofLines lines).program.instructions[slot.address - Memory.base]? = some s.address := by
  obtain ⟨hvalid, hreserved⟩ := Statement.name_of_mem_definedNames (mem_definedNames hs)
  obtain ⟨hpos, hlength⟩ := Name.length_of_isValid hvalid
  refine ⟨hvalid, hreserved, hpos, hlength, ?_, ?_, ?_⟩
  · intro t ht
    rw [← ht] at hvalid hreserved
    exact Shape.ofToken_direct hvalid hreserved
  · intro t row column hrow hcolumn ht
    exact Shape.ofToken_matrix_of_name hvalid ht hrow hcolumn
  · intro table htable p hp slot hslot op huses
    obtain ⟨hfits, rfl⟩ := Layout.finalSymbols_eq_ok.mp htable
    refine ⟨ofToken_of_uses hfits hs huses, fun r hr => word_of_uses hfits hs ?_ huses⟩
    exact List.mem_flatMap.mpr ⟨p, hp, Placed.mem_filledSlots.mpr ⟨⟨r, hr⟩, hslot⟩⟩

/-- Names that are close to registers and mnemonics, used behind an instruction at fault. -/
def lookalikeSource : List Line :=
  [⟨1, Text.of ".extern movx"⟩, ⟨2, Text.of "inc R9"⟩, ⟨3, Text.of "mov movx, r8[r1][R7]"⟩,
    ⟨4, Text.of "r8: .data 4"⟩]

def lookalikeMove : Statement :=
  ⟨3, none, .instruction (some .mov), ⟨⟨3, 1, 3⟩, Text.of "mov"⟩, ⟨⟨3, 5, 16⟩, Text.of "movx, r8[r1][R7]"⟩⟩

theorem lookalikeSource_resolves :
    ∃ s ∈ (ofLines lookalikeSource).program.symbols.symbols, s.name = Text.of "r8" ∧ s.address = 106 ∧
      (Layout.ofLines lookalikeSource).finalSymbols =
        .ok (Layout.finalTable (Statement.ofLines lookalikeSource)) ∧
      Shape.ofToken ⟨⟨9, 1, 2⟩, Text.of "r8"⟩ = .direct ⟨⟨9, 1, 2⟩, Text.of "r8"⟩ ∧
      (ofLines lookalikeSource).program.instructions[104 - Memory.base]? = some 106 := by
  have hmem : (⟨Text.of "r8", 106, .data, false, ⟨4, 1, 2⟩⟩ : Symbol) ∈
      (ofLines lookalikeSource).program.symbols.symbols := by decide +kernel
  have hfinal : (Layout.ofLines lookalikeSource).finalSymbols =
      .ok (Layout.finalTable (Statement.ofLines lookalikeSource)) := by decide +kernel
  have hplaced : (⟨2, 0, lookalikeMove⟩ : Placed) ∈ Placed.list (Statement.ofLines lookalikeSource) :=
    Placed.mem_list.mpr ⟨(Statement.ofLines lookalikeSource).take 2, (Statement.ofLines lookalikeSource).drop 3,
      by decide +kernel, by decide +kernel, by decide +kernel⟩
  have hslots : Placed.slots ⟨2, 0, lookalikeMove⟩ =
      [⟨103, ⟨⟨3, 5, 4⟩, Text.of "movx"⟩⟩, ⟨104, ⟨⟨3, 11, 10⟩, Text.of "r8[r1][R7]"⟩⟩] := rfl
  obtain ⟨-, -, -, -, hdirect, -, hresolves⟩ := defined_names_resolve lookalikeSource _ hmem
  have hrow : Register.Written (Text.of "r1") 1 := Register.parse?_eq_some.mp (by decide)
  have hcolumn : Register.Written (Text.of "R7") 7 := Register.parse?_eq_some.mp (by decide)
  obtain ⟨-, hword⟩ := hresolves _ hfinal _ hplaced ⟨104, ⟨⟨3, 11, 10⟩, Text.of "r8[r1][R7]"⟩⟩ (by simp [hslots])
    _ (.matrix hrow hcolumn)
  refine ⟨_, hmem, rfl, rfl, hfinal, hdirect _ rfl, ?_⟩
  exact hword ([1 * 512 + 3 * 8, 0, 106, 15], [⟨Text.of "movx", 103⟩]) (by decide +kernel)

end Assembly

end TwoPass
