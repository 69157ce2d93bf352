import TwoPass.Proofs.Decoding
import TwoPass.Proofs.ExternalUses

/-!
Debug tables. The lines are noted while the instructions are encoded and the labels once all symbols are
in place, both under addresses of one word, so entries must be shown not to replace each other.
-/
namespace TwoPass

/-! ## Tables by address -/

section
variable {α : Type}

theorem eraseRepsBy_loop (r : α → α → Bool) (a : α) (l kept : List α) :
    List.eraseRepsBy.loop r a l kept = kept.reverse ++ List.eraseRepsBy.loop r a l [] := by
  induction l generalizing a kept with
  | nil => simp [List.eraseRepsBy.loop]
  | cons b l ih =>
      cases h : r a b with
      | true => simp only [List.eraseRepsBy.loop, h, ih a kept]
      | false => simp only [List.eraseRepsBy.loop, h, ih b (a :: kept), ih b [a], List.reverse_cons,
          List.append_assoc, List.reverse_nil, List.nil_append]

theorem eraseRepsBy_cons_cons (r : α → α → Bool) (a b : α) (l : List α) :
    (a :: b :: l).eraseRepsBy r =
      if r a b then (a :: l).eraseRepsBy r else a :: (b :: l).eraseRepsBy r := by
  simp only [List.eraseRepsBy, List.eraseRepsBy.loop]
  cases r a b with
  | true => rfl
  | false => exact eraseRepsBy_loop r b l [a]

end

namespace SymbolTable

variable {l : List (Word × Text)}

/-- Only the first of the entries under an address is found, so the others can be left out. -/
theorem find?_eraseReps (k : Word) :
    (l.eraseRepsBy fun a b => a.1 == b.1).find? (·.1 = k) = l.find? (·.1 = k) := by
  cases l with
  | nil => rfl
  | cons a l =>
      induction l generalizing a with
      | nil => rfl
      | cons b l ih =>
          rw [eraseRepsBy_cons_cons]
          split
          · rename_i hab
            rw [ih, List.find?_cons, List.find?_cons, List.find?_cons, ← beq_iff_eq.mp hab]
            cases decide (a.1 = k) <;> rfl
          · rw [List.find?_cons, List.find?_cons, ih]

theorem mem_of_mem_eraseReps {e : Word × Text} (h : e ∈ l.eraseRepsBy fun a b => a.1 == b.1) : e ∈ l := by
  cases l with
  | nil => exact h
  | cons a l =>
      induction l generalizing a with
      | nil => exact h
      | cons b l ih =>
          rw [eraseRepsBy_cons_cons] at h
          split at h
          · rcases List.mem_cons.mp (ih a h) with rfl | h
            · exact List.mem_cons_self
            · exact List.mem_cons_of_mem _ (List.mem_cons_of_mem _ h)
          · rcases List.mem_cons.mp h with rfl | h
            · exact List.mem_cons_self
            · exact List.mem_cons_of_mem _ (ih b h)

theorem pairwise_eraseReps (h : l.Pairwise fun a b => a.1 ≤ b.1) :
    (l.eraseRepsBy fun a b => a.1 == b.1).Pairwise fun a b => a.1 < b.1 := by
  cases l with
  | nil => exact .nil
  | cons a l =>
      induction l generalizing a with
      | nil => exact List.pairwise_singleton _ _
      | cons b l ih =>
          obtain ⟨ha, hb⟩ := List.pairwise_cons.mp h
          rw [eraseRepsBy_cons_cons]
          split
          · refine ih a (List.pairwise_cons.mpr ⟨fun e he => ?_, (List.pairwise_cons.mp hb).2⟩)
            exact ha e (List.mem_cons_of_mem b he)
          · rename_i hab
            refine List.pairwise_cons.mpr ⟨fun e he => ?_, ih b hb⟩
            have hlt : a.1 < b.1 := UInt16.lt_of_le_of_ne (ha b List.mem_cons_self) (by simpa using hab)
            rcases List.mem_cons.mp (mem_of_mem_eraseReps he) with rfl | he
            · exact hlt
            · exact UInt16.lt_of_lt_of_le hlt ((List.pairwise_cons.mp hb).1 e he)

theorem trans_of_addresses (a b c : Word × Text) (hab : decide (a.1 ≤ b.1) = true)
    (hbc : decide (b.1 ≤ c.1) = true) : decide (a.1 ≤ c.1) = true :=
  decide_eq_true (UInt16.le_trans (of_decide_eq_true hab) (of_decide_eq_true hbc))

theorem total_of_addresses (a b : Word × Text) : (decide (a.1 ≤ b.1) || decide (b.1 ≤ a.1)) = true := by
  simpa using UInt16.le_total a.1 b.1

/-- Sorting by address keeps the order of the entries under one address. -/
theorem find?_mergeSort (k : Word) :
    (l.mergeSort fun a b => a.1 ≤ b.1).find? (·.1 = k) = l.find? (·.1 = k) := by
  have hsub : (l.filter (·.1 = k)).Sublist (l.mergeSort fun a b => a.1 ≤ b.1) := by
    refine List.sublist_mergeSort trans_of_addresses total_of_addresses ?_ List.filter_sublist
    refine List.pairwise_of_forall_mem_list fun a ha b hb => ?_
    have hkeys : a.1 = k ∧ b.1 = k := by simpa using And.intro (List.mem_filter.mp ha).2 (List.mem_filter.mp hb).2
    simp [hkeys]
  have hperm := (List.mergeSort_perm l fun a b => a.1 ≤ b.1).filter (·.1 = k)
  have hsame : l.filter (·.1 = k) = (l.mergeSort fun a b => a.1 ≤ b.1).filter (·.1 = k) := by
    refine List.Sublist.eq_of_length ?_ hperm.length_eq.symm
    simpa using hsub.filter (·.1 = k)
  rw [← List.head?_filter, ← hsame, List.head?_filter]

/-- The label under an address is the name of the first symbol that is defined there. -/
theorem find?_labels (table : SymbolTable) (a : Word) :
    table.labels.find? (·.1 = a) =
      (table.symbols.find? fun s => s.kind ≠ .external ∧ s.address = a).map fun s => (s.address, s.name) := by
  rw [labels, find?_eraseReps, find?_mergeSort, List.find?_map, List.find?_filter]
  simp

theorem pairwise_labels (table : SymbolTable) : table.labels.Pairwise fun a b => a.1 < b.1 :=
  pairwise_eraseReps
    ((List.pairwise_mergeSort trans_of_addresses total_of_addresses _).imp of_decide_eq_true)

end SymbolTable

/-! ## Lines -/

theorem Statement.isInstruction_iff {s : Statement} : s.isInstruction = true ↔ ∃ op, s.action = .instruction op := by
  unfold isInstruction
  cases s.action <;> simp

namespace Placed

/-- The instructions of a program. -/
def instructions (ss : List Statement) : List Placed :=
  (list ss).filter (·.statement.isInstruction)

/-- Where an instruction starts, and the line it is from. -/
def debugLine (p : Placed) : Word × Int :=
  (.ofNat p.address, p.statement.line)

theorem map_statement_instructions (ss : List Statement) :
    (instructions ss).map (·.statement) = ss.filter Statement.isInstruction := by
  conv_rhs => rw [← map_statement_list ss, List.filter_map]
  rfl

theorem mem_instructions {ss : List Statement} {p : Placed} :
    p ∈ instructions ss ↔ p ∈ list ss ∧ ∃ op, p.statement.action = .instruction op := by
  rw [instructions, List.mem_filter, Statement.isInstruction_iff]

/-- Of statements without faults those that take code words are the instructions. -/
theorem filterMap_debugLine? {table : SymbolTable} {ss : List Statement}
    (h : ∀ p ∈ list ss, ∃ r, p.encoded table = .ok r) :
    (list ss).filterMap debugLine? = (instructions ss).map debugLine := by
  rw [instructions, ← List.filterMap_eq_map, List.filterMap_filter]
  refine List.filterMap_congr fun p hp => ?_
  obtain ⟨r, hr⟩ := h p hp
  cases ha : p.statement.action with
  | instruction op => simp [debugLine?, debugLine, Statement.isInstruction, ha, codeSize_pos hr ha]
  | directive d => simp [debugLine?, Statement.isInstruction, ha, Statement.codeSize]

end Placed

namespace Assembly

variable {lines : List Line}

section
variable (h : (ofLines lines).errors = [])
include h

theorem lines_debug : (ofLines lines).debug.lines =
    (Placed.instructions (Statement.ofLines lines)).map Placed.debugLine := by
  obtain ⟨-, -, -, -, hfits⟩ := (errors_ofLines_eq_nil lines).mp h
  rw [debug_ofLines hfits]
  exact Placed.filterMap_debugLine? fun p hp => encoded_of_no_errors h hp

theorem labels_debug : (ofLines lines).debug.labels = (ofLines lines).program.symbols.labels := by
  obtain ⟨-, -, -, -, hfits⟩ := (errors_ofLines_eq_nil lines).mp h
  rw [debug_ofLines hfits]

theorem codeSize_pos_of_mem {p : Placed} (hp : p ∈ Placed.instructions (Statement.ofLines lines)) :
    0 < p.statement.codeSize := by
  obtain ⟨hp, op, ha⟩ := Placed.mem_instructions.mp hp
  obtain ⟨r, he⟩ := encoded_of_no_errors h hp
  exact Placed.codeSize_pos he ha

/-- The address of an instruction fits in a word, and the code holds its words from there on. -/
theorem words_of_debugLine {p : Placed} (hp : p ∈ Placed.instructions (Statement.ofLines lines)) :
    p.debugLine.1.toNat = p.address ∧ ∃ words uses,
      p.encoded (ofLines lines).program.symbols = .ok (words, uses) ∧ words ≠ [] ∧
      words <+: (ofLines lines).program.instructions.drop (p.address - Memory.base) := by
  obtain ⟨-, -, -, -, hfits⟩ := (errors_ofLines_eq_nil lines).mp h
  have hpos := codeSize_pos_of_mem h hp
  obtain ⟨hp, -⟩ := Placed.mem_instructions.mp hp
  obtain ⟨⟨words, uses⟩, he⟩ := encoded_of_no_errors h hp
  obtain ⟨before, after, hcode, hlength⟩ := Placed.code_split (ofLines lines).program.symbols hp
  have hwords : p.codeWords (ofLines lines).program.symbols = words := by rw [Placed.codeWords, he]
  refine ⟨toNat_ofNat_of_lt (Placed.address_lt hfits hp hpos), words, uses, he, ?_, after, ?_⟩
  · rintro rfl
    rw [← Placed.length_of_encoded he] at hpos
    exact Nat.lt_irrefl 0 hpos
  · rw [instructions_eq h, hcode, hwords, Placed.address, Nat.add_sub_cancel_left, ← hlength, List.drop_left]

theorem range_of_debugLine {p : Placed} (hp : p ∈ Placed.instructions (Statement.ofLines lines)) :
    Memory.base ≤ p.debugLine.1.toNat ∧
      p.debugLine.1.toNat ≤ Memory.base + (ofLines lines).program.instructions.length - 1 := by
  obtain ⟨hword, -⟩ := words_of_debugLine h hp
  have hpos := codeSize_pos_of_mem h hp
  obtain ⟨hlow, hhigh⟩ := Placed.end_le (Placed.mem_instructions.mp hp).1
  rw [hword, instructions_eq h, Placed.length_code]
  omega

theorem pairwise_lines_debug : (ofLines lines).debug.lines.Pairwise fun a b => a.1 < b.1 := by
  have hapart : (Placed.instructions (Statement.ofLines lines)).Pairwise fun p q =>
      p.address + p.statement.codeSize ≤ q.address := (Placed.pairwise_listFrom 0 0 _).1.filter _
  rw [lines_debug h, List.pairwise_map]
  refine hapart.imp_of_mem fun {p q} hp hq hle => ?_
  obtain ⟨hwordp, -⟩ := words_of_debugLine h hp
  obtain ⟨hwordq, -⟩ := words_of_debugLine h hq
  have hpos := codeSize_pos_of_mem h hp
  rw [UInt16.lt_iff_toNat_lt, hwordp, hwordq]
  omega

end

/-- The lines of a debug table are those of the instructions, each under the address of its first word,
and the labels are the symbols of the program, of those at one address the first that is defined. No two
entries are under one address. -/
theorem debug_table_exact (lines : List Line) (h : (ofLines lines).errors = []) :
    (ofLines lines).debug.lines =
        (Placed.instructions (Statement.ofLines lines)).map Placed.debugLine ∧
      (Placed.instructions (Statement.ofLines lines)).map (·.statement) =
        (Statement.ofLines lines).filter Statement.isInstruction ∧
      (∀ p ∈ Placed.instructions (Statement.ofLines lines),
        (∃ line ∈ lines, line.statement? = some p.statement ∧ p.debugLine.2 = line.number) ∧
        Memory.base ≤ p.debugLine.1.toNat ∧
        p.debugLine.1.toNat ≤ Memory.base + (ofLines lines).program.instructions.length - 1 ∧
        ∃ words uses, p.encoded (ofLines lines).program.symbols = .ok (words, uses) ∧ words ≠ [] ∧
          words <+: (ofLines lines).program.instructions.drop (p.debugLine.1.toNat - Memory.base)) ∧
      ((ofLines lines).debug.lines.Pairwise fun a b => a.1 < b.1) ∧
      ((ofLines lines).debug.labels.Pairwise fun a b => a.1 < b.1) ∧
      (ofLines lines).program.symbols.symbols.map (·.name) =
        Statement.definedNames (Statement.ofLines lines) ∧
      ∀ a, (ofLines lines).debug.labels.find? (·.1 = a) =
        ((ofLines lines).program.symbols.symbols.find? fun s => s.kind ≠ .external ∧ s.address = a).map
          fun s => (s.address, s.name) := by
  refine ⟨lines_debug h, Placed.map_statement_instructions _, fun p hp => ?_, pairwise_lines_debug h,
    labels_debug h ▸ SymbolTable.pairwise_labels _, map_name_symbols h, fun a => ?_⟩
  · obtain ⟨hword, words, uses, he, hne, hcode⟩ := words_of_debugLine h hp
    obtain ⟨hlow, hhigh⟩ := range_of_debugLine h hp
    obtain ⟨line, hline, hs⟩ := List.mem_filterMap.mp (Placed.statement_mem (Placed.mem_instructions.mp hp).1)
    exact ⟨⟨line, hline, hs, Line.number_of_statement? hs⟩, hlow, hhigh, words, uses, he, hne, hword ▸ hcode⟩
  · rw [labels_debug h]
    exact SymbolTable.find?_labels _ a

/-- A source with two labels at one address, a label that leads out of the program, and instructions of
different sizes. -/
def sharedAddress : List Line :=
  [⟨1, Text.of "A: mov B[r1][r2], X"⟩, ⟨2, Text.of "E: .mat [0][2]"⟩, ⟨4, Text.of "B: .data 7"⟩,
    ⟨5, Text.of ".extern X"⟩, ⟨9, Text.of "Z: stop"⟩]

theorem sharedAddress_debug :
    (ofLines sharedAddress).errors = [] ∧ (ofLines sharedAddress).debug.lines = [(100, 1), (104, 9)] ∧
      (ofLines sharedAddress).debug.labels.find? (·.1 = 105) = some (105, Text.of "E") ∧
      (ofLines sharedAddress).debug.labels.find? (·.1 = 0) = none := by
  have herrors : (ofLines sharedAddress).errors = [] := by decide +kernel
  obtain ⟨hlines, -, -, -, -, -, hlabels⟩ := debug_table_exact sharedAddress herrors
  exact ⟨herrors, hlines.trans (by decide +kernel), (hlabels 105).trans (by decide +kernel),
    (hlabels 0).trans (by decide +kernel)⟩

end Assembly

end TwoPass
