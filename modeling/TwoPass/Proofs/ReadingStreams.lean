import TwoPass.Output.Stream
import TwoPass.Proofs.Acceptance
import TwoPass.Proofs.ExternalUses

/-!
Reading the streams of a program back. A name holds no separator and the image fits into memory, so
nothing is lost between a program and its streams.
-/
namespace TwoPass

/-! ## Lists of items that are read one by one -/

theorem mapM_eq_some {α β : Type} {f : α → Option β} {l : List α} {l' : List β} :
    l.mapM f = some l' ↔ List.Forall₂ (fun a b => f a = some b) l l' := by
  induction l generalizing l' with
  | nil => simp [eq_comm]
  | cons a l ih =>
      rw [List.mapM_cons, List.forall₂_cons_left_iff]
      simp only [Option.bind_eq_bind, Option.bind_eq_some_iff, Option.pure_def, Option.some.injEq, ih]
      constructor
      · rintro ⟨b, hb, bs, hbs, rfl⟩
        exact ⟨b, bs, hb, hbs, rfl⟩
      · rintro ⟨b, bs, hb, hbs, rfl⟩
        exact ⟨b, hb, bs, hbs, rfl⟩

theorem forall₂_mapIdx {α β γ : Type} {R : β → γ → Prop} {l : List α} {f : Nat → α → β} {g : Nat → α → γ}
    (h : ∀ i < l.length, ∀ a, R (f i a) (g i a)) : List.Forall₂ R (l.mapIdx f) (l.mapIdx g) := by
  induction l generalizing f g with
  | nil => exact .nil
  | cons a l ih =>
      rw [List.mapIdx_cons, List.mapIdx_cons]
      refine .cons (h 0 (Nat.zero_lt_succ _) a) (ih fun i hi b => h (i + 1) ?_ b)
      exact Nat.succ_lt_succ hi

/-! ## Numbers -/

namespace Base4

def digit? (b : UInt8) : Option Nat :=
  if 48 ≤ b.toNat ∧ b.toNat < 52 then some (b.toNat - 48) else none

/-- Reads eight digits. -/
def read? (t : Text) : Option Nat :=
  if t.length = 8 then t.foldlM (fun n b => (digit? b).map (4 * n + ·)) 0 else none

theorem toNat_digit (n : Nat) : (digit n).toNat = 48 + n % 4 := by
  rw [digit, UInt8.toNat_ofNat_of_lt']
  exact show 48 + n % 4 < 256 by omega

theorem digit?_digit (n : Nat) : digit? (digit n) = some (n % 4) := by
  rw [digit?, toNat_digit, if_pos (by omega), Nat.add_sub_cancel_left]

theorem read?_encode (w : Word) : read? (encode w) = some w.toNat := by
  have hw : w.toNat < 65536 := w.toNat_lt
  have hlength : (encode w).length = 8 := rfl
  rw [read?, if_pos hlength]
  have hfirst : w.toNat / 16384 % 4 = w.toNat / 16384 := Nat.mod_eq_of_lt (by omega)
  have hnext : ∀ weight, 4 * (w.toNat / (weight * 4)) + w.toNat / weight % 4 = w.toNat / weight := by
    intro weight
    rw [← Nat.div_div_eq_div_mul, Nat.div_add_mod]
  simp only [encode, List.map_cons, List.map_nil, List.foldlM_cons, List.foldlM_nil, digit?_digit,
    Option.map_some, Option.bind_eq_bind, Option.bind_some, Option.pure_def, Option.some.injEq]
  rw [Nat.mul_zero, Nat.zero_add, hfirst, hnext 4096, hnext 1024, hnext 256, hnext 64, hnext 16, hnext 4, hnext 1,
    Nat.div_one]

theorem isDigit_of_mem_encode {w : Word} {b : UInt8} (h : b ∈ encode w) : Text.isDigit b = true := by
  obtain ⟨weight, -, rfl⟩ := List.mem_map.mp h
  rw [Text.isDigit_iff, toNat_digit]
  omega

end Base4

/-! ## Lines -/

namespace Stream

/-- The line of a stream holds a text. -/
def Holds (line content : Text) : Prop :=
  line = content ++ ['\n'.toUInt8] ∧ '\n'.toUInt8 ∉ content

theorem splitOn_text {stream : Stream} {contents : List Text} (h : List.Forall₂ Holds stream contents) :
    Text.splitOn '\n'.toUInt8 stream.text = contents ++ [[]] := by
  induction h with
  | nil => rfl
  | @cons line content stream contents hline _ ih =>
      obtain ⟨rfl, hfree⟩ := hline
      have hsplit : text ((content ++ ['\n'.toUInt8]) :: stream) = content ++ '\n'.toUInt8 :: text stream := by
        rw [text, List.flatten_cons, List.append_assoc, List.singleton_append, text]
      rw [hsplit, Text.splitOn_append hfree, ih, List.cons_append]

theorem chunks_text {stream : Stream} {contents : List Text} (h : List.Forall₂ Holds stream contents) :
    Line.chunks stream.text = contents := by
  rw [Line.chunks, splitOn_text h, List.getLast?_concat, if_pos rfl, List.dropLast_concat]

/-- Two fields, of which the first ends at the first space. -/
def fields (a b : Text) : Text :=
  a ++ ' '.toUInt8 :: b

theorem holds_row {a b : Text} (ha : '\n'.toUInt8 ∉ a) (hb : '\n'.toUInt8 ∉ b) :
    Holds (row a b) (fields a b) := by
  refine ⟨rfl, ?_⟩
  rw [fields, List.mem_append, List.mem_cons]
  rintro (h | h | h)
  · exact ha h
  · exact absurd h (by decide)
  · exact hb h

theorem cut?_fields {a : Text} (h : ' '.toUInt8 ∉ a) (b : Text) :
    (fields a b).cut? ' '.toUInt8 = some (a, b) :=
  Text.cut?_append h b

/-! ## Reading -/

/-- The sizes of both segments, and the words with their addresses. -/
structure Object where
  codeSize : Nat
  dataSize : Nat
  words : List (Nat × Word)
  deriving DecidableEq

/-- What the object stream of a program is to be read back to. -/
def Object.ofProgram (p : Program) : Object :=
  ⟨p.instructions.length, p.data.length, p.image.mapIdx fun i w => (Memory.base + i, w)⟩

def readSizes (line : Text) : Option (Nat × Nat) := do
  let (a, b) ← line.cut? ' '.toUInt8
  return (← a.toNat?, ← b.toNat?)

def readWord (line : Text) : Option (Nat × Word) := do
  let (a, b) ← line.cut? ' '.toUInt8
  return (← Base4.read? a, .ofNat (← Base4.read? b))

def readName (line : Text) : Option (Text × Word) := do
  let (a, b) ← line.cut? ' '.toUInt8
  return (a, .ofNat (← Base4.read? b))

def readObject (t : Text) : Option Object :=
  match Line.chunks t with
  | [] => none
  | header :: lines => do
    let sizes ← readSizes header
    return ⟨sizes.1, sizes.2, ← lines.mapM readWord⟩

def readNames (t : Text) : Option (List (Text × Word)) :=
  (Line.chunks t).mapM readName

theorem not_mem_of_digits {t : Text} (h : ∀ b ∈ t, Text.isDigit b = true) {b : UInt8}
    (hb : Text.isDigit b = false) : b ∉ t := by
  intro hm
  rw [h b hm] at hb
  cases hb

theorem not_mem_encode {b : UInt8} (hb : Text.isDigit b = false) (w : Word) : b ∉ Base4.encode w :=
  not_mem_of_digits (fun _ => Base4.isDigit_of_mem_encode) hb

theorem not_mem_ofNat {b : UInt8} (hb : Text.isDigit b = false) (n : Nat) : b ∉ Text.ofNat n :=
  not_mem_of_digits (Numeral.isDigits_ofNat n).2.1 hb

theorem readSizes_fields (m n : Nat) : readSizes (fields (Text.ofNat m) (Text.ofNat n)) = some (m, n) := by
  rw [readSizes, cut?_fields (not_mem_ofNat (by decide) m)]
  simp [Numeral.toNat?_eq_some.mpr (Numeral.isDigits_ofNat _)]

theorem readWord_fields (v w : Word) :
    readWord (fields (Base4.encode v) (Base4.encode w)) = some (v.toNat, w) := by
  rw [readWord, cut?_fields (not_mem_encode (by decide) v)]
  simp [Base4.read?_encode]

theorem readName_fields {name : Text} (h : ' '.toUInt8 ∉ name) (w : Word) :
    readName (fields name (Base4.encode w)) = some (name, w) := by
  rw [readName, cut?_fields h]
  simp [Base4.read?_encode]

theorem holds_object (p : Program) :
    List.Forall₂ Holds (object p)
      (fields (Text.ofNat p.instructions.length) (Text.ofNat p.data.length) ::
        p.image.mapIdx fun i w => fields (Base4.encode (.ofNat (Memory.base + i))) (Base4.encode w)) := by
  refine .cons (holds_row (not_mem_ofNat (by decide) _) (not_mem_ofNat (by decide) _)) ?_
  exact forall₂_mapIdx fun i _ w => holds_row (not_mem_encode (by decide) _) (not_mem_encode (by decide) _)

theorem readObject_object {p : Program} (h : Memory.base + p.image.length ≤ Memory.size) :
    readObject (object p).text = some (.ofProgram p) := by
  have hwords : (p.image.mapIdx fun i w =>
        fields (Base4.encode (.ofNat (Memory.base + i))) (Base4.encode w)).mapM readWord =
      some (p.image.mapIdx fun i w => (Memory.base + i, w)) := by
    refine mapM_eq_some.mpr (forall₂_mapIdx fun i hi w => ?_)
    rw [readWord_fields, toNat_ofNat_of_lt (by omega)]
  simp only [readObject, chunks_text (holds_object p), readSizes_fields, hwords, Option.bind_eq_bind, Option.bind_some,
    Option.pure_def, Object.ofProgram]

theorem segments_of_ofProgram {p q : Program} (h : Object.ofProgram p = Object.ofProgram q) :
    p.instructions = q.instructions ∧ p.data = q.data := by
  obtain ⟨hcode, -, hwords⟩ := Object.mk.inj h
  have hsnd : ∀ image : List Word, (image.mapIdx fun i w => (Memory.base + i, w)).map Prod.snd = image :=
    fun image => List.ext_getElem (by simp) (by simp)
  have himage : p.image = q.image := by rw [← hsnd p.image, hwords, hsnd]
  exact List.append_inj himage hcode

/-! Lists of names with addresses, as both the exported symbols and the uses are written. -/

section
variable {α : Type} {name : α → Text} {address : α → Word} {l : List α}
    (h : ∀ a ∈ l, Name.isValid (name a) = true)
include h

theorem holds_names : List.Forall₂ Holds (l.map fun a => row (name a) (Base4.encode (address a)))
    (l.map fun a => fields (name a) (Base4.encode (address a))) := by
  rw [List.forall₂_map_left_iff, List.forall₂_map_right_iff, List.forall₂_same]
  exact fun a ha => holds_row (Name.not_mem_of_isValid (h a ha) (by decide)) (not_mem_encode (by decide) _)

theorem readNames_rows :
    readNames (text (l.map fun a => row (name a) (Base4.encode (address a)))) =
      some (l.map fun a => (name a, address a)) := by
  rw [readNames, chunks_text (holds_names h), mapM_eq_some, List.forall₂_map_left_iff, List.forall₂_map_right_iff,
    List.forall₂_same]
  exact fun a ha => readName_fields (Name.not_mem_of_isValid (h a ha) (by decide)) _

end

end Stream

namespace Assembly

theorem valid_externals {lines : List Line} (hfits : Statement.Fits (Statement.ofLines lines))
    {u : ExternalUse} (hu : u ∈ (ofLines lines).program.externals) : Name.isValid u.name = true := by
  obtain ⟨slot, -, -, -, s, hs, -⟩ := (mem_externals hfits).mp hu
  have hne : (Layout.finalTable (Statement.ofLines lines)).find? u.name ≠ none := by
    rw [hs]
    rintro ⟨⟩
  exact (Statement.name_of_mem_definedNames (Layout.find?_finalTable_ne_none.mp hne)).1

theorem length_image {lines : List Line} (hfits : Statement.Fits (Statement.ofLines lines)) :
    Memory.base + (ofLines lines).program.image.length ≤ Memory.size := by
  rw [program_ofLines hfits, Program.image, List.length_append, Placed.length_code, ← Nat.add_assoc]
  exact hfits

section
variable {lines : List Line} (h : (ofLines lines).errors = [])
include h

theorem readObject_ofLines : Stream.readObject (Stream.object (ofLines lines).program).text =
    some (Stream.Object.ofProgram (ofLines lines).program) := by
  obtain ⟨-, -, -, -, hfits⟩ := (errors_ofLines_eq_nil lines).mp h
  exact Stream.readObject_object (length_image hfits)

theorem valid_entries : ∀ s ∈ (ofLines lines).program.symbols.entries, Name.isValid s.name = true := by
  obtain ⟨-, -, -, -, hfits⟩ := (errors_ofLines_eq_nil lines).mp h
  exact fun s hs => (name_of_mem hfits (List.mem_of_mem_filter hs)).1

theorem valid_uses : ∀ u ∈ (ofLines lines).program.externals, Name.isValid u.name = true := by
  obtain ⟨-, -, -, -, hfits⟩ := (errors_ofLines_eq_nil lines).mp h
  exact fun u hu => valid_externals hfits hu

theorem readEntries_ofLines : Stream.readNames (Stream.entries (ofLines lines).program).text =
    some ((ofLines lines).program.symbols.entries.map fun s => (s.name, s.address)) :=
  Stream.readNames_rows (valid_entries h)

theorem readExternals_ofLines : Stream.readNames (Stream.externals (ofLines lines).program).text =
    some ((ofLines lines).program.externals.map fun u => (u.name, u.address)) :=
  Stream.readNames_rows (valid_uses h)

end

/-- The streams of a program tell all of it. The object stream is read back to the sizes of both segments
and to the words of the image at consecutive addresses, none of which is cut to 16 bits, and the
other two to the exported symbols, in the order of their definitions, and to the uses. -/
theorem streams_read_back (lines : List Line) (h : (ofLines lines).errors = []) :
    Stream.readObject (Stream.object (ofLines lines).program).text =
        some (Stream.Object.ofProgram (ofLines lines).program) ∧
      Stream.readNames (Stream.entries (ofLines lines).program).text =
        some ((ofLines lines).program.symbols.entries.map fun s => (s.name, s.address)) ∧
      (ofLines lines).program.symbols.symbols.map (·.name) = Statement.definedNames (Statement.ofLines lines) ∧
      Stream.readNames (Stream.externals (ofLines lines).program).text =
        some ((ofLines lines).program.externals.map fun u => (u.name, u.address)) ∧
      ∀ others, (ofLines others).errors = [] →
        (Stream.object (ofLines others).program).text = (Stream.object (ofLines lines).program).text →
        (Stream.entries (ofLines others).program).text = (Stream.entries (ofLines lines).program).text →
        (Stream.externals (ofLines others).program).text = (Stream.externals (ofLines lines).program).text →
        (ofLines others).program.instructions = (ofLines lines).program.instructions ∧
          (ofLines others).program.data = (ofLines lines).program.data ∧
          ((ofLines others).program.symbols.entries.map fun s => (s.name, s.address)) =
            ((ofLines lines).program.symbols.entries.map fun s => (s.name, s.address)) ∧
          (ofLines others).program.externals = (ofLines lines).program.externals := by
  refine ⟨readObject_ofLines h, readEntries_ofLines h, map_name_symbols h, readExternals_ofLines h, ?_⟩
  intro others ho hobject hentries hexternals
  obtain ⟨hcode, hdata⟩ := Stream.segments_of_ofProgram
    (Option.some.inj ((readObject_ofLines ho).symm.trans (hobject ▸ readObject_ofLines h)))
  have hnames := Option.some.inj ((readEntries_ofLines ho).symm.trans (hentries ▸ readEntries_ofLines h))
  have huses := Option.some.inj ((readExternals_ofLines ho).symm.trans (hexternals ▸ readExternals_ofLines h))
  refine ⟨hcode, hdata, hnames, (List.map_injective_iff.mpr ?_) huses⟩
  rintro ⟨name, address⟩ ⟨name', address'⟩ hpair
  obtain ⟨rfl, rfl⟩ := Prod.mk.inj hpair
  rfl

/-- A source with a line in each of the streams. -/
def publishedSource : List Line :=
  [⟨1, Text.of ".entry MAIN"⟩, ⟨2, Text.of ".extern X"⟩, ⟨3, Text.of "MAIN: mov X, r1"⟩, ⟨4, Text.of ".data -2"⟩]

theorem publishedSource_reads :
    (ofLines publishedSource).errors = [] ∧
      Stream.readObject (Stream.object (ofLines publishedSource).program).text =
        some ⟨2, 1, [(100, 529), (101, 0), (102, 65534)]⟩ ∧
      Stream.readNames (Stream.entries (ofLines publishedSource).program).text = some [(Text.of "MAIN", 100)] ∧
      Stream.readNames (Stream.externals (ofLines publishedSource).program).text = some [(Text.of "X", 101)] := by
  have herrors : (ofLines publishedSource).errors = [] := by decide +kernel
  obtain ⟨hobject, hentries, -, hexternals, -⟩ := streams_read_back publishedSource herrors
  rw [hobject, hentries, hexternals]
  exact ⟨herrors, by decide +kernel, by decide +kernel, by decide +kernel⟩

end Assembly

end TwoPass
