import TwoPass.Proofs.Blocks

/-!
Runs of a macro library. A file that is read adds the blocks in front of the first header at fault, or
all of them, and nothing else changes a library, so what was stored once stays as it is.
-/
namespace TwoPass.Macro

/-- What a stored definition is like, whatever file it came from. -/
structure Definition.Sound (d : Definition) : Prop where
  isValid : Name.isValid d.name = true
  notReserved : Name.isReserved d.name = false
  isValid_params : ∀ p ∈ d.params, Name.isValid p = true
  nodup_params : d.params.Nodup
  few_params : d.params.length ≤ 8
  body_open : ∀ t ∈ d.body, closesBlock t = false

theorem Divided.body_open {lines segments} (h : Divided lines segments) :
    ∀ b ∈ blocks segments, ∀ line ∈ b.body, closesBlock line.text = false := by
  induction h with
  | nil => exact fun b hb => absurd hb List.not_mem_nil
  | plain ho h ih => exact ih
  | closed ho hb hc h ih => exact List.forall_mem_cons.mpr ⟨hb, ih⟩
  | unclosed ho hb => exact List.forall_mem_singleton.mpr hb

theorem Block.Sound.definition {b : Block} (h : b.Sound)
    (hb : ∀ line ∈ b.body, closesBlock line.text = false) : b.definition.Sound := by
  refine ⟨h.isValid, h.notReserved, h.isValid_params, h.nodup_params, h.few_params, ?_⟩
  intro t ht
  obtain ⟨line, hline, rfl⟩ : ∃ line ∈ b.body, line.text = t := by simpa [Block.definition] using ht
  exact hb line hline

namespace Library

/-- What can be asked of a library. -/
inductive Call where
  | scan (lines : List Line)
  | expand (lines : List Line)
  | lookup (name : Text)

/-- The library that the next call finds, whether or not the file could be read. -/
def step (lib : Library) : Call → Library
  | .scan lines => (lib.scan lines).1
  | .expand _ | .lookup _ => lib

def run (limit : Int) (calls : List Call) : Library :=
  calls.foldl step (empty limit)

theorem run_append (limit : Int) (calls later : List Call) :
    run limit (calls ++ later) = later.foldl step (run limit calls) :=
  List.foldl_append

/-! ## One file -/

/-- How reading a file ends: behind its last block, or at the header of a block that finds no place
behind those before it. -/
inductive EndsAt (lib : Library) (done : List Block) : List Block → Except Diagnostic (List Line) → Prop
  | all {kept} : EndsAt lib done [] (.ok kept)
  | header {b : Block} {after : List Block} {e : Diagnostic} : ¬ lib.Admits (done ++ [b]) →
      e.position? = some (headerSpan b.header) → EndsAt lib done (b :: after) (.error e)

/-- Reading a file adds the blocks up to the place where it ends. -/
theorem scan_divided {lib : Library} (hroom : (lib.definitions.length : Int) ≤ lib.limit) {lines segments}
    (h : Divided lines segments) :
    ∃ done rest, blocks segments = done ++ rest ∧ lib.Admits done ∧ (lib.scan lines).1 = lib.addAll done ∧
      lib.EndsAt done rest (lib.scan lines).2 := by
  rw [scan]
  rcases h.scanFrom hroom #[] with ⟨ha, hs⟩ | ⟨done, b, after, e, hsplit, ha, hno, hs, -, hplace⟩
  · exact ⟨blocks segments, [], (List.append_nil _).symm, ha, by rw [hs], by rw [hs]; exact .all⟩
  · exact ⟨done, b :: after, hsplit, ha, by rw [hs], by rw [hs]; exact .header hno hplace⟩

/-- What holds of a library between two calls. -/
structure Intact (lib : Library) : Prop where
  room : (lib.definitions.length : Int) ≤ lib.limit
  distinct : (lib.definitions.map (·.name)).Nodup
  sound : ∀ d ∈ lib.definitions, d.Sound

theorem intact_empty (limit : Int) : (empty limit).Intact :=
  ⟨room_empty limit, List.nodup_nil, fun _ hd => absurd hd List.not_mem_nil⟩

theorem map_name_addAll (lib : Library) (bs : List Block) :
    (lib.addAll bs).definitions.map (·.name) = lib.definitions.map (·.name) ++ bs.map Block.name := by
  rw [addAll, List.map_append, List.map_map]
  rfl

theorem find?_eq_none_iff {lib : Library} {name : Text} :
    lib.find? name = none ↔ name ∉ lib.definitions.map (·.name) := by
  simp [find?]

theorem Intact.addAll {lib : Library} (h : lib.Intact) {bs : List Block} (ha : lib.Admits bs)
    (hb : ∀ b ∈ bs, ∀ line ∈ b.body, closesBlock line.text = false) : (lib.addAll bs).Intact := by
  constructor
  · simpa [Library.addAll] using ha.room
  · rw [map_name_addAll]
    refine List.nodup_append'.mpr ⟨h.distinct, ha.distinct, fun name hold hnew => ?_⟩
    obtain ⟨b, hb, rfl⟩ := List.mem_map.mp hnew
    exact find?_eq_none_iff.mp (ha.free b hb) hold
  · refine List.forall_mem_append.mpr ⟨h.sound, List.forall_mem_map.mpr fun b hm => ?_⟩
    exact (ha.sound b hm).definition (hb b hm)

theorem Intact.find?_iff {lib : Library} (h : lib.Intact) {name : Text} {d : Definition} :
    lib.find? name = some d ↔ d ∈ lib.definitions ∧ d.name = name :=
  find?_name_iff h.distinct

/-! ## Whole runs -/

/-- A call adds blocks behind the definitions and keeps all else. -/
theorem Intact.step {lib : Library} (h : lib.Intact) (c : Call) :
    (lib.step c).Intact ∧ (lib.step c).limit = lib.limit ∧ lib.definitions <+: (lib.step c).definitions := by
  cases c with
  | scan lines =>
      obtain ⟨segments, hd⟩ := exists_divided lines
      obtain ⟨done, rest, hsplit, ha, hs, -⟩ := scan_divided h.room hd
      rw [Library.step, hs]
      refine ⟨h.addAll ha fun b hb => ?_, rfl, List.prefix_append _ _⟩
      exact hd.body_open b (hsplit ▸ List.mem_append_left rest hb)
  | expand lines => exact ⟨h, rfl, List.prefix_rfl⟩
  | lookup name => exact ⟨h, rfl, List.prefix_rfl⟩

theorem Intact.steps {lib : Library} (h : lib.Intact) (calls : List Call) :
    (calls.foldl Library.step lib).Intact ∧ (calls.foldl Library.step lib).limit = lib.limit ∧
      lib.definitions <+: (calls.foldl Library.step lib).definitions := by
  induction calls generalizing lib with
  | nil => exact ⟨h, rfl, List.prefix_rfl⟩
  | cons c calls ih =>
      obtain ⟨hc, hlimit, hprefix⟩ := h.step c
      obtain ⟨hcs, hlimit', hprefix'⟩ := ih hc
      exact ⟨hcs, hlimit'.trans hlimit, hprefix.trans hprefix'⟩

theorem intact_run (limit : Int) (calls : List Call) : (run limit calls).Intact :=
  ((intact_empty limit).steps calls).1

/-- A macro library stays intact over every sequence of calls, files that cannot be read included. Names are
distinct, so a lookup gives the definition listed under the name or nothing; there are never more
definitions than the limit, and each has a name and a few distinct parameters that the source may use and
no closing line in its body. What is stored stays, in its place and under its name. Reading a file adds,
behind the definitions from before and in the order of the file, its blocks up to the first that finds no
place, and the fault is then at the header of that block. -/
theorem integrity_of_scans (limit : Int) (calls : List Call) :
    ((run limit calls).definitions.map (·.name)).Nodup ∧
      (∀ name d, (run limit calls).find? name = some d ↔
        d ∈ (run limit calls).definitions ∧ d.name = name) ∧
      (run limit calls).limit = (if limit ≤ 0 then 64 else limit) ∧
      ((run limit calls).definitions.length : Int) ≤ (run limit calls).limit ∧
      (∀ d ∈ (run limit calls).definitions, d.Sound) ∧
      (∀ later, (run limit calls).definitions <+: (run limit (calls ++ later)).definitions ∧
        ∀ name d, (run limit calls).find? name = some d → (run limit (calls ++ later)).find? name = some d) ∧
      ∀ lines, ∃ segments done rest, Divided lines segments ∧ blocks segments = done ++ rest ∧
        (run limit calls).Admits done ∧
        (run limit (calls ++ [.scan lines])).definitions =
          (run limit calls).definitions ++ done.map Block.definition ∧
        (run limit calls).EndsAt done rest ((run limit calls).scan lines).2 := by
  have h := intact_run limit calls
  have hlater : ∀ later, (run limit calls).definitions <+: (run limit (calls ++ later)).definitions := by
    intro later
    rw [run_append]
    exact (h.steps later).2.2
  refine ⟨h.distinct, fun name d => h.find?_iff, ((intact_empty limit).steps calls).2.1, h.room, h.sound,
    fun later => ⟨hlater later, fun name d hd => ?_⟩, fun lines => ?_⟩
  · obtain ⟨hmem, hname⟩ := h.find?_iff.mp hd
    exact (intact_run limit _).find?_iff.mpr ⟨(hlater later).subset hmem, hname⟩
  · obtain ⟨segments, hd⟩ := exists_divided lines
    obtain ⟨done, rest, hsplit, ha, hs, hend⟩ := scan_divided h.room hd
    refine ⟨segments, done, rest, hd, hsplit, ha, ?_, hend⟩
    rw [run_append]
    exact congrArg definitions hs

/-- A block that is not closed, a name that is taken and a full library, each behind a block that is
stored. -/
def brokenFiles : List Call :=
  [.scan [⟨1, Text.of "MACRO one x, y"⟩, ⟨2, Text.of "inc %x%"⟩, ⟨3, Text.of " endm"⟩, ⟨4, Text.of "MACRO two"⟩],
    .lookup (Text.of "two"),
    .scan [⟨1, Text.of "macro three"⟩, ⟨2, Text.of "ENDM"⟩, ⟨3, Text.of "MACRO one"⟩, ⟨4, Text.of "ENDM"⟩],
    .expand [⟨1, Text.of "one r1"⟩],
    .scan [⟨1, Text.of "MACRO four"⟩, ⟨2, Text.of "ENDM"⟩, ⟨3, Text.of "MACRO five"⟩, ⟨4, Text.of "ENDM"⟩]]

def firstDefinition : Definition :=
  { name := Text.of "one", params := [Text.of "x", Text.of "y"], body := #[Text.of "inc %x%"], position := ⟨1, 1, 14⟩ }

theorem brokenFiles_intact :
    (run 3 brokenFiles).definitions.map (·.name) = [Text.of "one", Text.of "three", Text.of "four"] ∧
      (run 3 (brokenFiles.take 1)).find? (Text.of "one") = some firstDefinition ∧
      (run 3 brokenFiles).find? (Text.of "one") = some firstDefinition ∧ firstDefinition.Sound := by
  obtain ⟨-, hfind, -, -, hsound, hlater, -⟩ := integrity_of_scans 3 (brokenFiles.take 1)
  have hfound : (run 3 (brokenFiles.take 1)).find? (Text.of "one") = some firstDefinition := by decide +kernel
  exact ⟨by decide +kernel, hfound, (hlater (brokenFiles.drop 1)).2 _ _ hfound, hsound _ ((hfind _ _).mp hfound).1⟩

end Library

end TwoPass.Macro
