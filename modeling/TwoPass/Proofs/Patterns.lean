import Mathlib
import TwoPass.Path.Pattern

/-!
Patterns of file names. Plain text stands for itself alone, and a single special byte in it is enough to
change that: the pattern then fits another name too, or no longer fits its own text.
-/
namespace TwoPass.Path

/-- A text in which no byte has a special meaning. -/
def IsPlain (t : Text) : Prop :=
  ∀ b ∈ t, isMeta b = false

instance (t : Text) : Decidable (IsPlain t) :=
  List.decidableBAll (fun b => isMeta b = false) t

theorem isMeta_eq_false {b : UInt8} : isMeta b = false ↔
    b ≠ '*'.toUInt8 ∧ b ≠ '?'.toUInt8 ∧ b ≠ '['.toUInt8 ∧ b ≠ '\\'.toUInt8 := by
  simp [isMeta, and_assoc]

theorem isMeta_eq_true {b : UInt8} : isMeta b = true ↔
    (b = '*'.toUInt8 ∨ b = '?'.toUInt8) ∨ b = '['.toUInt8 ∨ b = '\\'.toUInt8 := by
  simp [isMeta, or_assoc]

theorem IsPlain.not_mem_star {t : Text} (h : IsPlain t) : '*'.toUInt8 ∉ t :=
  fun hmem => (isMeta_eq_false.mp (h _ hmem)).1 rfl

namespace Pattern

/-! ## Reading -/

section
variable {front back : Text}

/-- Plain bytes are pieces of their own. -/
theorem pieces?_append (h : IsPlain front) (fuel : Nat) (done : List Piece) (t : Text) :
    pieces? (front.length + fuel) done (front ++ t) = pieces? fuel ((front.map .byte).reverse ++ done) t := by
  induction front generalizing done with
  | nil => rw [List.length_nil, Nat.zero_add]; rfl
  | cons b front ih =>
      obtain ⟨hb, hfront⟩ := List.forall_mem_cons.mp h
      obtain ⟨-, hone, hclass, hescape⟩ := isMeta_eq_false.mp hb
      have hstep : pieces? (front.length + fuel + 1) done (b :: (front ++ t)) =
          pieces? (front.length + fuel) (.byte b :: done) (front ++ t) := by
        simp [pieces?, hone, hclass, hescape]
      rw [List.length_cons, Nat.add_right_comm, List.cons_append, hstep, ih hfront]
      simp

theorem pieces?_of_isPlain {t : Text} (h : IsPlain t) {fuel : Nat} (hfuel : t.length < fuel) (done : List Piece) :
    pieces? fuel done t = some (done.reverse ++ t.map .byte) := by
  obtain ⟨k, rfl⟩ := Nat.exists_eq_add_of_lt hfuel
  have happend := pieces?_append h (k + 1) done []
  rw [List.append_nil, ← Nat.add_assoc] at happend
  rw [happend]
  simp [pieces?]

theorem chunkOf_of_isPlain {t : Text} (h : IsPlain t) (afterStar : Bool) :
    chunkOf afterStar t = ⟨afterStar, some (t.map .byte)⟩ := by
  rw [chunkOf, pieces?_of_isPlain h (Nat.lt_succ_self _)]
  rfl

/-- Plain bytes are put onto the current chunk. -/
theorem chunksFrom_append (h : IsPlain front) (done : Text) (afterStar : Bool) (t : Text) :
    chunksFrom done afterStar false false (front ++ t) =
      chunksFrom (front.reverse ++ done) afterStar false false t := by
  induction front generalizing done with
  | nil => rfl
  | cons b front ih =>
      obtain ⟨hb, hfront⟩ := List.forall_mem_cons.mp h
      obtain ⟨hstar, -, hclass, hescape⟩ := isMeta_eq_false.mp hb
      have hstep : chunksFrom done afterStar false false (b :: (front ++ t)) =
          chunksFrom (b :: done) afterStar false false (front ++ t) := by
        simp [chunksFrom, hstar, hclass, hescape]
      rw [List.cons_append, hstep, ih hfront, List.reverse_cons, List.append_assoc, List.singleton_append]

/-- A text without stars is one chunk. -/
theorem ofText_of_not_mem {t : Text} (h : '*'.toUInt8 ∉ t) : ofText t = [chunkOf false t] := by
  have hrun : ∀ (t done : Text) (inClass escaped : Bool), '*'.toUInt8 ∉ t →
      chunksFrom done false inClass escaped t = [chunkOf false (done.reverse ++ t)] := by
    intro t
    induction t with
    | nil => exact fun done _ _ _ => by rw [chunksFrom, List.append_nil]
    | cons b t ih =>
        intro done inClass escaped h
        rw [List.mem_cons, not_or] at h
        have hpush : (b :: done).reverse ++ t = done.reverse ++ b :: t := by simp
        rw [chunksFrom]
        split
        · rw [ih _ _ _ h.2, hpush]
        · rw [if_neg (by simp [Ne.symm h.1])]
          dsimp only
          rw [ih _ _ _ h.2, hpush]
  exact hrun t [] false false h

/-- A star between plain bytes parts two chunks, of which the first is left out if it is empty. -/
theorem ofText_star (hf : IsPlain front) (hb : IsPlain back) :
    ofText (front ++ '*'.toUInt8 :: back) =
      (if front.isEmpty then [] else [⟨false, some (front.map .byte)⟩]) ++ [⟨true, some (back.map .byte)⟩] := by
  have hlast : chunksFrom [] true false false back = [⟨true, some (back.map .byte)⟩] := by
    have happend := chunksFrom_append hb [] true []
    rw [List.append_nil, List.append_nil] at happend
    rw [happend, chunksFrom, List.reverse_reverse, chunkOf_of_isPlain hb]
  have hstar : chunksFrom front.reverse false false false ('*'.toUInt8 :: back) =
      if front.isEmpty then chunksFrom [] true false false back
      else chunkOf false front :: chunksFrom [] true false false back := by
    rw [chunksFrom, List.reverse_reverse, List.isEmpty_reverse]
    rfl
  rw [ofText, chunksFrom_append hf, List.append_nil, hstar, hlast, chunkOf_of_isPlain hf]
  split <;> rfl

/-! ## Malformed patterns -/

/-- No name meets a malformed chunk if there is none. -/
theorem fits?_ne_none {chunks : Pattern} (h : ∀ chunk ∈ chunks, chunk.pieces ≠ none) (name : Text) :
    chunks.fits? name ≠ none := by
  induction chunks generalizing name with
  | nil => exact Option.some_ne_none _
  | cons chunk chunks ih =>
      obtain ⟨hchunk, hchunks⟩ := List.forall_mem_cons.mp h
      obtain ⟨pieces, hpieces⟩ := Option.ne_none_iff_exists'.mp hchunk
      rw [fits?, hpieces]
      dsimp only
      split
      · exact ih hchunks _
      · exact Option.some_ne_none _

theorem isRefused_of_chunks {t : Text} (h : ∀ chunk ∈ ofText t, chunk.pieces ≠ none) : isRefused t = false := by
  rw [isRefused, Option.isNone_eq_false_iff, Option.isSome_iff_ne_none]
  exact fits?_ne_none h []

theorem isRefused_of_isPlain {t : Text} (h : IsPlain t) : isRefused t = false := by
  refine isRefused_of_chunks ?_
  rw [ofText_of_not_mem h.not_mem_star, chunkOf_of_isPlain h]
  exact List.forall_mem_singleton.mpr (Option.some_ne_none _)

theorem pieces_of_star (hf : IsPlain front) (hb : IsPlain back) :
    ∀ chunk ∈ ofText (front ++ '*'.toUInt8 :: back), chunk.pieces ≠ none := by
  rw [ofText_star hf hb, List.forall_mem_append]
  refine ⟨?_, List.forall_mem_singleton.mpr (Option.some_ne_none _)⟩
  split
  · exact List.forall_mem_nil _
  · exact List.forall_mem_singleton.mpr (Option.some_ne_none _)

end

/-! ## Fitting -/

theorem afterPieces?_append (ps qs : List Piece) (name : Text) :
    afterPieces? (ps ++ qs) name = (afterPieces? ps name).bind (afterPieces? qs) := by
  induction ps generalizing name with
  | nil => rfl
  | cons p ps ih =>
      cases p with
      | byte b =>
          cases name with
          | nil => rfl
          | cons x name =>
              rw [List.cons_append, afterPieces?, afterPieces?, ih]
              split <;> rfl
      | oneChar =>
          rw [List.cons_append, afterPieces?, afterPieces?]
          cases nameChar? name with
          | none => rfl
          | some r => exact ih r.2
      | oneOf negated ranges =>
          rw [List.cons_append, afterPieces?, afterPieces?]
          cases nameChar? name with
          | none => rfl
          | some r =>
              dsimp only
              rw [ih]
              split <;> rfl

theorem afterPieces?_bytes {t name rest : Text} :
    afterPieces? (t.map .byte) name = some rest ↔ name = t ++ rest := by
  induction t generalizing name with
  | nil => simp [afterPieces?]
  | cons b t ih =>
      cases name with
      | nil => simp [afterPieces?]
      | cons x name =>
          rw [List.map_cons, afterPieces?]
          split
          · rename_i hx
            rw [ih, hx]
            simp
          · rename_i hx
            simp [hx]

theorem mem_suffixes {s name : Text} : s ∈ suffixes name ↔ s <:+ name := by
  induction name with
  | nil => simp [suffixes]
  | cons b name ih => rw [suffixes, List.mem_cons, ih, List.suffix_cons_iff]

/-- A star and plain bytes behind it fit the names that end in these bytes. -/
theorem fits?_ending (back name : Text) :
    fits? [⟨true, some (back.map .byte)⟩] name = some (back.isSuffixOf name) := by
  rw [fits?]
  dsimp only
  rw [if_pos rfl]
  cases hfind : (suffixes name).findSome? fun s =>
      (afterPieces? (back.map .byte) s).filter fun rest => rest.isEmpty || !([] : Pattern).isEmpty with
  | some rest =>
      obtain ⟨s, hs, hrest⟩ := List.exists_of_findSome?_eq_some hfind
      obtain ⟨hafter, hempty⟩ := Option.filter_eq_some_iff.mp hrest
      have hnil : rest = [] := by simpa using hempty
      subst hnil
      have hsuffix : back.isSuffixOf name = true := by
        rw [afterPieces?_bytes, List.append_nil] at hafter
        rw [List.isSuffixOf_iff_suffix, ← hafter]
        exact mem_suffixes.mp hs
      rw [hsuffix]
      rfl
  | none =>
      rw [List.findSome?_eq_none_iff] at hfind
      have hno : back.isSuffixOf name = false := by
        rw [← Bool.not_eq_true, List.isSuffixOf_iff_suffix]
        intro hsuffix
        have hnone := hfind _ (mem_suffixes.mpr hsuffix)
        rw [afterPieces?_bytes.mpr (List.append_nil _).symm] at hnone
        cases hnone
      rw [hno]

/-- The pieces of a pattern without stars have to take the whole name. -/
theorem fits?_single {ps : List Piece} {name : Text} :
    fits? [⟨false, some ps⟩] name = some true ↔ afterPieces? ps name = some [] := by
  rw [fits?]
  dsimp only
  rw [if_neg Bool.false_ne_true, List.findSome?_singleton]
  cases afterPieces? ps name with
  | none => simp
  | some rest => cases rest <;> simp [fits?, Option.filter_some]

/-- The names of source files. -/
def sources : Text := Text.of "*.as"

theorem fits?_sources (name : Text) : (ofText sources).fits? name = some ((Text.of ".as").isSuffixOf name) := by
  have hchunks : ofText sources = [⟨true, some ((Text.of ".as").map .byte)⟩] := by decide
  rw [hchunks, fits?_ending]

theorem isRefused_append_sources {t : Text} (h : IsPlain t) : isRefused (t ++ sources) = false := by
  have hcons : sources = '*'.toUInt8 :: Text.of ".as" := by decide
  rw [hcons]
  exact isRefused_of_chunks (pieces_of_star h (by decide))

/-! ## Special bytes -/

theorem nameChar?_cons {b : UInt8} (h : b < 0x80) (t : Text) : nameChar? (b :: t) = some (Char.ofUInt8 b, t) := by
  simp [nameChar?, Text.firstChar?, h]

theorem classChar?_suffix {t rest : Text} {c : Char} (h : classChar? t = some (c, rest)) : rest <:+ t := by
  simp only [classChar?, Option.bind_eq_bind, Option.bind_eq_some_iff] at h
  obtain ⟨b, -, h⟩ := h
  have htail : (if b = '\\'.toUInt8 then t.drop 1 else t) <:+ t := by
    split
    · exact List.drop_suffix _ _
    · exact List.suffix_rfl
  split at h
  · cases h
  · obtain ⟨⟨c', tail⟩, -, h⟩ := Option.bind_eq_some_iff.mp h
    obtain ⟨-, h⟩ := Option.ite_none_left_eq_some.mp h
    cases h
    exact (List.drop_suffix _ _).trans htail

/-- A class takes its closing bracket at least. -/
theorem classRanges?_suffix {fuel : Nat} {ranges ranges' : List (Char × Char)} {t rest : Text}
    (h : classRanges? fuel ranges t = some (ranges', rest)) : ∃ b, b :: rest <:+ t := by
  induction fuel generalizing ranges t with
  | zero => cases h
  | succ fuel ih =>
      cases t with
      | nil => cases h
      | cons b t =>
          rw [classRanges?] at h
          split at h
          · cases h
            exact ⟨b, List.suffix_rfl⟩
          · obtain ⟨⟨lo, t'⟩, hlo, h⟩ := Option.bind_eq_some_iff.mp h
            have hfirst := classChar?_suffix hlo
            dsimp only at h
            split at h
            · obtain ⟨⟨hi, t''⟩, hhi, h⟩ := Option.bind_eq_some_iff.mp h
              obtain ⟨last, hrest⟩ := ih h
              exact ⟨last, hrest.trans ((classChar?_suffix hhi).trans ((List.drop_suffix _ _).trans hfirst))⟩
            · obtain ⟨last, hrest⟩ := ih h
              exact ⟨last, hrest.trans hfirst⟩

section
variable {front back : Text} (hf : IsPlain front) (hb : IsPlain back)
include hf hb

theorem fits?_star (mid : Text) :
    (ofText (front ++ '*'.toUInt8 :: back)).fits? (front ++ (mid ++ back)) = some true := by
  have hlast : fits? [⟨true, some (back.map .byte)⟩] (mid ++ back) = some true := by
    rw [fits?_ending, List.isSuffixOf_iff_suffix.mpr (List.suffix_append mid back)]
  rw [ofText_star hf hb]
  split
  · rename_i hempty
    rw [List.isEmpty_iff.mp hempty]
    exact hlast
  · rw [List.singleton_append, fits?]
    dsimp only
    rw [if_neg Bool.false_ne_true, List.findSome?_singleton, afterPieces?_bytes.mpr rfl, Option.filter_some]
    simpa using hlast

/-- A byte other than a star between plain ones leaves a single chunk. -/
theorem ofText_special {c : UInt8} (hc : c ≠ '*'.toUInt8) :
    ofText (front ++ c :: back) =
      [⟨false, pieces? (back.length + 1 + 1) (front.map .byte).reverse (c :: back)⟩] := by
  have hfree : '*'.toUInt8 ∉ front ++ c :: back := by
    rw [List.mem_append, List.mem_cons, not_or, not_or]
    exact ⟨hf.not_mem_star, Ne.symm hc, hb.not_mem_star⟩
  have hfuel : (front ++ c :: back).length + 1 = front.length + (back.length + 1 + 1) := by
    rw [List.length_append, List.length_cons, Nat.add_assoc]
  rw [ofText_of_not_mem hfree, chunkOf, hfuel, pieces?_append hf, List.append_nil]

theorem ofText_question : ofText (front ++ '?'.toUInt8 :: back) =
    [⟨false, some (front.map .byte ++ .oneChar :: back.map .byte)⟩] := by
  have hstep : pieces? (back.length + 1 + 1) (front.map .byte).reverse ('?'.toUInt8 :: back) =
      pieces? (back.length + 1) (.oneChar :: (front.map .byte).reverse) back := by
    simp [pieces?]
  rw [ofText_special hf hb (by decide), hstep, pieces?_of_isPlain hb (Nat.lt_succ_self _)]
  simp

/-- A star and a question mark can be replaced by any byte that is a character. -/
theorem fits?_other {c b : UInt8} (hc : c = '*'.toUInt8 ∨ c = '?'.toUInt8) (h : b < 0x80) :
    (ofText (front ++ c :: back)).fits? (front ++ b :: back) = some true := by
  rcases hc with rfl | rfl
  · exact fits?_star hf hb [b]
  · rw [ofText_question hf hb, fits?_single, afterPieces?_append, afterPieces?_bytes.mpr rfl, Option.bind_some,
      afterPieces?, nameChar?_cons h]
    exact afterPieces?_bytes.mpr (List.append_nil back).symm

theorem pieces_of_other {c : UInt8} (hc : c = '*'.toUInt8 ∨ c = '?'.toUInt8) :
    ∀ chunk ∈ ofText (front ++ c :: back), chunk.pieces ≠ none := by
  rcases hc with rfl | rfl
  · exact pieces_of_star hf hb
  · rw [ofText_question hf hb]
    exact List.forall_mem_singleton.mpr (Option.some_ne_none _)

/-- A backslash stands for the byte behind it. -/
theorem fits?_escape : (ofText (front ++ '\\'.toUInt8 :: back)).fits? (front ++ '\\'.toUInt8 :: back) ≠ some true := by
  rw [ofText_special hf hb (by decide)]
  cases back with
  | nil =>
      have hnone : ∀ fuel done, pieces? (fuel + 1) done ['\\'.toUInt8] = none := by
        intro fuel done
        rw [pieces?, if_neg (by decide), if_pos rfl]
      rw [hnone]
      intro hfits
      cases hfits
  | cons b back =>
      have hstep : ∀ fuel done,
          pieces? (fuel + 1) done ('\\'.toUInt8 :: b :: back) = pieces? fuel (.byte b :: done) back := by
        intro fuel done
        rw [pieces?, if_neg (by decide), if_pos rfl]
      have hback : IsPlain back := fun x hx => hb x (List.mem_cons_of_mem _ hx)
      have hbytes : (Piece.byte b :: (front.map Piece.byte).reverse).reverse ++ back.map Piece.byte =
          (front ++ b :: back).map Piece.byte := by
        simp
      rw [hstep, pieces?_of_isPlain hback (by simp), hbytes, Ne, fits?_single, afterPieces?_bytes]
      intro he
      exact absurd (congrArg List.length he) (by simp)

/-- A class stands for one character, and its closing bracket does not stand for itself. -/
theorem fits?_class : (ofText (front ++ '['.toUInt8 :: back)).fits? (front ++ '['.toUInt8 :: back) ≠ some true := by
  rw [ofText_special hf hb (by decide)]
  intro hfits
  cases hpieces : pieces? (back.length + 1 + 1) (front.map Piece.byte).reverse ('['.toUInt8 :: back) with
  | none =>
      rw [hpieces] at hfits
      cases hfits
  | some ps =>
      rw [hpieces, fits?_single] at hfits
      rw [pieces?.eq_def] at hpieces
      dsimp only at hpieces
      rw [if_neg (by decide), if_neg (by decide), if_pos rfl] at hpieces
      obtain ⟨⟨ranges, rest⟩, hclass, hpieces⟩ := Option.bind_eq_some_iff.mp hpieces
      obtain ⟨b, hrest⟩ := classRanges?_suffix hclass
      have hshort : b :: rest <:+ back := by
        refine hrest.trans ?_
        split
        · exact List.drop_suffix _ _
        · exact List.suffix_rfl
      have hplain : IsPlain rest := fun x hx => hb x (hshort.subset (List.mem_cons_of_mem _ hx))
      have hlength : rest.length < back.length := hshort.length_le
      dsimp only at hpieces
      rw [pieces?_of_isPlain hplain (by omega), List.reverse_cons, List.reverse_reverse, List.append_assoc] at hpieces
      cases hpieces
      rw [afterPieces?_append, afterPieces?_bytes.mpr rfl, Option.bind_some, List.singleton_append, afterPieces?,
        nameChar?_cons (by decide)] at hfits
      dsimp only at hfits
      obtain ⟨-, hfits⟩ := Option.ite_none_right_eq_some.mp hfits
      rw [afterPieces?_bytes, List.append_nil] at hfits
      rw [hfits] at hlength
      exact Nat.lt_irrefl _ hlength

end

end Pattern

end TwoPass.Path
