import TwoPass.Proofs.Expansion
import TwoPass.Proofs.OperandGrammar

/-!
Filling placeholders is a simultaneous replacement. Placeholders may share their percent signs and
arguments may look like placeholders, so what is replaced is told by one pass over the text that was
written.
-/
namespace TwoPass.Macro

/-! ## One pass over a text -/

/-- The text that stands for a parameter in a body. -/
def placeholder (p : Text) : Text :=
  '%'.toUInt8 :: p ++ ['%'.toUInt8]

/-- The placeholder of each parameter with the argument at its position. A missing argument is empty, and
arguments without a parameter are left out. -/
def placeholders (params args : List Text) : List (Text × Text) :=
  params.mapIdx fun i p => (placeholder p, args.getD i [])

/-- Reads a text once from left to right. Where an old text stands, the first such in the order of the pairs
is replaced and reading goes on behind it. -/
inductive Replaced (pairs : List (Text × Text)) : Text → Text → Prop
  | nil : Replaced pairs [] []
  | fill {old value rest out} : pairs.find? (fun pair => pair.1.isPrefixOf (old ++ rest)) = some (old, value) →
      Replaced pairs rest out → Replaced pairs (old ++ rest) (value ++ out)
  | keep {b rest out} : (∀ pair ∈ pairs, ¬ pair.1 <+: b :: rest) → Replaced pairs rest out →
      Replaced pairs (b :: rest) (b :: out)

theorem exists_replaced {pairs : List (Text × Text)} (h : ∀ pair ∈ pairs, pair.1 ≠ []) (t : Text) :
    ∃ out, Replaced pairs t out := by
  induction hn : t.length using Nat.strong_induction_on generalizing t with
  | _ n ih =>
      cases t with
      | nil => exact ⟨[], .nil⟩
      | cons b t =>
          cases hf : pairs.find? (fun pair => pair.1.isPrefixOf (b :: t)) with
          | none =>
              obtain ⟨out, hout⟩ := ih t.length (by simp at hn; omega) t rfl
              refine ⟨b :: out, .keep (fun pair hp hpre => ?_) hout⟩
              exact List.find?_eq_none.mp hf pair hp (List.isPrefixOf_iff_prefix.mpr hpre)
          | some pair =>
              have hne := List.length_pos_iff.mpr (h pair (List.mem_of_find?_eq_some hf))
              have hpre : pair.1.isPrefixOf (b :: t) = true := by simpa using List.find?_some hf
              obtain ⟨rest, hrest⟩ := List.isPrefixOf_iff_prefix.mp hpre
              have hlen : pair.1.length + rest.length = n := by rw [← hn, ← hrest, List.length_append]
              obtain ⟨out, hout⟩ := ih rest.length (by omega) rest rfl
              rw [← hrest] at hf ⊢
              exact ⟨pair.2 ++ out, .fill hf hout⟩

/-- Replacing texts by themselves changes nothing. -/
theorem Replaced.eq_self {pairs : List (Text × Text)} (hsame : ∀ pair ∈ pairs, pair.2 = pair.1) {t out : Text}
    (h : Replaced pairs t out) : out = t := by
  induction h with
  | nil => rfl
  | @fill old value rest out hf _ ih =>
      have hvalue : value = old := hsame (old, value) (List.mem_of_find?_eq_some hf)
      rw [ih, hvalue]
  | keep _ _ ih => rw [ih]

/-! ## Filling byte by byte -/

/-- `fillOnto` without what was done before. -/
def fill (bindings : List (Text × Text)) : List Text → Text
  | [] => []
  | [plain] => plain
  | plain :: name :: rest =>
    match rest, bindings.lookup name with
    | _ :: _, some value => plain ++ (value ++ fill bindings rest)
    | _, _ => plain ++ '%'.toUInt8 :: fill bindings (name :: rest)

theorem fillOnto_eq (bindings : List (Text × Text)) (done : Array Text) (pieces : List Text) :
    fillOnto bindings done pieces = done.toList.flatten ++ fill bindings pieces := by
  fun_induction fillOnto bindings done pieces with
  | case1 done => simp [fill]
  | case2 done plain => simp [fill]
  | case3 done plain name next rest value hvalue ih => simp [fill, hvalue, ih]
  | case4 done plain name rest h ih =>
      rw [ih, fill]
      · simp
      · exact h

theorem substitute_eq (bindings : List (Text × Text)) (t : Text) :
    substitute bindings t = fill bindings (t.splitOn '%'.toUInt8) := by
  rw [substitute, fillOnto_eq]
  simp

theorem fill_cons (bindings : List (Text × Text)) (b : UInt8) (plain : Text) (rest : List Text) :
    fill bindings ((b :: plain) :: rest) = b :: fill bindings (plain :: rest) := by
  cases rest with
  | nil => simp [fill]
  | cons name rest =>
      cases rest with
      | nil => simp [fill]
      | cons next rest => cases hl : bindings.lookup name <;> simp [fill, hl]

section
variable {bindings : List (Text × Text)}

theorem substitute_nil : substitute bindings [] = [] := rfl

theorem substitute_cons {b : UInt8} (hb : b ≠ '%'.toUInt8) (t : Text) :
    substitute bindings (b :: t) = b :: substitute bindings t := by
  obtain ⟨plain, rest, hs⟩ := List.exists_cons_of_ne_nil (Text.splitOn_ne_nil '%'.toUInt8 t)
  rw [substitute_eq, substitute_eq, Text.splitOn_cons, if_neg hb, hs]
  exact fill_cons bindings b plain rest

theorem substitute_placeholder {name value : Text} (hname : '%'.toUInt8 ∉ name)
    (hvalue : bindings.lookup name = some value) (rest : Text) :
    substitute bindings (placeholder name ++ rest) = value ++ substitute bindings rest := by
  have htext : placeholder name ++ rest = '%'.toUInt8 :: (name ++ '%'.toUInt8 :: rest) := by simp [placeholder]
  obtain ⟨plain, pieces, hs⟩ := List.exists_cons_of_ne_nil (Text.splitOn_ne_nil '%'.toUInt8 rest)
  rw [htext, substitute_eq, substitute_eq, Text.splitOn_cons, if_pos rfl, Text.splitOn_append hname, hs]
  simp [fill, hvalue]

/-- A percent sign stays if no placeholder starts there. -/
theorem substitute_percent {t : Text}
    (h : ∀ name rest, '%'.toUInt8 ∉ name → t = name ++ '%'.toUInt8 :: rest → bindings.lookup name = none) :
    substitute bindings ('%'.toUInt8 :: t) = '%'.toUInt8 :: substitute bindings t := by
  rw [substitute_eq, substitute_eq, Text.splitOn_cons, if_pos rfl]
  by_cases ht : '%'.toUInt8 ∈ t
  · obtain ⟨name, rest, rfl, hname⟩ := List.eq_append_cons_of_mem ht
    obtain ⟨plain, pieces, hs⟩ := List.exists_cons_of_ne_nil (Text.splitOn_ne_nil '%'.toUInt8 rest)
    rw [Text.splitOn_append hname, hs]
    simp [fill, h name rest hname rfl]
  · rw [Text.splitOn_of_not_mem ht]
    simp [fill]

/-- Of the bindings only what each name is bound to shows. -/
theorem substitute_congr {bindings' : List (Text × Text)} (h : ∀ name, bindings.lookup name = bindings'.lookup name)
    (t : Text) : substitute bindings t = substitute bindings' t := by
  rw [substitute_eq, substitute_eq]
  fun_induction fill bindings (t.splitOn '%'.toUInt8) with
  | case1 => rfl
  | case2 plain => rfl
  | case3 plain name next rest value hvalue ih =>
      rw [h] at hvalue
      simp [fill, hvalue, ih]
  | case4 plain name rest hno ih =>
      rw [fill, ih]
      intro head tail value hrest hvalue
      exact hno head tail value hrest ((h name).trans hvalue)

end

/-! ## Bindings -/

/-- Under distinct names, what a name is bound to is what is listed with it. -/
theorem lookup_eq_some_iff {bindings : List (Text × Text)} (h : (bindings.map (·.1)).Nodup) {name value : Text} :
    bindings.lookup name = some value ↔ (name, value) ∈ bindings := by
  induction bindings with
  | nil => simp
  | cons pair bindings ih =>
      obtain ⟨p, v⟩ := pair
      rw [List.map_cons, List.nodup_cons] at h
      rw [List.lookup_cons, List.mem_cons, Prod.mk.injEq, ← ih h.2]
      by_cases hp : name = p
      · subst hp
        have hnone : bindings.lookup name ≠ some value := by
          intro hl
          exact h.1 (List.mem_map.mpr ⟨_, (ih h.2).mp hl, rfl⟩)
        simp [hnone, eq_comm]
      · simp [hp, beq_false_of_ne hp]

theorem lookup_perm {bindings bindings' : List (Text × Text)} (hp : bindings.Perm bindings')
    (h : (bindings.map (·.1)).Nodup) (name : Text) : bindings.lookup name = bindings'.lookup name := by
  have h' : (bindings'.map (·.1)).Nodup := (hp.map _).nodup_iff.mp h
  ext value
  rw [lookup_eq_some_iff h, lookup_eq_some_iff h', hp.mem_iff]

theorem placeholders_eq (params args : List Text) :
    placeholders params args = (bind params args).map fun pair => (placeholder pair.1, pair.2) := by
  unfold placeholders
  fun_induction bind params args with
  | case1 args => rfl
  | case2 p params ih => simpa [List.mapIdx_cons] using ih
  | case3 p params arg args ih => simpa [List.mapIdx_cons] using ih

theorem map_fst_bind (params args : List Text) : (bind params args).map (·.1) = params := by
  fun_induction bind params args with
  | case1 args => rfl
  | case2 p params ih => rw [List.map_cons, ih]
  | case3 p params arg args ih => rw [List.map_cons, ih]

theorem bind_perm {params params' args args' : List Text}
    (h : (placeholders params args).Perm (placeholders params' args')) :
    (bind params args).Perm (bind params' args') := by
  rw [placeholders_eq, placeholders_eq] at h
  refine (List.map_perm_map_iff ?_).mp h
  rintro ⟨p, v⟩ ⟨q, w⟩ he
  simpa [placeholder] using he

/-- A placeholder stands for its argument if the argument starts with all placeholders in their order. -/
theorem placeholders_self {params args : List Text} (h : params.map placeholder <+: args) :
    ∀ pair ∈ placeholders params args, pair.2 = pair.1 := by
  obtain ⟨rest, rfl⟩ := h
  rw [placeholders_eq]
  induction params with
  | nil => simp [bind]
  | cons p params ih => simpa [bind] using ih

section
variable {params args : List Text} (hvalid : ∀ p ∈ params, Name.isValid p = true) (hnodup : params.Nodup)
include hvalid hnodup

theorem mem_placeholders {old value : Text} (h : (old, value) ∈ placeholders params args) :
    ∃ p, '%'.toUInt8 ∉ p ∧ old = placeholder p ∧ (bind params args).lookup p = some value := by
  rw [placeholders_eq] at h
  obtain ⟨⟨p, v⟩, hmem, he⟩ := List.mem_map.mp h
  cases he
  have hp : p ∈ params := by
    rw [← map_fst_bind params args]
    exact List.mem_map.mpr ⟨_, hmem, rfl⟩
  refine ⟨p, Name.not_mem_of_isValid (hvalid p hp) (by decide), rfl, ?_⟩
  exact (lookup_eq_some_iff (by rwa [map_fst_bind])).mpr hmem

theorem substitute_of_replaced {t out : Text} (h : Replaced (placeholders params args) t out) :
    substitute (bind params args) t = out := by
  induction h with
  | nil => exact substitute_nil
  | fill hf _ ih =>
      obtain ⟨p, hp, rfl, hvalue⟩ := mem_placeholders hvalid hnodup (List.mem_of_find?_eq_some hf)
      rw [substitute_placeholder hp hvalue, ih]
  | @keep b rest out hno _ ih =>
      by_cases hb : b = '%'.toUInt8
      · subst hb
        rw [substitute_percent, ih]
        rintro name tail - rfl
        rw [Option.eq_none_iff_forall_ne_some]
        intro value hvalue
        have hmem := (lookup_eq_some_iff (by rwa [map_fst_bind])).mp hvalue
        refine hno (placeholder name, value) ?_ ⟨tail, by simp [placeholder]⟩
        rw [placeholders_eq]
        exact List.mem_map.mpr ⟨_, hmem, rfl⟩
      · rw [substitute_cons hb, ih]

end

/-- Filling a body replaces each placeholder by the argument at its position, in a single pass. So the order
of the parameters does not matter, and a body stays as it is if each argument is its own placeholder. -/
theorem substitute_simultaneous (d : Definition) (hvalid : ∀ p ∈ d.params, Name.isValid p = true)
    (hnodup : d.params.Nodup) (args : List Text) :
    (∀ t out, substitute (bind d.params args) t = out ↔ Replaced (placeholders d.params args) t out) ∧
    (∀ params' args', (placeholders d.params args).Perm (placeholders params' args') →
      ∀ t, substitute (bind params' args') t = substitute (bind d.params args) t) ∧
    (d.params.map placeholder <+: args → ∀ t, substitute (bind d.params args) t = t) := by
  have hne : ∀ pair ∈ placeholders d.params args, pair.1 ≠ [] := by
    rintro ⟨old, value⟩ hm
    obtain ⟨p, -, rfl, -⟩ := mem_placeholders hvalid hnodup hm
    simp [placeholder]
  have hpass : ∀ t, Replaced (placeholders d.params args) t (substitute (bind d.params args) t) := by
    intro t
    obtain ⟨out, hout⟩ := exists_replaced hne t
    rwa [substitute_of_replaced hvalid hnodup hout]
  refine ⟨fun t out => ⟨?_, substitute_of_replaced hvalid hnodup⟩, fun params' args' hp t => ?_, fun hself t => ?_⟩
  · rintro rfl
    exact hpass t
  · refine (substitute_congr (fun name => ?_) t).symm
    exact lookup_perm (bind_perm hp) (by rwa [map_fst_bind]) name
  · exact (hpass t).eq_self (placeholders_self hself)

/-- Placeholders that share percent signs, one of a name that starts with another. -/
def sharingBody : Text :=
  Text.of "%a%b%ab%%c%b%"

def sharingDefinition : Definition :=
  { name := Text.of "share"
    params := [Text.of "a", Text.of "b", Text.of "ab"]
    body := #[sharingBody]
    position := ⟨1, 1, 17⟩ }

theorem sharingDefinition_filled :
    Replaced [(Text.of "%a%", Text.of "%b%"), (Text.of "%b%", Text.of "%a%"), (Text.of "%ab%", [])] sharingBody
      (Text.of "%b%b%c%a%") ∧
    substitute [(Text.of "ab", []), (Text.of "b", Text.of "%a%"), (Text.of "a", Text.of "%b%")] sharingBody =
      Text.of "%b%b%c%a%" ∧
    substitute [(Text.of "a", Text.of "%a%"), (Text.of "b", Text.of "%b%"), (Text.of "ab", Text.of "%ab%")]
      sharingBody = sharingBody := by
  have hvalid : ∀ p ∈ sharingDefinition.params, Name.isValid p = true := by decide
  have hnodup : sharingDefinition.params.Nodup := by decide
  obtain ⟨hpass, hperm, -⟩ := substitute_simultaneous sharingDefinition hvalid hnodup [Text.of "%b%", Text.of "%a%"]
  obtain ⟨-, -, hself⟩ := substitute_simultaneous sharingDefinition hvalid hnodup
    [Text.of "%a%", Text.of "%b%", Text.of "%ab%", Text.of "c"]
  have hfilled : substitute (bind sharingDefinition.params [Text.of "%b%", Text.of "%a%"]) sharingBody =
      Text.of "%b%b%c%a%" := by decide +kernel
  refine ⟨(hpass _ _).mp hfilled, ?_, hself (by decide) _⟩
  exact (hperm [Text.of "ab", Text.of "b", Text.of "a"] [[], Text.of "%a%", Text.of "%b%"] (by decide) _).trans hfilled

end TwoPass.Macro
