import TwoPass.Proofs.ExpandedSource

/-!
What a sink that runs full holds of a stream. Lines are written whole and one after the other, and the first
refusal ends the writing, so the sink is left with the lines that it has room for.
-/
namespace TwoPass

namespace Stream

/-! ## Writing -/

section
variable {σ ε : Type} (put : Text → StateM σ (Except ε Unit))

/-- A sink that refuses a write just if it would take the sink past `limit` bytes. Its states are told
by what has been received in them. -/
structure Bounded (limit : Nat) (Received : σ → Text → Prop) : Prop where
  takes : ∀ s t line, Received s t → t.length + line.length ≤ limit →
    ∃ s', (put line).run s = (.ok (), s') ∧ Received s' (t ++ line)
  refuses : ∀ s t line, Received s t → limit < t.length + line.length →
    ∃ e s', (put line).run s = (.error e, s') ∧ Received s' t

/-- The writing of a stream that ends with the refusal of one of its lines. Nothing is written behind
the refusal, so the sink stays in the state in which the refusal left it. -/
structure Stopped (stream : Stream) (s : σ) (e : ε) (s' : σ) (taken : Stream) (line : Text) : Prop where
  next : ∃ rest, stream = taken ++ line :: rest
  refused : ∃ s₁, (writeTo put taken).run s = (.ok (), s₁) ∧ (put line).run s₁ = (.error e, s')

variable {put}

theorem run_writeTo_of_ok {line : Text} {s s' : σ} (h : (put line).run s = (.ok (), s')) (lines : Stream) :
    (writeTo put (line :: lines)).run s = (writeTo put lines).run s' := by
  rw [writeTo, StateT.run_bind, h]
  rfl

theorem run_writeTo_of_error {line : Text} {s s' : σ} {e : ε} (h : (put line).run s = (.error e, s'))
    (lines : Stream) : (writeTo put (line :: lines)).run s = (.error e, s') := by
  rw [writeTo, StateT.run_bind, h]
  rfl

theorem text_cons (line : Text) (lines : Stream) : text (line :: lines) = line ++ text lines :=
  List.flatten_cons

theorem text_append (lines lines' : Stream) : text (lines ++ lines') = text lines ++ text lines' :=
  List.flatten_append

/-- All lines are taken, or those in front of the first one that there is no room for. -/
theorem Bounded.writeTo_cases {limit : Nat} {Received : σ → Text → Prop} (h : Bounded put limit Received)
    (stream : Stream) {s : σ} {t : Text} (hs : Received s t) (ht : t.length ≤ limit) :
    (t.length + stream.text.length ≤ limit ∧
        ∃ s', (writeTo put stream).run s = (.ok (), s') ∧ Received s' (t ++ stream.text)) ∨
      ∃ taken line e s', Stopped put stream s e s' taken line ∧ (writeTo put stream).run s = (.error e, s') ∧
        Received s' (t ++ text taken) ∧ t.length + (text taken).length ≤ limit ∧
        limit < t.length + (text taken).length + line.length := by
  induction stream generalizing s t with
  | nil => exact Or.inl ⟨ht, s, rfl, by simpa [text] using hs⟩
  | cons line lines ih =>
      by_cases hroom : t.length + line.length ≤ limit
      · obtain ⟨s₁, hput, hs₁⟩ := h.takes s t line hs hroom
        rw [run_writeTo_of_ok hput, text_cons]
        rcases ih hs₁ (by rwa [List.length_append]) with
          ⟨hall, s', hrun, hs'⟩ | ⟨taken, last, e, s', hstop, hrun, hs', hle, hlt⟩
        · refine Or.inl ⟨?_, s', hrun, by rwa [← List.append_assoc]⟩
          rw [List.length_append] at hall ⊢
          omega
        · obtain ⟨⟨rest, rfl⟩, s₂, htaken, hlast⟩ := hstop
          refine Or.inr ⟨line :: taken, last, e, s', ⟨⟨rest, rfl⟩, s₂, ?_, hlast⟩, hrun, ?_, ?_, ?_⟩
          · rwa [run_writeTo_of_ok hput]
          · rwa [text_cons, ← List.append_assoc]
          all_goals
            rw [text_cons]
            rw [List.length_append] at hle hlt ⊢
            omega
      · obtain ⟨e, s', hput, hs'⟩ := h.refuses s t line hs (by omega)
        refine Or.inr ⟨[], line, e, s', ⟨⟨lines, rfl⟩, s, rfl, hput⟩, run_writeTo_of_error hput lines, ?_, ?_, ?_⟩
        · simpa [text] using hs'
        · simpa [text] using ht
        · simpa [text] using hroom

end

/-! ## Whole lines -/

/-- A text of whole lines. -/
def EndsLine (t : Text) : Prop :=
  t = [] ∨ ∃ front, t = front ++ ['\n'.toUInt8]

/-- The longest part from the front of a text that consists of whole lines and has at most `limit` bytes. -/
structure LongestLines (limit : Nat) (whole part : Text) : Prop where
  front : part <+: whole
  lines : EndsLine part
  fits : part.length ≤ limit
  longest : ∀ other, other <+: whole → EndsLine other → other.length ≤ limit → other <+: part

theorem exists_holds {stream : Stream} {contents : List Text} (h : List.Forall₂ Holds stream contents) :
    ∀ line ∈ stream, ∃ content, Holds line content := by
  induction h with
  | nil => exact fun line hl => absurd hl List.not_mem_nil
  | cons hline _ ih => exact List.forall_mem_cons.mpr ⟨⟨_, hline⟩, ih⟩

theorem endsLine_text {stream : Stream} (h : ∀ line ∈ stream, ∃ content, Holds line content) :
    EndsLine stream.text := by
  rcases List.eq_nil_or_concat' stream with rfl | ⟨lines, line, rfl⟩
  · exact Or.inl rfl
  · obtain ⟨content, rfl, -⟩ := h line List.mem_concat_self
    exact Or.inr ⟨text lines ++ content, by simp [text]⟩

/-- Between the ends of two lines that follow each other there is no other end of a line. -/
theorem longestLines_text {taken rest : Stream} {line : Text} {limit : Nat}
    (h : ∀ l ∈ taken ++ line :: rest, ∃ content, Holds l content) (hle : (text taken).length ≤ limit)
    (hlt : limit < (text taken).length + line.length) :
    LongestLines limit (text (taken ++ line :: rest)) (text taken) := by
  obtain ⟨htaken, hrest⟩ := List.forall_mem_append.mp h
  obtain ⟨content, rfl, hfree⟩ := hrest line List.mem_cons_self
  have hfront : text taken <+: text (taken ++ (content ++ ['\n'.toUInt8]) :: rest) := by
    rw [text_append]
    exact List.prefix_append _ _
  refine ⟨hfront, endsLine_text htaken, hle, fun other hother hlines hfits => ?_⟩
  rcases List.prefix_or_prefix_of_prefix hother hfront with hp | ⟨more, rfl⟩
  · exact hp
  -- what stands behind the taken lines is shorter than the next one, so it holds no line feed
  rw [text_append, List.prefix_append_right_inj, text_cons, List.append_assoc] at hother
  rw [List.length_append] at hfits hlt
  have hmore : more <+: content := by
    refine List.prefix_of_prefix_length_le hother (List.prefix_append _ _) ?_
    rw [List.length_singleton] at hlt
    omega
  rcases hlines with hnil | ⟨front, heq⟩
  · rw [(List.append_eq_nil_iff.mp hnil).2, List.append_nil]
  · rcases List.eq_nil_or_concat' more with rfl | ⟨init, last, rfl⟩
    · rw [List.append_nil]
    · rw [← List.append_assoc] at heq
      obtain ⟨-, hlast⟩ := List.append_inj' heq rfl
      have hmem : '\n'.toUInt8 ∈ content := by
        refine hmore.subset ?_
        rw [hlast]
        exact List.mem_append_right _ List.mem_cons_self
      exact absurd hmem hfree

/-! ## The streams of a program -/

/-- The streams that are written for a source without errors, and those of lines without line feeds, as
the lines of an expanded source are. -/
inductive IsOutput : Stream → Prop
  | object {source : List Line} (h : (Assembly.ofLines source).errors = []) :
      IsOutput (object (Assembly.ofLines source).program)
  | entries {source : List Line} (h : (Assembly.ofLines source).errors = []) :
      IsOutput (entries (Assembly.ofLines source).program)
  | externals {source : List Line} (h : (Assembly.ofLines source).errors = []) :
      IsOutput (externals (Assembly.ofLines source).program)
  | expanded {source : Text} {limit : Int} {lines : List Line} (h : Assembly.expandText source limit = .ok lines) :
      IsOutput (expanded lines)
  | lines {lines : List Line} (h : ∀ l ∈ lines, '\n'.toUInt8 ∉ l.text) : IsOutput (expanded lines)

theorem IsOutput.holds {stream : Stream} (h : IsOutput stream) :
    ∀ line ∈ stream, ∃ content, Holds line content := by
  cases h with
  | object h => exact exists_holds (holds_object _)
  | entries h => exact exists_holds (holds_names (Assembly.valid_entries h))
  | externals h => exact exists_holds (holds_names (Assembly.valid_uses h))
  | expanded h => exact exists_holds (Line.holds_expanded (Assembly.newline_not_mem_expandText h))
  | lines h => exact exists_holds (Line.holds_expanded h)

/-- A sink that runs full is left with as many lines of a stream as it has room for. They are the longest part of
the stream that consists of whole lines and fits, for the streams of a program. All is well just if the whole
stream fits, and else the fault is that of the sink, which is offered nothing behind the line it refused. -/
theorem bounded_sink_holds_lines {σ ε : Type} {put : Text → StateM σ (Except ε Unit)} {limit : Nat}
    {Received : σ → Text → Prop} (h : Bounded put limit Received) {s : σ} (hs : Received s []) (stream : Stream) :
    ∃ result s' taken, (writeTo put stream).run s = (result, s') ∧ Received s' (text taken) ∧
      taken <+: stream ∧ (text taken).length ≤ limit ∧
      (∀ other, other <+: stream → (text other).length ≤ limit → other <+: taken) ∧
      (IsOutput stream → LongestLines limit stream.text (text taken)) ∧
      (result = .ok () ↔ stream.text.length ≤ limit) ∧
      ∀ e, result = .error e → ∃ line, Stopped put stream s e s' taken line := by
  rcases h.writeTo_cases stream hs (Nat.zero_le limit) with
    ⟨hall, s', hrun, hs'⟩ | ⟨taken, line, e, s', hstop, hrun, hs', hle, hlt⟩
  · rw [List.length_nil, Nat.zero_add] at hall
    refine ⟨_, s', stream, hrun, hs', List.prefix_refl _, hall, fun other hother _ => hother, fun hout => ?_,
      iff_of_true rfl hall, fun e he => by cases he⟩
    exact ⟨List.prefix_refl _, endsLine_text hout.holds, hall, fun other hother _ _ => hother⟩
  · rw [List.length_nil, Nat.zero_add] at hle hlt
    obtain ⟨rest, hstream⟩ := hstop.next
    have hlong : limit < stream.text.length := by
      rw [hstream, text_append, text_cons, List.length_append, List.length_append]
      omega
    refine ⟨_, s', taken, hrun, hs', ⟨_, hstream.symm⟩, hle, fun other hother hfits => ?_, fun hout => ?_,
      iff_of_false (by rintro ⟨⟩) (Nat.not_le.mpr hlong), fun e' he => ⟨line, Except.error.inj he ▸ hstop⟩⟩
    · rcases List.prefix_or_prefix_of_prefix hother ⟨_, hstream.symm⟩ with hp | ⟨more, rfl⟩
      · exact hp
      · cases more with
        | nil => rw [List.append_nil]
        | cons next more =>
            rw [hstream, List.prefix_append_right_inj, List.cons_prefix_cons] at hother
            obtain ⟨rfl, -⟩ := hother
            rw [text_append, text_cons, List.length_append, List.length_append] at hfits
            omega
    · subst hstream
      exact longestLines_text hout.holds hle hlt

end Stream

/-! ## A sink with room -/

namespace Sink

/-- The sink has received a text, and has the rest of its room left. -/
def Received (limit : Nat) (s : Sink) (t : Text) : Prop :=
  s.text = t ∧ s.room = limit - t.length

theorem run_put (s : Sink) (t : Text) : (put t).run s =
    if t.length ≤ s.room then (.ok (), { s with room := s.room - t.length, written := s.written.push t })
    else (.error .full, s) := by
  have hput : (put t).run s =
      StateT.run (if t.length ≤ s.room then do
          set { s with room := s.room - t.length, written := s.written.push t }
          return .ok ()
        else return .error .full) s := rfl
  rw [hput]
  split <;> rfl

theorem bounded_put (limit : Nat) : Stream.Bounded put limit (Received limit) := by
  constructor
  · rintro s t line ⟨htext, hroom⟩ hfits
    refine ⟨_, (run_put s line).trans (if_pos (by omega)), ?_, ?_⟩
    · rw [← htext]
      simp [text]
    · rw [List.length_append]
      dsimp only
      omega
  · rintro s t line ⟨htext, hroom⟩ hlong
    exact ⟨_, s, (run_put s line).trans (if_neg (by omega)), htext, hroom⟩

end Sink

/-- A sink that has no room for the third line of an object stream. -/
theorem Stream.publishedObject_cut :
    (Assembly.ofLines Assembly.publishedSource).errors = [] ∧
      ∃ s', (writeTo Sink.put (object (Assembly.ofLines Assembly.publishedSource).program)).run { room := 39 } =
          (.error .full, s') ∧
        s'.text = Text.of "2 1\n00001210 00020101\n" ∧
        LongestLines 39 (object (Assembly.ofLines Assembly.publishedSource).program).text s'.text := by
  have herrors : (Assembly.ofLines Assembly.publishedSource).errors = [] := by decide +kernel
  obtain ⟨result, s', taken, hrun, hs', -, -, -, hlongest, hok, -⟩ :=
    bounded_sink_holds_lines (Sink.bounded_put 39) (s := { room := 39 }) ⟨rfl, rfl⟩
      (object (Assembly.ofLines Assembly.publishedSource).program)
  have htext : s'.text = Text.of "2 1\n00001210 00020101\n" := by
    have hstate := congrArg (fun r => r.2.text) hrun
    rw [← hstate]
    decide +kernel
  have hresult : result = .error .full := by
    cases result with
    | ok u => exact absurd (hok.mp rfl) (by decide +kernel)
    | error e => cases e; rfl
  exact ⟨herrors, s', hresult ▸ hrun, htext, hs'.1 ▸ hlongest (.object herrors)⟩

end TwoPass
