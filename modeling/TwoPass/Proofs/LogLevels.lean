import Mathlib
import TwoPass.Report.Basic

/-!
Reports at different levels. What a call has to say depends on the counts so far, and the level picks
from it what is printed, so a level hides messages but changes no count and no text.
-/
namespace TwoPass

namespace LogLevel

variable {l l' needed : LogLevel}

theorem covers_of_le (h : l.rank ≤ l'.rank) (hc : l.covers needed = true) : l'.covers needed = true := by
  rw [covers, decide_eq_true_iff] at hc ⊢
  exact Nat.le_trans hc h

theorem covers_silent : covers .silent needed = true ↔ needed = .silent := by
  cases needed <;> decide

end LogLevel

namespace Report

/-! ## Messages -/

/-- A text and the level it is meant for. -/
structure Message where
  needed : LogLevel
  text : Text

/-- What a level shows of some messages. -/
def shown (level : LogLevel) (ms : List Message) : List Text :=
  (ms.filter fun m => level.covers m.needed).map (·.text)

theorem shown_append (level : LogLevel) (ms ns : List Message) :
    shown level (ms ++ ns) = shown level ms ++ shown level ns := by
  simp [shown]

theorem sublist_shown {l l' : LogLevel} (h : l.rank ≤ l'.rank) (ms : List Message) :
    (shown l ms).Sublist (shown l' ms) :=
  (List.monotone_filter_right ms fun _ hc => LogLevel.covers_of_le h hc).map _

theorem shown_silent {ms : List Message} (h : ∀ m ∈ ms, m.needed ≠ .silent) : shown .silent ms = [] := by
  rw [shown, List.map_eq_nil_iff, List.filter_eq_nil_iff]
  exact fun m hm hc => h m hm (LogLevel.covers_silent.mp hc)

/-- Adds messages to a report. -/
def say (r : Report) (ms : List Message) : Report :=
  { r with printed := r.printed ++ shown r.level ms }

theorem say_append (r : Report) (ms ns : List Message) : r.say (ms ++ ns) = (r.say ms).say ns := by
  rw [say, say, shown_append]
  simp [say, ← Array.toList_inj]

theorem print_eq (r : Report) (needed : LogLevel) (t : Text) : r.print needed t = r.say [⟨needed, t⟩] := by
  unfold print say shown
  split <;> rename_i h <;> simp [h]

theorem printAll_eq (r : Report) (needed : LogLevel) (ts : List Text) :
    r.printAll needed ts = r.say (ts.map (⟨needed, ·⟩)) := by
  unfold printAll
  induction ts generalizing r with
  | nil => simp [say, shown]
  | cons t ts ih => rw [List.foldl_cons, ih, print_eq, ← say_append, List.singleton_append, List.map_cons]

/-! ## Calls -/

inductive Call where
  | file (path : Text) (raw expanded : List Line) (errors warnings : List Diagnostic)
  | error (tag text : Text)
  | info (tag text : Text)
  | program (path : Text) (p : Program)
  | symbols (render : List Text → List (List Text) → Text) (path : Text) (symbols : List Symbol)
  | finished

namespace Call

def perform (r : Report) : Call → Report
  | .file path raw expanded errors warnings => r.addFile path raw expanded errors warnings
  | .error tag text => r.addError tag text
  | .info tag text => r.addInfo tag text
  | .program path p => r.addProgram path p
  | .symbols render path ss => r.addSymbols render path ss
  | .finished => r.close

/-- The errors that a call brings. -/
def errors : Call → Nat
  | .file _ _ _ errors _ => errors.length
  | .error _ _ => 1
  | _ => 0

def warnings : Call → Nat
  | .file _ _ _ _ warnings => warnings.length
  | _ => 0

/-- All that a call has to say, after so many errors and warnings. -/
def messages (width : Int) (errors warnings : Nat) : Call → List Message
  | .file path raw expanded es ws =>
    es.map (fun d => ⟨.error, display width path (Listing.ofLines raw expanded) (errorTitle d) d⟩) ++
      ws.map fun d => ⟨.warning, display width path (Listing.ofLines raw expanded) warningTitle d⟩
  | .error tag text => [⟨.error, tagged tag text⟩]
  | .info tag text => [⟨.verbose, tagged tag text⟩]
  | .program path p => [⟨.verbose, tagged (Text.of "Assembled") (programSize path p)⟩]
  | .symbols render path ss => [⟨.verbose, symbolTable render path ss⟩]
  | .finished => [⟨.error, summary errors warnings⟩]

/-- A call counts whatever the level is, and says what the level shows of its messages. -/
theorem perform_eq (r : Report) (c : Call) :
    c.perform r =
      { r.say (c.messages r.width r.errors r.warnings) with
        errors := r.errors + c.errors
        warnings := r.warnings + c.warnings } := by
  cases c with
  | file path raw expanded errors warnings =>
      simp only [perform, addFile, printAll_eq, List.map_map, messages, say_append]
      rfl
  | error tag text =>
      simp only [perform, addError, print_eq]
      rfl
  | _ =>
      simp only [perform, addInfo, addProgram, addSymbols, close, print_eq]
      rfl

theorem needed_ne_silent {c : Call} {width : Int} {errors warnings : Nat} {m : Message}
    (h : m ∈ c.messages width errors warnings) : m.needed ≠ .silent := by
  cases c <;> simp only [messages, List.mem_append, List.mem_map, List.mem_singleton] at h
  case file =>
    rcases h with ⟨d, -, rfl⟩ | ⟨d, -, rfl⟩ <;> simp
  all_goals
    subst h
    simp

theorem counts_perform (r : Report) (c : Call) :
    (c.perform r).errors = r.errors + c.errors ∧ (c.perform r).warnings = r.warnings + c.warnings := by
  rw [perform_eq]
  exact ⟨rfl, rfl⟩

end Call

section
variable (r : Report)

theorem counts_addFile (path : Text) (raw expanded : List Line) (errors warnings : List Diagnostic) :
    (r.addFile path raw expanded errors warnings).errors = r.errors + errors.length ∧
      (r.addFile path raw expanded errors warnings).warnings = r.warnings + warnings.length :=
  Call.counts_perform r (.file path raw expanded errors warnings)

theorem counts_addError (tag text : Text) :
    (r.addError tag text).errors = r.errors + 1 ∧ (r.addError tag text).warnings = r.warnings :=
  Call.counts_perform r (.error tag text)

theorem counts_addProgram (path : Text) (p : Program) :
    (r.addProgram path p).errors = r.errors ∧ (r.addProgram path p).warnings = r.warnings :=
  Call.counts_perform r (.program path p)

theorem counts_addSymbols (render : List Text → List (List Text) → Text) (path : Text) (symbols : List Symbol) :
    (r.addSymbols render path symbols).errors = r.errors ∧
      (r.addSymbols render path symbols).warnings = r.warnings :=
  Call.counts_perform r (.symbols render path symbols)

end

/-! ## Runs -/

/-- The report of a sequence of calls, each with the level that is in force then. -/
def ofCalls (width : Int) (calls : List (LogLevel × Call)) : Report :=
  calls.foldl (fun r c => c.2.perform { r with level := c.1 }) { level := .silent, width }

theorem ofCalls_append_singleton (width : Int) (calls : List (LogLevel × Call)) (level : LogLevel) (c : Call) :
    ofCalls width (calls ++ [(level, c)]) = c.perform { ofCalls width calls with level } := by
  rw [ofCalls, List.foldl_append]
  rfl

theorem counts_ofCalls (width : Int) (calls : List (LogLevel × Call)) :
    (ofCalls width calls).errors = (calls.map fun c => c.2.errors).sum ∧
      (ofCalls width calls).warnings = (calls.map fun c => c.2.warnings).sum := by
  induction calls using List.reverseRecOn with
  | nil => exact ⟨rfl, rfl⟩
  | append_singleton calls c ih =>
      obtain ⟨herrors, hwarnings⟩ := Call.counts_perform { ofCalls width calls with level := c.1 } c.2
      rw [ofCalls_append_singleton, herrors, hwarnings]
      simp [ih]

/-- Two reports of the same calls, where the second was printed at levels that show more. -/
structure Hides (r r' : Report) : Prop where
  width : r.width = r'.width
  errors : r.errors = r'.errors
  warnings : r.warnings = r'.warnings
  printed : r.printed.toList.Sublist r'.printed.toList

theorem Hides.perform {r r' : Report} (h : Hides r r') {l l' : LogLevel} (hl : l.rank ≤ l'.rank) (c : Call) :
    Hides (c.perform { r with level := l }) (c.perform { r' with level := l' }) := by
  rw [Call.perform_eq, Call.perform_eq]
  refine ⟨h.width, ?_, ?_, ?_⟩
  · simp only [h.errors]
  · simp only [h.warnings]
  · simp only [say, h.width, h.errors, h.warnings, Array.toList_appendList]
    exact h.printed.append (sublist_shown hl _)

theorem hides_ofCalls (width : Int) {l l' : LogLevel} (hl : l.rank ≤ l'.rank) (calls : List Call) :
    Hides (ofCalls width (calls.map (l, ·))) (ofCalls width (calls.map (l', ·))) := by
  induction calls using List.reverseRecOn with
  | nil => exact ⟨rfl, rfl, rfl, .refl _⟩
  | append_singleton calls c ih =>
      simp only [List.map_append, List.map_cons, List.map_nil, ofCalls_append_singleton]
      exact ih.perform hl c

/-- The counts of a run, and whether it succeeded, do not depend on the levels. A call at the silent level
prints nothing, and a level prints a part of what the levels above it print. -/
theorem verdict_ignores_level (width : Int) (calls : List (LogLevel × Call)) :
    (ofCalls width calls).errors = (calls.map fun c => c.2.errors).sum ∧
      (ofCalls width calls).warnings = (calls.map fun c => c.2.warnings).sum ∧
      ((ofCalls width calls).succeeded = true ↔ (calls.map fun c => c.2.errors).sum = 0) ∧
      (∀ c, (ofCalls width (calls ++ [(.silent, c)])).printed = (ofCalls width calls).printed) ∧
      ∀ l l' : LogLevel, l.rank ≤ l'.rank → ∀ cs : List Call,
        (ofCalls width (cs.map (l, ·))).printed.toList.Sublist
          (ofCalls width (cs.map (l', ·))).printed.toList := by
  obtain ⟨herrors, hwarnings⟩ := counts_ofCalls width calls
  refine ⟨herrors, hwarnings, ?_, fun c => ?_, fun l l' hl cs => (hides_ofCalls width hl cs).printed⟩
  · rw [succeeded, decide_eq_true_iff, herrors]
  · rw [ofCalls_append_singleton, Call.perform_eq]
    simp [say, shown_silent fun _ => Call.needed_ne_silent]

/-- A run with an error, a warning and messages about progress, whose summary counts what it does not show. -/
def noisyCalls : List Call :=
  [.info (Text.of "Reading") (Text.of "a.as"),
    .file (Text.of "a.as") [⟨1, Text.of "L: .entry L"⟩] [] [] [.ignoredLabel ⟨1, 1, 1⟩ (Text.of "L")],
    .error (Text.of "Missing") (Text.of "b.as"), .finished]

theorem noisyCalls_hidden :
    (ofCalls 80 (noisyCalls.map (.error, ·))).printed.toList =
        [Text.of "Missing b.as\n", Text.of "\nOh no! (1 error, 1 warning)\n"] ∧
      (ofCalls 80 (noisyCalls.map (.error, ·))).printed.toList.Sublist
        (ofCalls 80 (noisyCalls.map (.warning, ·))).printed.toList ∧
      (ofCalls 80 (noisyCalls.map (.warning, ·))).printed.size = 3 := by
  obtain ⟨-, -, -, -, hsublist⟩ := verdict_ignores_level 80 []
  exact ⟨by decide +kernel, hsublist .error .warning (by decide) noisyCalls, by decide +kernel⟩

end Report

end TwoPass
