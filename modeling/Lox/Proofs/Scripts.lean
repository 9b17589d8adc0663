import Lox.Proofs.Returns
import Lox.Proofs.Scripts.Checks
import Lox.Proofs.Scripts.Execution

/-!
# How scripts are answered

What a script leaves behind is decided by its bytes. If they are no text the exit code is 1. If there is
something to report about the text before it runs, this is all there is, and the exit code is 65.
Otherwise its statements are executed: what they print goes to standard output, and if one of them fails
its failure goes to standard error and the exit code is 70.

The codes are thus a partition of all scripts that come to an end, and of the others only those whose
statements do not come to an end are left.
-/

namespace Lox

/-! ## Texts and their bytes -/

namespace Text

theorem decode_toUTF8 (source : String) : decode source.toUTF8 = .ok source := by
  have hdecoded : String.fromUTF8? source.toUTF8 = some source := by
    rw [String.toUTF8_eq_toByteArray]
    unfold String.fromUTF8?
    exact dif_pos source.isValidUTF8
  unfold decode
  rw [hdecoded]

/-- What is decoded to a text is the text's own bytes. -/
theorem toUTF8_of_decode {contents : ByteArray} {source : String} (h : decode contents = .ok source) :
    source.toUTF8 = contents := by
  unfold decode String.fromUTF8? at h
  by_cases hvalid : contents.IsValidUTF8
  · rw [dif_pos hvalid] at h
    cases h
    rfl
  · rw [dif_neg hvalid] at h
    exact nomatch h

end Text

namespace CommandLine

open Source (staticFaults Accepted)

variable {source path : String} {contents : ByteArray} {clock : Clock} {limit : Nat} {P : List Stmt}
  {printed : List String} {failure : Option Failure} {st : State} {outcome : Outcome}

theorem scriptText_toUTF8 : scriptText path (.bytes source.toUTF8) = .ok source := by
  simp only [scriptText, Text.decode_toUTF8]

/-- Bytes that are no text are reported, and that is all. -/
theorem script_of_no_text (h : ¬ ∃ source : String, source.toUTF8 = contents) :
    ∃ malformed : Text.Malformed, ∀ limit, script limit clock .run path (.bytes contents)
      = some ⟨⟨"", trouble ("File " ++ Text.quotedPath path ++ " is not valid UTF-8")
        malformed.message⟩, 1⟩ := by
  cases hdecode : Text.decode contents with
  | ok source => exact absurd ⟨source, Text.toUTF8_of_decode hdecode⟩ h
  | error malformed =>
      refine ⟨malformed, fun limit => ?_⟩
      simp only [script, scriptText, hdecode]

/-! ## What a text comes to -/

/-- The state in which a script starts that is read as `P`: nothing has been printed, and of the
references in `P` the addresses are known. -/
def startState (clock : Clock) (P : List Stmt) : State :=
  (State.initial .unlimited clock).noteAddresses (Scoping.ofProgram P).addresses

theorem startState_takesAll : (startState clock P).output.TakesAll := Sink.takesAll_unlimited

/-- What is left when all this has been printed and the program has completed. -/
def Outcome.ofCompletion (out : String) : Completion → Outcome
  | .raised f => ⟨⟨out, lines [f.text]⟩, 70⟩
  | _ => ⟨⟨out, ""⟩, 0⟩

theorem Outcome.ofCompletion_transcript (out : String) (failure : Option Failure) :
    (ofCompletion out (.ofFailure failure)).transcript
      = ⟨out, lines (failure.toList.map Failure.text)⟩ := by
  cases failure <;> rfl

/-- How a script that has ended has gone: it has been rejected with all that there was to report, or a
statement has failed, or all have completed. What is seen of it is what its statements have printed, and
their failure. -/
structure Outcome.Tells (o : Outcome) (clock : Clock) (source : String) : Prop where
  exitCode : o.exitCode = 65 ∨ o.exitCode = 70 ∨ o.exitCode = 0
  rejected : o.exitCode = 65 ↔ staticFaults source ≠ []
  failed : o.exitCode = 70 ↔ ∃ P printed cause line st, Accepted source P ∧
    Execution (startState clock P) P printed (some (.fault cause line)) st
  completed : o.exitCode = 0 ↔ ∃ P printed st, Accepted source P ∧
    Execution (startState clock P) P printed none st
  reported : staticFaults source ≠ [] → o.transcript = ⟨"", diagnosticLines (staticFaults source)⟩
  executed : ∀ P printed failure st, Accepted source P →
    Execution (startState clock P) P printed failure st →
      o.transcript = ⟨lines printed, lines (failure.toList.map Failure.text)⟩

/-- A text with faults is not executed at all. -/
theorem script_of_rejected (h : staticFaults source ≠ []) (limit : Nat) :
    script limit clock .run path (.bytes source.toUTF8)
      = some ⟨⟨"", diagnosticLines (staticFaults source)⟩, 65⟩ := by
  rcases (Session.fresh .unlimited clock).load_classified source with
    ⟨s₁, hload, -, houtput⟩ | ⟨s₁, m, -, hnone⟩
  · have htext : s₁.state.output.text = "" := congrArg Sink.text houtput
    simp only [script, scriptText_toUTF8, respond, runProgram, Session.run_of_error hload]
    rw [← htext]
    rfl
  · exact absurd hnone h

/-- Any other text becomes a machine. -/
theorem load_of_accepted (h : Accepted source P) : (Session.fresh .unlimited clock).load source
    = ((Session.fresh .unlimited clock).noted source P,
      .ok (Machine.ofProgram P (startState clock P))) := by
  obtain ⟨hread, hscoping⟩ := Source.accepted_iff.mp h
  exact (Session.Loads.loaded hread hscoping).load

/-- It comes to what the machine comes to. -/
theorem script_of_accepted (h : Accepted source P) (limit : Nat) :
    script limit clock .run path (.bytes source.toUTF8)
      = ((Machine.ofProgram P (startState clock P)).run limit).result?.map
        (.ofCompletion ((Machine.ofProgram P (startState clock P)).run limit).state.output.text) := by
  simp only [script, scriptText_toUTF8, respond, runProgram, Session.run_of_ok (load_of_accepted h)]
  generalize (Machine.ofProgram P (startState clock P)).run limit = m
  cases m.result? with
  | none => rfl
  | some c => cases c <;> rfl

/-- A statement that has failed or the last one that has completed ends the script. -/
theorem exists_script_of_execution (h : Accepted source P)
    (hexecution : Execution (startState clock P) P printed failure st) :
    ∃ limit, script limit clock .run path (.bytes source.toUTF8)
      = some (.ofCompletion (lines printed) (.ofFailure failure)) := by
  obtain ⟨limit, hresult, houtput⟩ := Machine.exists_run_of_execution hexecution startState_takesAll
  obtain ⟨-, htext⟩ := hexecution.taken startState_takesAll
  refine ⟨limit, ?_⟩
  rw [script_of_accepted h, hresult, houtput, htext]
  rfl

theorem startState_neverReturned (h : Accepted source P) :
    (Machine.ofProgram P (startState clock P)).NeverReturned := by
  obtain ⟨programs, hbelongs⟩ :=
    (Session.Reached.fresh .unlimited clock).belongs (load_of_accepted h)
  exact fun j rest frames v hframes => (hbelongs j).flows.not_returned hframes v

/-- A script that has ended has executed its statements, up to the first that has failed. -/
theorem exists_execution_of_script (h : Accepted source P)
    (hscript : script limit clock .run path (.bytes source.toUTF8) = some outcome) :
    ∃ printed failure st, Execution (startState clock P) P printed failure st := by
  rw [script_of_accepted h, Option.map_eq_some_iff] at hscript
  obtain ⟨c, hc, -⟩ := hscript
  exact Machine.exists_execution (startState_neverReturned h) hc

/-- It does not matter how many steps are allowed, if they are enough. -/
theorem script_unique {limit' : Nat} {outcome' : Outcome} (h : Accepted source P)
    (hscript : script limit clock .run path (.bytes source.toUTF8) = some outcome)
    (hscript' : script limit' clock .run path (.bytes source.toUTF8) = some outcome') :
    outcome = outcome' := by
  rw [script_of_accepted h, Option.map_eq_some_iff] at hscript hscript'
  obtain ⟨c, hc, rfl⟩ := hscript
  obtain ⟨c', hc', rfl⟩ := hscript'
  rcases Nat.le_total limit limit' with hle | hle
  · rw [Machine.run_of_halted hc hle] at hc' ⊢
    cases hc.symm.trans hc'
    rfl
  · rw [Machine.run_of_halted hc' hle] at hc ⊢
    cases hc.symm.trans hc'
    rfl

/-- What is seen of a script that has ended is what its execution comes to. -/
theorem eq_of_execution (h : Accepted source P)
    (hscript : script limit clock .run path (.bytes source.toUTF8) = some outcome)
    (hexecution : Execution (startState clock P) P printed failure st) :
    outcome = .ofCompletion (lines printed) (.ofFailure failure) := by
  obtain ⟨limit', hscript'⟩ : ∃ limit', script limit' clock .run path _ = _ :=
    exists_script_of_execution h hexecution
  exact script_unique h hscript hscript'

theorem tells_of_rejected (h : staticFaults source ≠ []) :
    Outcome.Tells ⟨⟨"", diagnosticLines (staticFaults source)⟩, 65⟩ clock source where
  exitCode := .inl rfl
  rejected := ⟨fun _ => h, fun _ => rfl⟩
  failed := by
    refine ⟨nofun, ?_⟩
    rintro ⟨P, -, -, -, -, hP, -⟩
    exact absurd (Source.staticFaults_eq_nil_iff.mpr ⟨P, hP⟩) h
  completed := by
    refine ⟨nofun, ?_⟩
    rintro ⟨P, -, -, hP, -⟩
    exact absurd (Source.staticFaults_eq_nil_iff.mpr ⟨P, hP⟩) h
  reported := fun _ => rfl
  executed := fun P _ _ _ hP _ => absurd (Source.staticFaults_eq_nil_iff.mpr ⟨P, hP⟩) h

theorem tells_of_accepted (h : Accepted source P)
    (hscript : script limit clock .run path (.bytes source.toUTF8) = some outcome) :
    outcome.Tells clock source := by
  have hnone : staticFaults source = [] := Source.staticFaults_eq_nil_iff.mpr ⟨P, h⟩
  -- any execution comes to the outcome, so it is enough to have one
  have hends : ∀ P printed failure st, Accepted source P →
      Execution (startState clock P) P printed failure st →
        outcome = .ofCompletion (lines printed) (.ofFailure failure) :=
    fun P _ _ _ hP hexecution => eq_of_execution hP hscript hexecution
  obtain ⟨printed, failure, st, hexecution⟩ := exists_execution_of_script h hscript
  have hthis := hends P printed failure st h hexecution
  refine ⟨?exitCode, ?rejected, ?failed, ?completed, fun hne => absurd hnone hne, ?executed⟩
  case exitCode =>
    rw [hthis]
    cases failure
    · exact .inr (.inr rfl)
    · exact .inr (.inl rfl)
  case rejected =>
    refine ⟨fun hcode => ?_, fun hne => absurd hnone hne⟩
    rw [hthis] at hcode
    cases failure <;> cases hcode
  case failed =>
    constructor
    · intro hcode
      rw [hthis] at hcode
      cases failure with
      | none => cases hcode
      | some f =>
          obtain ⟨cause, line, rfl⟩ := hexecution.fault startState_takesAll
          exact ⟨P, printed, cause, line, st, h, hexecution⟩
    · rintro ⟨P', printed', cause, line, st', hP', hfails⟩
      rw [hends P' printed' _ st' hP' hfails]
      rfl
  case completed =>
    constructor
    · intro hcode
      rw [hthis] at hcode
      cases failure with
      | none => exact ⟨P, printed, st, h, hexecution⟩
      | some f => cases hcode
    · rintro ⟨P', printed', st', hP', hdone⟩
      rw [hends P' printed' none st' hP' hdone]
      rfl
  case executed =>
    intro P' printed' failure' st' hP' hexecution'
    rw [hends P' printed' failure' st' hP' hexecution', Outcome.ofCompletion_transcript]

/-- Where the session ends a script with an error, it is this error that is reported and that the exit
code is about. -/
theorem script_of_error {s' : Session} {e : RunError}
    (h : (Session.fresh .unlimited clock).run limit source = some (s', .error e)) :
    script limit clock .run path (.bytes source.toUTF8)
      = some ⟨⟨s'.state.output.text, errorLines e⟩, e.exitCode⟩ := by
  rcases (Session.fresh .unlimited clock).load_classified source with
    ⟨s₁, hload, hne, houtput⟩ | ⟨s₁, m, -, hnone⟩
  · rw [Session.run_of_error hload] at h
    cases h
    rw [script_of_rejected hne, houtput]
    rfl
  · obtain ⟨P, hP⟩ := Source.staticFaults_eq_nil_iff.mp hnone
    rw [Session.run_of_ok (load_of_accepted hP), Option.map_eq_some_iff] at h
    obtain ⟨c, hc, hconclude⟩ := h
    cases c with
    | raised f =>
        cases hconclude
        rw [script_of_accepted hP]
        exact congrArg (Option.map _) hc
    | normal v => exact nomatch congrArg Prod.snd hconclude
    | returned v => exact nomatch congrArg Prod.snd hconclude

/-! ## Scripts -/

/-- **Every script is answered by what it comes to.** Bytes that are no text are reported with the exit
code 1. A text with static faults is answered by these alone and by 65. If there are none, a script whose
statements come to an end does so as well, and one that has come to an end has executed its statements:
what they have printed is on standard output, the failure of the last one on standard error, and the exit
code is 70 or, without a failure, 0. An error that the session reports has its own exit code. In any
session, what is reported before a run are the static faults of the text, each of the stage that has
found it, and what is reported afterwards is none of them. -/
theorem script_classified (clock : Clock) (path : String) (contents : ByteArray) :
    ((¬ ∃ source : String, source.toUTF8 = contents) →
      ∃ malformed : Text.Malformed, ∀ limit, script limit clock .run path (.bytes contents)
        = some ⟨⟨"", trouble ("File " ++ Text.quotedPath path ++ " is not valid UTF-8")
          malformed.message⟩, 1⟩) ∧
    ∀ source : String, source.toUTF8 = contents →
      (staticFaults source ≠ [] → ∀ limit, script limit clock .run path (.bytes contents)
        = some ⟨⟨"", diagnosticLines (staticFaults source)⟩, 65⟩) ∧
      (∀ P printed failure st, Accepted source P →
        Execution (startState clock P) P printed failure st →
          ∃ limit outcome, script limit clock .run path (.bytes contents) = some outcome) ∧
      (∀ limit outcome, script limit clock .run path (.bytes contents) = some outcome →
        outcome.Tells clock source) ∧
      (∀ limit s' e, (Session.fresh .unlimited clock).run limit source = some (s', .error e) →
        script limit clock .run path (.bytes contents)
          = some ⟨⟨s'.state.output.text, errorLines e⟩, e.exitCode⟩) ∧
      Source.Staged source ∧
      ∀ (s s' : Session) (limit : Nat) (e : RunError), s.run limit source = some (s', .error e) →
        (∀ ds, e = .static ds → ds = staticFaults source ∧ ds ≠ []) ∧
        ∀ f, e = .runtime f → staticFaults source = [] ∧ ∀ d : Diagnostic, f.text ≠ d.text := by
  refine ⟨script_of_no_text, ?_⟩
  rintro source rfl
  refine ⟨script_of_rejected, ?_, ?_, fun limit s' e => script_of_error, Source.staged source, ?_⟩
  · intro P printed failure st hP hexecution
    obtain ⟨limit, hscript⟩ := exists_script_of_execution hP hexecution
    exact ⟨limit, _, hscript⟩
  · intro limit outcome hscript
    by_cases hnone : staticFaults source = []
    · obtain ⟨P, hP⟩ := Source.staticFaults_eq_nil_iff.mp hnone
      exact tells_of_accepted hP hscript
    · rw [script_of_rejected hnone] at hscript
      cases hscript
      exact tells_of_rejected hnone
  · intro s s' limit e hrun
    obtain ⟨hstatic, hruntime⟩ := Session.run_error_classified hrun
    exact ⟨hstatic, fun f hf => ⟨hruntime f hf, f.text_ne_diagnostic⟩⟩

/-- One script of each kind. -/
theorem script_classified_one_of_each :
    (∃ malformed : Text.Malformed, ∀ limit, script limit ⟨0⟩ .run "it" (.bytes ⟨#[0xff]⟩)
      = some ⟨⟨"", trouble ("File " ++ Text.quotedPath "it" ++ " is not valid UTF-8")
        malformed.message⟩, 1⟩) ∧
    (∀ limit, script limit ⟨0⟩ .run "it" (.bytes "print true; \x7b var a = a; \x7d".toUTF8)
      = some ⟨⟨"", "[line 1] Error at 'a': Can't read local variable in its own initializer.\n"⟩, 65⟩) ∧
    (∃ P printed cause line st, Accepted "fun f() \x7b print true; nil(); \x7d print f();" P ∧
      Execution (startState ⟨0⟩ P) P printed (some (.fault cause line)) st ∧ lines printed = "true\n" ∧
      lines [(Failure.fault cause line).text]
        = "Can only call functions and classes.\n[line 1]\n") ∧
    (∀ d : Diagnostic, d.text ≠ "Can only call functions and classes.\n[line 1]") ∧
    ∃ P printed st, Accepted "print nil;" P ∧ Execution (startState ⟨0⟩ P) P printed none st ∧
      lines printed = "nil\n" := by
  have hseen : ((Session.fresh .unlimited ⟨0⟩).run 40
      "fun f() \x7b print true; nil(); \x7d print f();").map
        (fun r => (r.1.state.output.text, r.2))
      = some ("true\n", .error (.runtime (.fault .notCallable 1))) := by
    cbv
  obtain ⟨⟨s', result⟩, hrun, hseen⟩ := Option.map_eq_some_iff.mp hseen
  obtain ⟨htext, rfl⟩ := Prod.mk.inj hseen
  obtain ⟨-, -, htells, herror, -, hsession⟩ := (script_classified ⟨0⟩ "it" _).2
    "fun f() \x7b print true; nil(); \x7d print f();" rfl
  refine ⟨?_, ?_, ?_, ?_, ?_⟩
  · have hno : ¬ ∃ source : String, source.toUTF8 = ⟨#[0xff]⟩ := by
      rintro ⟨source, hsource⟩
      have hvalid := source.isValidUTF8
      rw [← String.toUTF8_eq_toByteArray, hsource] at hvalid
      exact absurd hvalid (by decide)
    exact (script_classified ⟨0⟩ "it" ⟨#[0xff]⟩).1 hno
  · have hfaults : staticFaults "print true; \x7b var a = a; \x7d"
        = [⟨1, .atLexeme "a", .scoping .readInOwnInitializer⟩] := by
      cbv
    have hne : staticFaults "print true; \x7b var a = a; \x7d" ≠ [] := by
      rw [hfaults]
      exact List.cons_ne_nil _ _
    obtain ⟨hrejected, -⟩ := (script_classified ⟨0⟩ "it" _).2 "print true; \x7b var a = a; \x7d" rfl
    intro limit
    rw [hrejected hne limit, hfaults]
    cbv
  · have hscript := herror 40 s' _ hrun
    have htells := htells 40 _ hscript
    obtain ⟨P, printed, cause, line, st, hP, hexecution⟩ := htells.failed.mp rfl
    obtain ⟨hout, herr⟩ := Transcript.mk.inj (htells.executed P printed _ st hP hexecution)
    exact ⟨P, printed, cause, line, st, hP, hexecution, hout.symm.trans htext, herr.symm⟩
  · obtain ⟨-, hruntime⟩ := hsession _ s' 40 _ hrun
    obtain ⟨-, hother⟩ := hruntime _ rfl
    exact fun d => (hother d).symm
  · have hscript : script 40 ⟨0⟩ .run "it" (.bytes "print nil;".toUTF8)
        = some ⟨⟨"nil\n", ""⟩, 0⟩ := by
      rw [script, scriptText_toUTF8]
      cbv
    obtain ⟨-, -, htells, -⟩ := (script_classified ⟨0⟩ "it" _).2 "print nil;" rfl
    have htells := htells 40 _ hscript
    obtain ⟨P, printed, st, hP, hexecution⟩ := htells.completed.mp rfl
    obtain ⟨hout, -⟩ := Transcript.mk.inj (htells.executed P printed none st hP hexecution)
    exact ⟨P, printed, st, hP, hexecution, hout.symm⟩

end CommandLine

end Lox
