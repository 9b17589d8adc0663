import Lox.Proofs.Lexemes.Blanking
import Lox.Proofs.Occurrences.Walk
import Lox.Proofs.Sessions

/-!
# What is known about a program before it runs

A source is looked at three times before anything of it is executed. The scanner and the parser look at
all of it, and what the one reports goes in front of what the other does. The walk through the scopes
only comes to pass if both have found nothing. All of this depends on the source alone: sessions that
number its references from elsewhere are told the same.

Each stage reports faults of its own, and the text of none of them is ever the text of a failure, for a
diagnostic begins with a bracket and the message of a failure with a letter.
-/

namespace Lox

namespace Source

variable {source : String} {P : List Stmt} {ds : List Diagnostic}

/-! ## The three stages -/

/-- What the parser reports. -/
def syntaxFaults (source : String) : List Diagnostic :=
  match (parseProgram (tokens source) 0).result with
  | .ok _ => []
  | .error ds => ds

/-- What the walk through the scopes reports, if there is a tree to walk through. -/
def scopeFaults (source : String) : List Diagnostic :=
  match (parseProgram (tokens source) 0).result with
  | .ok P => (Scoping.ofProgram P).faults
  | .error _ => []

/-- All that is reported about a source that is not to be executed: what the scanner and then the parser
find, or else what the walk through the scopes finds. -/
def staticFaults (source : String) : List Diagnostic :=
  match faults source ++ syntaxFaults source with
  | [] => scopeFaults source
  | ds => ds

/-- No stage reports anything, and the source is read as `P`. -/
structure Accepted (source : String) (P : List Stmt) : Prop where
  lexical : faults source = []
  read : (parseProgram (tokens source) 0).result = .ok P
  scoping : (Scoping.ofProgram P).faults = []

/-! ## Each fault is of its stage -/

theorem faults_lexical (source : String) : ∀ d ∈ faults source, ∃ fault, d.cause = .lexical fault := by
  intro d hd
  have hcauses := faultsFrom_causes source.toList 1
  rw [← faults_eq] at hcauses
  have hmem : d.cause ∈ (faults source).map Diagnostic.cause := List.mem_map_of_mem hd
  rw [hcauses, List.mem_append] at hmem
  rcases hmem with hstray | hopen
  · obtain ⟨-, -, hcause⟩ := List.mem_map.mp hstray
    exact ⟨_, hcause.symm⟩
  · split at hopen
    · exact nomatch hopen
    · exact ⟨_, List.mem_singleton.mp hopen⟩

theorem syntaxFaults_syntactic (source : String) :
    ∀ d ∈ syntaxFaults source, ∃ fault, d.cause = .syntactic fault := by
  intro d hd
  unfold syntaxFaults at hd
  cases hresult : (parseProgram (tokens source) 0).result with
  | ok P =>
      rw [hresult] at hd
      exact nomatch hd
  | error ds =>
      rw [hresult] at hd
      rw [tokens_eq] at hresult
      exact faults_syntactic (body_kind source) rfl hresult d hd

theorem scopeFaults_scoping (source : String) :
    ∀ d ∈ scopeFaults source, ∃ fault, d.cause = .scoping fault := by
  intro d hd
  unfold scopeFaults at hd
  cases hresult : (parseProgram (tokens source) 0).result with
  | error ds =>
      rw [hresult] at hd
      exact nomatch hd
  | ok P =>
      rw [hresult] at hd
      have hreported : d ∈ (Scoping.ofProgram P).faults := hd
      rw [Scoping.ofProgram_eq] at hreported
      obtain ⟨o, -, ho⟩ := List.mem_filterMap.mp hreported
      obtain ⟨⟨t, cause⟩, -, rfl⟩ := Option.map_eq_some_iff.mp ho
      exact ⟨cause, rfl⟩

/-- Every stage reports faults of its own only. -/
structure Staged (source : String) : Prop where
  lexical : ∀ d ∈ faults source, ∃ fault, d.cause = .lexical fault
  syntactic : ∀ d ∈ syntaxFaults source, ∃ fault, d.cause = .syntactic fault
  scoping : ∀ d ∈ scopeFaults source, ∃ fault, d.cause = .scoping fault

theorem staged (source : String) : Staged source :=
  ⟨faults_lexical source, syntaxFaults_syntactic source, scopeFaults_scoping source⟩

/-! ## Reading -/

/-- Where nothing can be read something is reported. -/
theorem eq_staticFaults_of_error (h : (read source 0).result = .error ds) :
    ds = staticFaults source ∧ ds ≠ [] := by
  unfold read at h
  unfold staticFaults syntaxFaults
  cases hresult : (parseProgram (tokens source) 0).result with
  | ok P =>
      rw [hresult] at h
      cases hfaults : faults source with
      | nil => simp [hfaults] at h
      | cons d rest =>
          simp only [hfaults, List.isEmpty_cons, Bool.false_eq_true, if_false, Except.error.injEq] at h
          subst h
          exact ⟨(List.append_nil _).symm, nofun⟩
  | error ds' =>
      -- the parser has found at least one fault
      have hstop : (stop source).kind = .eof := rfl
      have hfound := parseProgram_derives_or_faults (body_kind source) hstop 0
      rw [← tokens_eq, hresult] at hfound
      rcases hfound with ⟨P, hP, -⟩ | ⟨d, rest, hds⟩
      · exact nomatch hP
      · cases hds
        rw [hresult] at h
        cases hfaults : faults source <;>
          (rw [hfaults] at h; cases h; exact ⟨rfl, nofun⟩)

/-- What can be read has only faults of scoping. -/
theorem staticFaults_of_ok (h : (read source 0).result = .ok P) :
    staticFaults source = (Scoping.ofProgram P).faults := by
  obtain ⟨hfaults, hread⟩ := read_eq_ok h
  unfold staticFaults syntaxFaults scopeFaults
  rw [hfaults, hread]
  rfl

theorem accepted_iff : Accepted source P ↔
    (read source 0).result = .ok P ∧ (Scoping.ofProgram P).faults = [] := by
  constructor
  · rintro ⟨hlexical, hread, hscoping⟩
    refine ⟨?_, hscoping⟩
    unfold read
    rw [hread, hlexical]
    rfl
  · rintro ⟨hread, hscoping⟩
    obtain ⟨hlexical, hparsed⟩ := read_eq_ok hread
    exact ⟨hlexical, congrArg Parser.Outcome.result hparsed, hscoping⟩

/-- Nothing is reported exactly about the sources that are accepted. -/
theorem staticFaults_eq_nil_iff : staticFaults source = [] ↔ ∃ P, Accepted source P := by
  constructor
  · intro h
    cases hread : (read source 0).result with
    | error ds =>
        obtain ⟨hds, hne⟩ := eq_staticFaults_of_error hread
        exact absurd (hds.trans h) hne
    | ok P => exact ⟨P, accepted_iff.mpr ⟨hread, (staticFaults_of_ok hread).symm.trans h⟩⟩
  · rintro ⟨P, hP⟩
    obtain ⟨hread, hscoping⟩ := accepted_iff.mp hP
    exact (staticFaults_of_ok hread).trans hscoping

/-! ### Whatever the first number -/

/-- Numbers of references do not show in what is reported. -/
theorem read_result (source : String) (k : Nat) : (read source k).result =
    match (read source 0).result with
    | .ok P => .ok (P.map (Stmt.renamed (.shift k id)))
    | .error ds => .error ds := by
  have hmoved := congrArg Parser.Outcome.result (read_moved (k := 0) (.refl source) k)
  rw [Nat.zero_add] at hmoved
  rw [hmoved]
  unfold Parser.Outcome.moved
  cases (read source 0).result with
  | ok P => rfl
  | error ds =>
      show Except.error (ds.map id) = _
      rw [List.map_id]

theorem faults_ofProgram_shift (P : List Stmt) (k : Nat) :
    (Scoping.ofProgram (P.map (Stmt.renamed (.shift k id)))).faults = (Scoping.ofProgram P).faults := by
  rw [Scoping.ofProgram_renamed]
  show (Scoping.ofProgram P).faults.map id = _
  rw [List.map_id]

end Source

/-! ## Sessions -/

namespace Session

variable {s : Session} {source : String}

/-- **What a session reports about a source that it does not execute depends on the source alone**, and
it executes exactly the sources about which there is nothing to report. -/
theorem load_classified (s : Session) (source : String) :
    (∃ s₁, s.load source = (s₁, .error (.static (Source.staticFaults source))) ∧
        Source.staticFaults source ≠ [] ∧ s₁.state.output = s.state.output) ∨
      ∃ s₁ m, s.load source = (s₁, .ok m) ∧ Source.staticFaults source = [] := by
  have hresult := Source.read_result source s.nextId
  rcases hload : s.load source with ⟨s₁, result⟩
  have hloads := Loads.of_load hload
  cases hread : (Source.read source 0).result with
  | error ds =>
      obtain ⟨rfl, hne⟩ := Source.eq_staticFaults_of_error hread
      rw [hread] at hresult
      cases hloads with
      | unread hds =>
          rw [hresult] at hds
          cases hds
          exact .inl ⟨_, rfl, hne, rfl⟩
      | unscoped hP _ => exact nomatch hresult.symm.trans hP
      | loaded hP _ => exact nomatch hresult.symm.trans hP
  | ok P =>
      have hfaults := Source.staticFaults_of_ok hread
      rw [hread] at hresult
      rw [← Source.faults_ofProgram_shift P s.nextId] at hfaults
      cases hloads with
      | unread hds => exact nomatch hresult.symm.trans hds
      | unscoped hP hne =>
          rw [hresult] at hP
          cases hP
          rw [hfaults]
          exact .inl ⟨_, rfl, hne, rfl⟩
      | loaded hP hnone =>
          rw [hresult] at hP
          cases hP
          exact .inr ⟨_, _, rfl, hfaults.trans hnone⟩

/-- A run that is rejected is told why, and a run that fails has not been rejected. -/
theorem run_error_classified {limit : Nat} {s' : Session} {e : RunError}
    (h : s.run limit source = some (s', .error e)) :
    (∀ ds, e = .static ds → ds = Source.staticFaults source ∧ ds ≠ []) ∧
      ∀ f, e = .runtime f → Source.staticFaults source = [] := by
  rcases s.load_classified source with ⟨s₁, hload, hne, -⟩ | ⟨s₁, m, hload, hnone⟩
  · rw [run_of_error hload] at h
    cases h
    refine ⟨?_, nofun⟩
    rintro ds ⟨⟩
    exact ⟨rfl, hne⟩
  · refine ⟨?_, fun _ _ => hnone⟩
    rintro ds rfl
    rw [run_eq_static h] at hload
    exact nomatch hload

end Session

/-! ## Diagnostics and failures -/

/-- The message of a fault begins with a letter. -/
theorem RuntimeFault.exists_letter (cause : RuntimeFault) :
    ∃ c ∈ cause.message.toList.head?, c ≠ '[' := by
  cases cause with
  | undefinedVariable name =>
      refine ⟨'U', ?_, by decide⟩
      show ("Undefined variable '" ++ name ++ "'.").toList.head? = some 'U'
      simp
  | undefinedProperty name =>
      refine ⟨'U', ?_, by decide⟩
      show ("Undefined property '" ++ name ++ "'.").toList.head? = some 'U'
      simp
  | wrongArity expected given =>
      refine ⟨'E', ?_, by decide⟩
      show ("Expected " ++ toString expected ++ " arguments but got " ++ toString given
        ++ ".").toList.head? = some 'E'
      simp
  | invalidUnaryOperator | invalidBinaryOperator => exact ⟨'I', rfl, by decide⟩
  | superclassNotClass | stackOverflow => exact ⟨'S', rfl, by decide⟩
  | notCallable => exact ⟨'C', rfl, by decide⟩
  | argumentNotNumber => exact ⟨'A', rfl, by decide⟩
  | operandNotNumber | operandsNotNumbers | operandsNotAddable | noProperties | noFields =>
      exact ⟨'O', rfl, by decide⟩

/-- **No failure reads like a diagnostic.** -/
theorem Failure.text_ne_diagnostic (f : Failure) (d : Diagnostic) : f.text ≠ d.text := by
  have hbracket : d.text.toList.head? = some '[' := by simp [Diagnostic.text]
  have hletter : ∃ c ∈ f.text.toList.head?, c ≠ '[' := by
    cases f with
    | sink cause =>
        cases cause with
        | full => exact ⟨'s', rfl, by decide⟩
        | flushRefused => exact ⟨'f', rfl, by decide⟩
    | fault cause line =>
        obtain ⟨c, hhead, hc⟩ := cause.exists_letter
        obtain ⟨rest, hrest⟩ := List.head?_eq_some_iff.mp hhead
        refine ⟨c, ?_, hc⟩
        show c ∈ (cause.message ++ "\n[line " ++ toString line ++ "]").toList.head?
        simp only [String.toList_append, hrest, List.cons_append, List.head?_cons, Option.mem_some]
  obtain ⟨c, hhead, hc⟩ := hletter
  intro hsame
  rw [hsame, hbracket] at hhead
  exact hc (Option.mem_some.mp hhead).symm

end Lox
