import Lox.Proofs.Sinks

/-!
# What executing a program comes to

A program is executed statement by statement, in the state that the statements before have left behind,
up to the first that fails. Here this is said without the frames that the machine keeps meanwhile, and
the machine is shown to do it: it halts exactly if the statements come to an end, with the failure that
has ended them if there is one.

Everything that is printed on the way ends up in the sink, a line for each print. A sink that takes
everything is never the reason of a failure.
-/

namespace Lox

open CommandLine (lines)

/-! ## What is printed -/

/-- The sink refuses nothing, no line and no flush. -/
structure Sink.TakesAll (s : Sink) : Prop where
  limit : s.limit = none
  flush : s.flush = none

theorem Sink.takesAll_unlimited : unlimited.TakesAll := ⟨rfl, rfl⟩

namespace Machine

variable {m : Machine}

theorem run_taken (h : m.state.output.TakesAll) (k : Nat) : (m.run k).state.output.TakesAll ∧
    (m.run k).state.output.text = m.state.output.text ++ lines (m.printedIn k) := by
  obtain ⟨hlimit, hflush, htext⟩ := run_extends h.limit k
  exact ⟨⟨hlimit, hflush.trans h.flush⟩, htext⟩

/-! ## What the sink refuses -/

/-- What was to be written has been refused. -/
def refusal (fault : SinkFault) : Control := .complete (.raised (.sink fault))

end Machine

theorem Operator.unary_ne_refusal (operator : Token) (v : Value) (fault : SinkFault) :
    Completion.ofResult (unary operator v) ≠ .raised (.sink fault) := by
  unfold unary
  split
  · split <;> rintro ⟨⟩
  · rintro ⟨⟩
  · rintro ⟨⟩

theorem Operator.binary_ne_refusal (h : Heap) (operator : Token) (left right : Value)
    (fault : SinkFault) :
    Completion.ofResult (binary h operator left right) ≠ .raised (.sink fault) := by
  unfold binary
  split
  · rintro ⟨⟩
  · rintro ⟨⟩
  · unfold plus
    split <;> rintro ⟨⟩
  · split
    · unfold numeric
      split <;> rintro ⟨⟩
    · rintro ⟨⟩

namespace Machine

variable {m : Machine} {fault : SinkFault}

theorem Accesses.ne_refusal {r : Completion × State} (h : m.Accesses r) (fault : SinkFault) :
    r.1 ≠ .raised (.sink fault) := by
  cases h <;> rintro ⟨⟩

section

variable {frames : List Frame} {st : State}

theorem call_ne_refusal (callee : Value) (paren : Token) (args : List Value) (fault : SinkFault) :
    (call callee paren args frames st).control ≠ refusal fault := by
  unfold call
  split
  · rintro ⟨⟩
  · split
    · rintro ⟨⟩
    · split
      · rintro ⟨⟩
      · unfold invoke
        split
        · split <;> rintro ⟨⟩
        · rintro ⟨⟩
        · unfold construct
          dsimp only
          split <;> rintro ⟨⟩
        · rintro ⟨⟩

theorem nextArgument_ne_refusal (callee : Value) (paren : Token) (evaluated : List Value)
    (rest : List Expr) (fault : SinkFault) :
    (nextArgument callee paren evaluated rest frames st).control ≠ refusal fault := by
  cases rest with
  | nil => exact call_ne_refusal callee paren evaluated.reverse fault
  | cons e es => rintro ⟨⟩

theorem evaluate_ne_refusal (e : Expr) (fault : SinkFault) :
    (evaluate e frames st).control ≠ refusal fault := by
  cases e with
  | literal value => cases value <;> rintro ⟨⟩
  | ident use => simp only [evaluate]; split <;> rintro ⟨⟩
  | this use => simp only [evaluate]; split <;> rintro ⟨⟩
  | super use method =>
      intro h
      exact (superMethod_accesses use method frames st).ne_refusal fault (Control.complete.inj h)
  | _ => rintro ⟨⟩

theorem execute_ne_refusal (s : Stmt) (fault : SinkFault) :
    (execute s frames st).control ≠ refusal fault := by
  cases s with
  | variableDecl name value => cases value <;> rintro ⟨⟩
  | giveBack keyword value => cases value <;> rintro ⟨⟩
  | classDecl name superclass methods => cases superclass <;> rintro ⟨⟩
  | _ => rintro ⟨⟩

/-- Only a print and the end of a program have to do with the sink. -/
theorem continueWith_refusal {frame : Frame} {v : Value}
    (h : (continueWith frame v frames st).control = refusal fault) (hprint : frame ≠ .print) :
    st.output.flush = some fault := by
  have hno : (continueWith frame v frames st).control ≠ refusal fault →
      st.output.flush = some fault := fun hne => absurd h hne
  cases frame with
  | print => exact absurd rfl hprint
  | unary operator =>
      exact absurd (Control.complete.inj h) (Operator.unary_ne_refusal operator v fault)
  | binaryRight left operator =>
      exact absurd (Control.complete.inj h) (Operator.binary_ne_refusal st.heap operator left v fault)
  | logical operator right => refine hno ?_; simp only [continueWith]; split <;> rintro ⟨⟩
  | assign use =>
      refine hno ?_
      rcases continueWith_assign use v frames st with ⟨x, hassign⟩ | hassign
      · rw [hassign]; rintro ⟨⟩
      · rw [hassign]; rintro ⟨⟩
  | callee paren arguments => exact hno (nextArgument_ne_refusal v paren [] arguments fault)
  | argument callee paren evaluated rest =>
      exact hno (nextArgument_ne_refusal callee paren (v :: evaluated) rest fault)
  | get name =>
      cases v with
      | object o =>
          exact absurd (Control.complete.inj h)
            ((property_accesses o name frames st).ne_refusal fault)
      | _ => cases h
  | setObject name value => cases v <;> cases h
  | branch yes no =>
      refine hno ?_
      simp only [continueWith]
      split
      · rintro ⟨⟩
      · cases no <;> rintro ⟨⟩
  | loopTest condition body => refine hno ?_; simp only [continueWith]; split <;> rintro ⟨⟩
  | superclass name use methods => cases v <;> cases h
  | sequence rest => cases rest <;> cases h
  | program rest =>
      cases rest with
      | nil =>
          simp only [continueWith] at h
          cases hflush : st.output.flush with
          | none =>
              rw [hflush] at h
              cases h
          | some fault' =>
              rw [hflush] at h
              cases h
              rfl
      | cons s rest => cases h
  | _ => cases h

end

/-- **The sink is at fault only where something is written to it**: a line that is printed, or all of it
at the end of a program. -/
theorem step_refusal (h : m.step.control = refusal fault) : m.control = refusal fault ∨
    (∃ line, m.printing? = some line ∧ (m.state.output.writeLine line).2 = some fault) ∨
    m.state.output.flush = some fault := by
  obtain ⟨control, frames, st⟩ := m
  cases control with
  | eval e => exact absurd h (evaluate_ne_refusal e fault)
  | exec s => exact absurd h (execute_ne_refusal s fault)
  | complete c =>
      cases frames with
      | nil => exact .inl h
      | cons frame frames =>
          cases c with
          | normal v =>
              by_cases hprint : frame = .print
              · subst hprint
                refine .inr (.inl ⟨v.text st.heap, rfl, ?_⟩)
                rw [step_print rfl] at h
                show (st.output.writeLine (v.text st.heap)).2 = some fault
                generalize st.output.writeLine (v.text st.heap) = written at h
                obtain ⟨output, refused⟩ := written
                cases refused <;> cases h
                rfl
              · exact .inr (.inr (continueWith_refusal h hprint))
          | returned v =>
              cases frame with
              | program rest =>
                  have hgoes : (continueWith (.program rest) v frames st).control = refusal fault := h
                  refine .inr (.inr (continueWith_refusal hgoes ?_))
                  rintro ⟨⟩
              | _ => cases h
          | raised f => cases frame <;> exact .inl h

/-- So a sink that takes everything is never at fault. -/
theorem run_ne_refusal (houtput : m.state.output.TakesAll) (h : m.control ≠ refusal fault) (k : Nat) :
    (m.run k).control ≠ refusal fault := by
  induction k with
  | zero => exact h
  | succ k ih =>
      obtain ⟨htakes, -⟩ := run_taken houtput k
      rw [run_succ_last]
      intro hrefused
      rcases step_refusal hrefused with hbefore | ⟨line, -, hwritten⟩ | hflush
      · exact ih hbefore
      · rw [Sink.writeLine_of_none htakes.limit] at hwritten
        cases hwritten
      · rw [htakes.flush] at hflush
        cases hflush

end Machine

/-! ## Statement by statement -/

/-- Executed by itself, the statement prints these lines and completes in this state. -/
def Stmt.Completes (s : Stmt) (st : State) (printed : List String) (c : Completion) (st' : State) :
    Prop :=
  ∃ k, ((Machine.ofStmt s st).run k).result? = some c ∧
    ((Machine.ofStmt s st).run k).state = st' ∧ (Machine.ofStmt s st).printedIn k = printed

/-- Statements are executed one after the other, up to the first that fails: the lines that are printed
meanwhile, the failure if there is one, and the state at the end. -/
inductive Execution : State → List Stmt → List String → Option Failure → State → Prop where
  | done (st : State) : Execution st [] [] none st
  | next {st st' st'' : State} {s : Stmt} {rest : List Stmt} {printed later : List String} {v : Value}
      {failure : Option Failure} :
      s.Completes st printed (.normal v) st' → Execution st' rest later failure st'' →
      Execution st (s :: rest) (printed ++ later) failure st''
  | fails {st st' : State} {s : Stmt} {rest : List Stmt} {printed : List String} {f : Failure} :
      s.Completes st printed (.raised f) st' → Execution st (s :: rest) printed (some f) st'

/-- How a program completes whose execution has ended with a failure or without one. -/
def Completion.ofFailure : Option Failure → Completion
  | none => .done
  | some f => .raised f

section

variable {s : Stmt} {st st' : State} {printed : List String} {c : Completion} {f : Failure}

theorem Stmt.Completes.taken (h : s.Completes st printed c st') (hsink : st.output.TakesAll) :
    st'.output.TakesAll ∧ st'.output.text = st.output.text ++ lines printed := by
  obtain ⟨k, -, rfl, rfl⟩ := h
  have hbegun : (Machine.ofStmt s st).state.output.TakesAll := hsink
  exact Machine.run_taken hbegun k

theorem Stmt.Completes.fault (h : s.Completes st printed (.raised f) st')
    (hsink : st.output.TakesAll) : ∃ cause line, f = .fault cause line := by
  obtain ⟨k, hresult, -, -⟩ := h
  obtain ⟨hcontrol, -⟩ := Machine.result?_eq_some_iff.mp hresult
  have hbegun : (Machine.ofStmt s st).state.output.TakesAll := hsink
  cases f with
  | fault cause line => exact ⟨cause, line, rfl⟩
  | sink cause =>
      have hexec : (Machine.ofStmt s st).control ≠ Machine.refusal cause := by rintro ⟨⟩
      exact absurd hcontrol (Machine.run_ne_refusal hbegun hexec k)

end

namespace Execution

variable {st st' : State} {P : List Stmt} {printed : List String} {failure : Option Failure}

/-- All that is printed is in the sink. -/
theorem taken (h : Execution st P printed failure st') (hsink : st.output.TakesAll) :
    st'.output.TakesAll ∧ st'.output.text = st.output.text ++ lines printed := by
  induction h with
  | done st => exact ⟨hsink, String.append_empty.symm⟩
  | next hfirst _ ih =>
      obtain ⟨htakes, htext⟩ := hfirst.taken hsink
      obtain ⟨hlast, hmore⟩ := ih htakes
      refine ⟨hlast, ?_⟩
      rw [hmore, htext, CommandLine.lines_append, String.append_assoc]
  | fails hfirst => exact hfirst.taken hsink

/-- The program is at fault if it fails, and not the sink. -/
theorem fault {f : Failure} (h : Execution st P printed (some f) st') (hsink : st.output.TakesAll) :
    ∃ cause line, f = .fault cause line := by
  generalize hfailure : some f = failure at h
  induction h with
  | done st => cases hfailure
  | next hfirst _ ih => exact ih (hfirst.taken hsink).1 hfailure
  | fails hfirst =>
      cases hfailure
      exact hfirst.fault hsink

end Execution

/-! ## The machine does it -/

namespace Machine

variable {s : Stmt} {st : State} {rest P : List Stmt} {c : Completion} {k limit : Nat}

/-- A program goes on alike, whatever the last statement has completed with. -/
theorem run_program_succ (hc : c.NotRaised) (P : List Stmt) (st : State) (k : Nat) :
    run (k + 1) ⟨.complete c, [.program P], st⟩ = (ofProgram P st).run (k + 1) := by
  rw [run_succ, run_succ, step_program hc]
  rfl

theorem above_of_result? {m : Machine} (h : m.result? = some c) (below : List Frame) :
    m.above below = ⟨.complete c, below, m.state⟩ := by
  obtain ⟨hcontrol, hframes⟩ := result?_eq_some_iff.mp h
  obtain ⟨control, frames, st⟩ := m
  cases hcontrol
  cases hframes
  rfl

/-- The first step of a program starts on its first statement. -/
theorem step_ofProgram (s : Stmt) (rest : List Stmt) (st : State) :
    (ofProgram (s :: rest) st).step = (ofStmt s st).above [.program rest] := rfl

/-- A statement that completes by itself completes in the program. -/
theorem exists_run_first (rest : List Stmt) (h : ((ofStmt s st).run k).result? = some c) :
    ∃ k', (ofProgram (s :: rest) st).run k'
      = ⟨.complete c, [.program rest], ((ofStmt s st).run k).state⟩ := by
  have hpart : (((ofStmt s st).above [.program rest]).alone.run k).result? = some c := h
  obtain ⟨k', -, hrun⟩ := exists_ends_part hpart
  refine ⟨k' + 1, ?_⟩
  rw [run_succ, step_ofProgram, hrun, above_of_result? hpart]
  rfl

/-- In a program that halts, the first statement has completed before. -/
theorem exists_first_ends (h : ((ofProgram (s :: rest) st).run limit).result? = some c) :
    ∃ j c', j < limit ∧ ((ofStmt s st).run j).result? = some c' ∧
      (ofProgram (s :: rest) st).run (j + 1)
        = ⟨.complete c', [.program rest], ((ofStmt s st).run j).state⟩ := by
  cases limit with
  | zero => cases h
  | succ limit =>
      rw [run_succ, step_ofProgram] at h
      rcases ((ofStmt s st).above [.program rest]).stays_or_ends [.program rest] limit with
        hstays | ⟨j, c', hj, hends⟩
      · -- the rest of the program would still be there
        rw [hstays.run] at h
        obtain ⟨-, hframes⟩ := result?_eq_some_iff.mp h
        exact absurd (List.append_eq_nil_iff.mp hframes).2 (List.cons_ne_nil _ _)
      · obtain ⟨hresult, hrun⟩ := hends.alone
        refine ⟨j, c', Nat.lt_succ_of_lt hj, hresult, ?_⟩
        rw [run_succ, step_ofProgram, hrun, above_of_result? hresult]

/-- **What statements come to, the program that they make up comes to**, and leaves the same output
behind. -/
theorem exists_run_of_execution {printed : List String} {failure : Option Failure} {st' : State}
    (h : Execution st P printed failure st') (hsink : st.output.TakesAll) :
    ∃ k, ((ofProgram P st).run k).result? = some (.ofFailure failure) ∧
      ((ofProgram P st).run k).state.output = st'.output := by
  induction h with
  | done st =>
      have hlast : (ofProgram [] st).step = ⟨.complete .done, [], st⟩ := by
        show continueWith (.program []) .nil [] st = _
        simp only [continueWith, hsink.flush]
      refine ⟨1, ?_⟩
      rw [run_succ_last, show (ofProgram [] st).run 0 = ofProgram [] st from rfl, hlast]
      exact ⟨rfl, rfl⟩
  | @next st st' st'' s rest printed later v failure hfirst _ ih =>
      obtain ⟨k, hresult, hstate, -⟩ := id hfirst
      obtain ⟨k₁, hrun⟩ := exists_run_first rest hresult
      obtain ⟨k₂, hrest, houtput⟩ := ih (hfirst.taken hsink).1
      have hc : (Completion.normal v).NotRaised := by rintro f ⟨⟩
      obtain ⟨hsame, hsame'⟩ := run_program hc rest st' k₂
      refine ⟨k₁ + k₂, ?_⟩
      rw [run_add, hrun, hstate, hsame, hsame']
      exact ⟨hrest, houtput⟩
  | @fails st st' s rest printed f hfirst =>
      obtain ⟨k, hresult, hstate, -⟩ := hfirst
      obtain ⟨k₁, hrun⟩ := exists_run_first rest hresult
      refine ⟨k₁ + 1, ?_⟩
      rw [run_succ_last, hrun, hstate]
      exact ⟨rfl, rfl⟩

/-- No return comes down to the program that the machine runs. -/
def NeverReturned (m : Machine) : Prop :=
  ∀ j rest frames v, (m.run j).frames = .program rest :: frames →
    (m.run j).control ≠ .complete (.returned v)

/-- **A program that halts has executed its statements**, up to the first that has failed. -/
theorem exists_execution {limit : Nat} : ∀ {P : List Stmt} {st : State} {c : Completion},
    (ofProgram P st).NeverReturned → ((ofProgram P st).run limit).result? = some c →
      ∃ printed failure st', Execution st P printed failure st' := by
  intro P
  induction P generalizing limit with
  | nil => exact fun {st c} _ _ => ⟨[], none, st, .done st⟩
  | cons s rest ih =>
      intro st c hreturned h
      obtain ⟨j, c', hj, hresult, hrun⟩ := exists_first_ends h
      have hcompletes : s.Completes st ((ofStmt s st).printedIn j) c' ((ofStmt s st).run j).state :=
        ⟨j, hresult, rfl, rfl⟩
      cases c' with
      | raised f => exact ⟨_, _, _, .fails hcompletes⟩
      | returned v =>
          refine absurd ?_ (hreturned (j + 1) rest [] v ?_) <;> rw [hrun]
      | normal v =>
          have hc : (Completion.normal v).NotRaised := by rintro f ⟨⟩
          -- from here on the program runs as the rest of it does
          have hlater : ∀ i, (ofProgram rest ((ofStmt s st).run j).state).run (i + 1)
              = (ofProgram (s :: rest) st).run (j + 1 + (i + 1)) := by
            intro i
            rw [run_add (i + 1) (j + 1), hrun, run_program_succ hc]
          have hrest : (ofProgram rest ((ofStmt s st).run j).state).NeverReturned := by
            intro i rest' frames w
            cases i with
            | zero => rintro - ⟨⟩
            | succ i =>
                rw [hlater]
                exact hreturned _ rest' frames w
          have hhalted : ((ofProgram rest ((ofStmt s st).run j).state).run (limit + 1)).result?
              = some c := by
            rw [hlater, run_of_halted h (by omega)]
            exact h
          obtain ⟨printed, failure, st', hexecution⟩ := ih hrest hhalted
          exact ⟨_, failure, st', .next hcompletes hexecution⟩

end Machine

end Lox
