import Lox.Proofs.Steps

/-!
# Programs one after the other

A machine looks at the topmost frame only, so what waits below makes no difference until it is
reached. So a program that is followed by more statements does what it does alone, and then goes on
with these.
-/

namespace Lox

/-- Completion without a failure. -/
def Completion.NotRaised (c : Completion) : Prop := ∀ f, c ≠ .raised f

namespace Machine

/-- The machine with further frames below its own. -/
def above (m : Machine) (below : List Frame) : Machine := { m with frames := m.frames ++ below }

/-! ## Frames that are not reached -/

section

variable (below : List Frame) (frames : List Frame) (st : State)

theorem construct_above (c : ClassId) (args : List Value) :
    construct c args (frames ++ below) st = (construct c args frames st).above below := by
  unfold construct
  dsimp only
  split <;> rfl

theorem invoke_above (callee : Value) (paren : Token) (args : List Value) :
    invoke callee paren args (frames ++ below) st
      = (invoke callee paren args frames st).above below := by
  cases callee with
  | native f =>
      dsimp only [invoke]
      generalize f.call args st.clock = result
      rcases result with ⟨v | cause, clock⟩ <;> rfl
  | classObject c => exact construct_above below frames st c args
  | _ => rfl

theorem call_above (callee : Value) (paren : Token) (args : List Value) :
    call callee paren args (frames ++ below) st = (call callee paren args frames st).above below := by
  unfold call
  split
  · rfl
  · split
    · rfl
    · split
      · rfl
      · exact invoke_above below frames st callee paren args

theorem evaluate_above (e : Expr) :
    evaluate e (frames ++ below) st = (evaluate e frames st).above below := by
  cases e with
  | literal value => cases value <;> rfl
  | ident use => simp only [evaluate]; split <;> rfl
  | this use => simp only [evaluate]; split <;> rfl
  | _ => rfl

theorem execute_above (s : Stmt) :
    execute s (frames ++ below) st = (execute s frames st).above below := by
  cases s with
  | variableDecl name value => cases value <;> rfl
  | giveBack keyword value => cases value <;> rfl
  | classDecl name superclass methods => cases superclass <;> rfl
  | _ => rfl

theorem nextArgument_above (callee : Value) (paren : Token) (evaluated : List Value)
    (rest : List Expr) : nextArgument callee paren evaluated rest (frames ++ below) st
      = (nextArgument callee paren evaluated rest frames st).above below := by
  cases rest with
  | nil => exact call_above below frames st callee paren evaluated.reverse
  | cons e es => rfl

theorem continueWith_above (frame : Frame) (v : Value) :
    continueWith frame v (frames ++ below) st = (continueWith frame v frames st).above below := by
  cases frame with
  | logical operator right => simp only [continueWith]; split <;> rfl
  | callee paren arguments => exact nextArgument_above below frames st v paren [] arguments
  | argument callee paren evaluated rest =>
      exact nextArgument_above below frames st callee paren (v :: evaluated) rest
  | get name => cases v <;> rfl
  | setObject name value => cases v <;> rfl
  | print => simp only [continueWith]; split <;> rfl
  | branch yes no =>
      simp only [continueWith]
      split
      · rfl
      · cases no <;> rfl
  | loopTest condition body => simp only [continueWith]; split <;> rfl
  | superclass name parent methods => cases v <;> rfl
  | sequence rest => cases rest <;> rfl
  | program rest =>
      cases rest with
      | nil => simp only [continueWith]; split <;> rfl
      | cons s rest => rfl
  | _ => rfl

end

/-- A machine that has not halted makes its step whatever waits below. -/
theorem step_above {m : Machine} (below : List Frame) (h : m.result? = none) :
    (m.above below).step = m.step.above below := by
  obtain ⟨control, frames, st⟩ := m
  cases control with
  | eval e => exact evaluate_above below frames st e
  | exec s => exact execute_above below frames st s
  | complete c =>
      cases frames with
      | nil => exact nomatch h
      | cons frame frames =>
          cases c with
          | normal v => exact continueWith_above below frames st frame v
          | returned v =>
              cases frame with
              | program rest => exact continueWith_above below frames st (.program rest) v
              | _ => rfl
          | raised f => cases frame <;> rfl

/-! ## A program and more statements -/

/-- When a statement of the program has ended without a failure, the program goes on, whether or not
it takes notice of a value. -/
theorem step_program {c : Completion} (hc : c.NotRaised) (P : List Stmt) (st : State) :
    step ⟨.complete c, [.program P], st⟩ = step ⟨.complete .done, [.program P], st⟩ := by
  cases c with
  | normal v => cases P <;> rfl
  | returned v => cases P <;> rfl
  | raised f => exact absurd rfl (hc f)

/-- So what the last statement has completed with does not matter to a run. -/
theorem run_program {c : Completion} (hc : c.NotRaised) (P : List Stmt) (st : State)
    (limit : Nat) :
    (run limit ⟨.complete c, [.program P], st⟩).result?
        = (run limit ⟨.complete .done, [.program P], st⟩).result? ∧
      (run limit ⟨.complete c, [.program P], st⟩).state
        = (run limit ⟨.complete .done, [.program P], st⟩).state := by
  cases limit with
  | zero => exact ⟨rfl, rfl⟩
  | succ limit =>
      rw [run_succ, run_succ, step_program hc]
      exact ⟨rfl, rfl⟩

/-- **A program that ends without a failure does the same with more statements after it**, and comes
to these in the state that it leaves behind alone. -/
theorem run_program_append (more : List Stmt) : ∀ {limit : Nat} {m : Machine} {P : List Stmt}
    {c : Completion}, (run limit (m.above [.program P])).result? = some c → c.NotRaised →
      ∃ steps c', c'.NotRaised ∧ run steps (m.above [.program (P ++ more)])
        = ⟨.complete c', [.program more], (run limit (m.above [.program P])).state⟩
  | 0, ⟨control, frames, st⟩, P, c, h, _ => by
      cases control with
      | complete c' => cases frames <;> cases h
      | _ => cases h
  | limit + 1, m, P, c, h, hc => by
      rw [run_succ] at h ⊢
      cases hresult : m.result? with
      | none =>
          -- the step is made above the program
          rw [step_above [.program P] hresult] at h ⊢
          obtain ⟨steps, c', hc', hsteps⟩ := run_program_append more h hc
          refine ⟨steps + 1, c', hc', ?_⟩
          rw [run_succ, step_above _ hresult]
          exact hsteps
      | some c₀ =>
          -- a statement of the program has ended
          have hm : m = ⟨.complete c₀, [], m.state⟩ := by
            obtain ⟨control, frames, st⟩ := m
            cases control with
            | complete c₁ =>
                cases frames with
                | nil => cases hresult; rfl
                | cons frame frames => cases hresult
            | _ => cases hresult
          rw [hm] at h ⊢
          have hc₀ : c₀.NotRaised := by
            rintro f rfl
            have hraised : step (above ⟨.complete (.raised f), [], m.state⟩ [.program P])
                = ⟨.complete (.raised f), [], { m.state with scope := m.state.globals, depth := 0 }⟩ :=
              rfl
            rw [hraised, run_of_result? rfl] at h
            exact hc f (Option.some.inj h).symm
          have hstep (P : List Stmt) := step_program hc₀ P m.state
          cases P with
          | nil =>
              refine ⟨0, c₀, hc₀, ?_⟩
              have habove : (above ⟨.complete c₀, [], m.state⟩ [.program []]).step
                  = continueWith (.program []) .nil [] m.state := hstep []
              simp only [habove, continueWith] at h ⊢
              cases hflush : m.state.output.flush with
              | none =>
                  dsimp only
                  rw [run_of_result? (m := ⟨.complete .done, [], m.state⟩) rfl limit]
                  rfl
              | some fault =>
                  simp only [hflush] at h
                  rw [run_of_result? rfl] at h
                  exact absurd (Option.some.inj h).symm (hc _)
          | cons s rest =>
              have habove (rest : List Stmt) :
                  (above ⟨.complete c₀, [], m.state⟩ [.program (s :: rest)]).step
                    = above ⟨.exec s, [], m.state⟩ [.program rest] := hstep (s :: rest)
              rw [habove] at h ⊢
              obtain ⟨steps, c', hc', hsteps⟩ := run_program_append more h hc
              refine ⟨steps + 1, c', hc', ?_⟩
              rw [List.cons_append, run_succ, habove]
              exact hsteps

end Machine

end Lox
