import Lox.Proofs.Termination.Costs

/-!
# Every step costs something

One lemma for each part of a step: what comes of an expression, a statement or a frame can be paid
for with its weight. Together they say that a machine without loops gets cheaper with every step.
The two frames that change the depth are the places where the room is counted.
-/

namespace Lox

/-- While a call is running, the depth counts it. -/
theorem Unwinds.activation_depth {globals root : ScopeId} {base size : Nat} {frames : List Frame}
    {x caller : ScopeId} {depth : Nat} {result : CallResult}
    (h : Unwinds globals root base size (.activation caller result :: frames) x depth) :
    0 < depth ∧ depth ≤ State.maxDepth := by
  cases h with
  | stay hkeeps _ => exact nomatch hkeeps
  | activation _ _ hlt _ => exact ⟨Nat.succ_pos _, hlt⟩

namespace Machine

section

variable {B weight : Nat} {frames : List Frame} {st : State}
  (hframes : ∀ frame ∈ frames, frame.Within B) (hheap : st.heap.Within B)

include hframes hheap

theorem accesses_affords {m : Machine} {r : Completion × State} (hr : m.Accesses r)
    (hstate : m.state = st) (hweight : 0 < weight) :
    Affords B weight frames st ⟨.complete r.1, frames, r.2⟩ := by
  subst hstate
  have hdepth : r.2.depth = m.state.depth := by cases hr <;> rfl
  exact completes_affords hframes (hheap.accesses hr) hdepth hweight r.1

theorem evaluate_affords (e : Expr) :
    Affords B e.weight frames st (evaluate e frames st) := by
  cases e with
  | literal value => cases value <;> exact stops_affords hframes hheap Nat.one_pos _
  | unary operator operand =>
      exact waits_affords hframes hheap trivial trivial rfl (Nat.lt_succ_self _)
  | binary left operator right =>
      refine waits_affords hframes hheap trivial trivial rfl ?_
      simp only [Control.weight, Frame.weight, Expr.weight]
      omega
  | logical left operator right =>
      refine waits_affords hframes hheap trivial trivial rfl ?_
      simp only [Control.weight, Frame.weight, Expr.weight]
      omega
  | grouping inner => exact starts_affords hframes hheap trivial (Nat.lt_succ_self _)
  | ident use =>
      simp only [evaluate]
      split <;> exact stops_affords hframes hheap Nat.one_pos _
  | assign use value => exact waits_affords hframes hheap trivial trivial rfl (Nat.lt_succ_self _)
  | call callee paren arguments =>
      refine waits_affords hframes hheap trivial trivial rfl ?_
      simp only [Control.weight, Frame.weight, Expr.weight]
      omega
  | get object name => exact waits_affords hframes hheap trivial trivial rfl (Nat.lt_succ_self _)
  | set object name value =>
      refine waits_affords hframes hheap trivial trivial rfl ?_
      simp only [Control.weight, Frame.weight, Expr.weight]
      omega
  | this use =>
      simp only [evaluate]
      split <;> exact stops_affords hframes hheap Nat.one_pos _
  | super use method =>
      exact accesses_affords hframes hheap (superMethod_accesses use method frames st) rfl
        Nat.one_pos

theorem execute_affords {s : Stmt} (hs : s.Within B) :
    Affords B s.weight frames st (execute s frames st) := by
  obtain ⟨hfree, hlight⟩ := hs
  cases s with
  | expression e => exact starts_affords hframes hheap trivial (Nat.lt_succ_self _)
  | print e => exact waits_affords hframes hheap trivial trivial rfl (Nat.lt_succ_self _)
  | variableDecl name value =>
      cases value with
      | none =>
          refine completes_affords hframes ?_ ?_ Nat.one_pos _
          · exact hheap.same rfl
          · rfl
      | some e => exact waits_affords hframes hheap trivial trivial rfl (Nat.lt_succ_self _)
  | block body =>
      have hbody : Stmt.AllWithin B body := ⟨hfree, by rw [Stmt.weight] at hlight; omega⟩
      have hblock : ∀ frame ∈ Frame.block st.scope :: frames, frame.Within B :=
        List.forall_mem_cons.mpr ⟨trivial, hframes⟩
      refine ⟨⟨?_, trivial, List.forall_mem_cons.mpr ⟨hbody, hblock⟩⟩, ?_⟩
      · exact hheap.same rfl
      · show dues (B + 1) st.room (0 + (Stmt.weightAll body + 1) + 1) frames < _
        refine dues_lt (Nat.succ_pos B) ?_ frames
        rw [Stmt.weight]
        omega
  | conditional condition yes no =>
      cases no with
      | none =>
          refine waits_affords hframes hheap trivial ⟨⟨hfree, ?_⟩, nofun⟩ rfl ?_
          · simp only [Stmt.weight] at hlight
            omega
          · simp only [Control.weight, Frame.weight, Stmt.weight, Option.elim]
            omega
      | some no =>
          simp only [Stmt.weight] at hlight
          refine waits_affords hframes hheap trivial ⟨⟨hfree.1, by omega⟩, ?_⟩ rfl ?_
          · rintro s hs
            cases hs
            exact ⟨hfree.2, by omega⟩
          · simp only [Control.weight, Frame.weight, Stmt.weight, Option.elim]
            omega
  | loop condition body => exact hfree.elim
  | functionDecl declared =>
      have hdeclared : declared.Within B := ⟨hfree, Nat.le_of_succ_le hlight⟩
      have hadded := hheap.addFunction (c := ⟨declared, st.scope, false⟩) hdeclared
      refine completes_affords hframes ?_ ?_ (Nat.succ_pos _) _
      · exact hadded.same rfl
      · rfl
  | giveBack keyword value =>
      cases value with
      | none => exact stops_affords hframes hheap Nat.one_pos _
      | some e => exact waits_affords hframes hheap trivial trivial rfl (Nat.lt_succ_self _)
  | classDecl name superclass methods =>
      have hmethods : Function.AllWithin B methods := by
        rw [Stmt.weight] at hlight
        exact ⟨hfree, by omega⟩
      cases superclass with
      | none =>
          refine completes_affords hframes ?_ ?_ (Nat.succ_pos _) _
          · exact hheap.declareClass name none hmethods
          · rfl
      | some use =>
          refine waits_affords hframes hheap trivial hmethods rfl ?_
          simp only [Control.weight, Frame.weight, Expr.weight, Stmt.weight]
          omega

theorem construct_affords (c : ClassId) (args : List Value) (hroom : st.depth < State.maxDepth)
    (hweight : 2 ≤ weight) : Affords B weight frames st (construct c args frames st) := by
  have hobject : (st.heap.addObject ⟨c, ∅⟩).2.Within B := hheap.same rfl
  unfold construct
  dsimp only
  split
  · next init _ =>
    refine enter_affords hframes ?_ ?_ hroom hweight ?_ _ args
    · exact hobject.bindMethod init _
    · rfl
    · rw [Heap.functionAt_bindMethod]
      exact hobject init
  · refine completes_affords hframes ?_ ?_ (Nat.lt_of_lt_of_le Nat.two_pos hweight) _
    · exact hobject
    · rfl

/-- A call pays with the two units of the frame that makes it, whatever it calls. -/
theorem call_affords (callee : Value) (paren : Token) (args : List Value) (hweight : 2 ≤ weight) :
    Affords B weight frames st (call callee paren args frames st) := by
  have hpos : 0 < weight := Nat.lt_of_lt_of_le Nat.two_pos hweight
  unfold call
  split
  · exact stops_affords hframes hheap hpos _
  · split
    · exact stops_affords hframes hheap hpos _
    · split
      · exact stops_affords hframes hheap hpos _
      · next hdepth =>
        have hroom : st.depth < State.maxDepth := Nat.lt_of_not_le hdepth
        cases callee with
        | native f =>
            -- it is called and done with in this step
            unfold invoke
            dsimp only
            split
            · refine completes_affords hframes ?_ ?_ hpos _
              · exact hheap
              · rfl
            · refine completes_affords hframes ?_ ?_ hpos _
              · exact hheap
              · rfl
        | function f => exact enter_affords hframes hheap rfl hroom hweight (hheap f) _ args
        | classObject c => exact construct_affords hframes hheap c args hroom hweight
        | _ => exact stops_affords hframes hheap hpos _

theorem nextArgument_affords (callee : Value) (paren : Token) (evaluated : List Value)
    (rest : List Expr) : Affords B (Expr.weightAll rest + 2) frames st
      (nextArgument callee paren evaluated rest frames st) := by
  cases rest with
  | nil => exact call_affords hframes hheap callee paren evaluated.reverse (Nat.le_refl 2)
  | cons e es =>
      refine waits_affords hframes hheap trivial trivial rfl ?_
      simp only [Control.weight, Frame.weight, Expr.weightAll]
      omega

theorem program_affords {rest : List Stmt} (hrest : Stmt.AllWithin B rest) (v : Value) :
    Affords B (Stmt.weightAll rest + 1) frames st (continueWith (.program rest) v frames st) := by
  cases rest with
  | nil =>
      simp only [continueWith]
      split <;> exact stops_affords hframes hheap Nat.one_pos _
  | cons s rest =>
      obtain ⟨hs, hrest⟩ := hrest.cons
      refine waits_affords hframes hheap hs hrest rfl ?_
      simp only [Control.weight, Frame.weight, Stmt.weightAll]
      omega

/-- Only the frame of a call does not go on with its own weight. -/
theorem continueWith_affords {frame : Frame} (hframe : frame.Within B)
    (hactivation : frame.isActivation = false) (v : Value) :
    Affords B frame.weight frames st (continueWith frame v frames st) := by
  cases frame with
  | unary operator => exact stops_affords hframes hheap Nat.one_pos _
  | binaryLeft operator right =>
      exact waits_affords hframes hheap trivial trivial rfl (Nat.lt_succ_self _)
  | binaryRight left operator => exact stops_affords hframes hheap Nat.one_pos _
  | logical operator right =>
      simp only [continueWith]
      split
      · exact stops_affords hframes hheap (Nat.succ_pos _) _
      · exact starts_affords hframes hheap trivial (Nat.lt_succ_self _)
  | assign use =>
      rcases continueWith_assign use v frames st with ⟨x, hassign⟩ | hassign
      · rw [hassign]
        refine completes_affords hframes ?_ ?_ Nat.one_pos _
        · exact hheap.same rfl
        · rfl
      · rw [hassign]
        exact stops_affords hframes hheap Nat.one_pos _
  | callee paren arguments => exact nextArgument_affords hframes hheap v paren [] arguments
  | argument callee paren evaluated rest =>
      exact nextArgument_affords hframes hheap callee paren (v :: evaluated) rest
  | get name =>
      cases v with
      | object o =>
          exact accesses_affords hframes hheap (property_accesses o name frames st) rfl Nat.one_pos
      | _ => exact stops_affords hframes hheap Nat.one_pos _
  | setObject name value =>
      cases v with
      | object o => exact waits_affords hframes hheap trivial trivial rfl (Nat.lt_succ_self _)
      | _ => exact stops_affords hframes hheap (Nat.succ_pos _) _
  | setValue o name =>
      refine completes_affords hframes ?_ ?_ Nat.one_pos _
      · exact hheap.same rfl
      · rfl
  | print =>
      simp only [continueWith]
      split
      · refine completes_affords hframes ?_ ?_ Nat.one_pos _
        · exact hheap
        · rfl
      · refine completes_affords hframes ?_ ?_ Nat.one_pos _
        · exact hheap
        · rfl
  | define name =>
      refine completes_affords hframes ?_ ?_ Nat.one_pos _
      · exact hheap.same rfl
      · rfl
  | branch yes no =>
      obtain ⟨hyes, hno⟩ := hframe
      simp only [continueWith]
      split
      · refine starts_affords hframes hheap hyes ?_
        simp only [Control.weight, Frame.weight]
        omega
      · cases no with
        | none => exact stops_affords hframes hheap (Nat.succ_pos _) _
        | some no =>
            refine starts_affords hframes hheap (hno no rfl) ?_
            simp only [Control.weight, Frame.weight, Option.elim]
            omega
  | loopTest condition body => exact hframe.elim
  | loopBody condition body => exact hframe.elim
  | giveBack => exact stops_affords hframes hheap Nat.one_pos _
  | superclass name superclass methods =>
      cases v with
      | classObject parent =>
          refine completes_affords hframes ?_ ?_ (Nat.succ_pos _) _
          · exact hheap.declareClass name (some parent) hframe
          · rfl
      | _ => exact stops_affords hframes hheap (Nat.succ_pos _) _
  | sequence rest =>
      cases rest with
      | nil => exact stops_affords hframes hheap Nat.one_pos _
      | cons s rest =>
          obtain ⟨hs, hrest⟩ := hframe.cons
          refine waits_affords hframes hheap hs hrest rfl ?_
          simp only [Control.weight, Frame.weight, Stmt.weightAll]
          omega
  | block outer =>
      refine completes_affords hframes ?_ ?_ Nat.one_pos _
      · exact hheap
      · rfl
  | activation caller result => cases hactivation
  | program rest => exact program_affords hframes hheap hframe v

end

/-! ## A whole step -/


theorem frame_weight_pos (frame : Frame) : 0 < frame.weight := by
  cases frame <;> exact Nat.succ_pos _

section

variable {B : Nat} {frame : Frame} {frames : List Frame} {st : State}

/-- What waits for a value pays with its own weight. -/
theorem Affords.of_frame {m : Machine} (h : Affords B frame.weight frames st m)
    (hactivation : frame.isActivation = false) : Affords B 0 (frame :: frames) st m := by
  refine ⟨h.within, ?_⟩
  rw [dues_cons hactivation, Nat.zero_add]
  exact h.cheaper

/-- When a call ends, there is room for it again. -/
theorem returns_affords (hframes : ∀ frame ∈ frames, frame.Within B) (hheap : st.heap.Within B)
    (hpos : 0 < st.depth) (hle : st.depth ≤ State.maxDepth) (c : Completion) (caller : ScopeId)
    (result : CallResult) : Affords B 0 (.activation caller result :: frames) st
      ⟨.complete c, frames, { st with scope := caller, depth := st.depth - 1 }⟩ := by
  refine ⟨⟨hheap, trivial, hframes⟩, ?_⟩
  have hroom : State.maxDepth - (st.depth - 1) = st.room + 1 := by
    unfold State.room
    omega
  show dues (B + 1) (State.maxDepth - (st.depth - 1)) 0 frames < _
  rw [hroom, dues, Nat.zero_mul, Nat.zero_add]
  exact dues_lt (Nat.succ_pos B) Nat.one_pos frames

end

variable {B : Nat} {root : ScopeId} {base : Nat}

/-- **Every step makes a machine cheaper**, as long as it has not halted. -/
theorem step_affords {m : Machine} (h : m.Within B) (hunwinds : m.Unwinds root base 0)
    (hruns : m.result? = none) : Affords B m.control.weight m.frames m.state m.step := by
  obtain ⟨control, frames, st⟩ := m
  obtain ⟨hheap, hcontrol, hframes⟩ := h
  dsimp only at hheap hcontrol hframes ⊢
  cases control with
  | eval e => exact evaluate_affords hframes hheap e
  | exec s => exact execute_affords hframes hheap hcontrol
  | complete c =>
      cases frames with
      | nil => exact nomatch hruns
      | cons frame frames =>
          obtain ⟨hframe, hbelow⟩ := List.forall_mem_cons.mp hframes
          clear hframes
          have hstays (c : Completion) :
              Affords B frame.weight frames st ⟨.complete c, frames, st⟩ :=
            stops_affords hbelow hheap (frame_weight_pos frame) c
          cases hactivation : frame.isActivation with
          | true =>
              obtain ⟨caller, result, rfl⟩ :
                  ∃ caller result, frame = .activation caller result := by
                cases frame with
                | activation caller result => exact ⟨caller, result, rfl⟩
                | _ => exact nomatch hactivation
              obtain ⟨hpos, hle⟩ := hunwinds.activation_depth
              cases c <;> exact returns_affords hbelow hheap hpos hle _ caller result
          | false =>
              refine Affords.of_frame ?_ hactivation
              cases c with
              | normal v => exact continueWith_affords hbelow hheap hframe hactivation v
              | returned v =>
                  cases frame with
                  | program rest => exact program_affords hbelow hheap hframe v
                  | block outer =>
                      refine completes_affords hbelow ?_ ?_ Nat.one_pos _
                      · exact hheap
                      · rfl
                  | activation => exact nomatch hactivation
                  | _ => exact hstays _
              | raised f =>
                  cases frame with
                  | program rest =>
                      -- a program runs at the top level, where no call is running
                      obtain ⟨-, -, hdepth, -, hbase⟩ := hunwinds.of_program
                      refine completes_affords hbelow ?_ ?_ (Nat.succ_pos _) _
                      · exact hheap
                      · exact (hdepth.trans hbase).symm
                  | block outer =>
                      refine completes_affords hbelow ?_ ?_ Nat.one_pos _
                      · exact hheap
                      · rfl
                  | activation => exact nomatch hactivation
                  | _ => exact hstays _

end Machine

end Lox
