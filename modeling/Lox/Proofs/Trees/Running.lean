import Lox.Proofs.Control.Steps
import Lox.Proofs.Trees

/-!
# A program runs parts of itself

What a machine evaluates or executes, what its frames have left to do, and the bodies of the functions on its
heap are all parts of programs that were read. So if those are well-formed, then a machine comes by nothing
else, however long it runs.
-/

namespace Lox

/-- What the machine starts on is well-formed. -/
def Control.WellFormed : Control → Prop
  | .eval e => e.WellFormed
  | .exec s => s.WellFormed
  | .complete _ => True

/-- What the frame has left to do is well-formed. -/
def Frame.WellFormed : Frame → Prop
  | .unary operator => operator.kind ∈ Operator.unaryKinds
  | .binaryLeft operator right => operator.kind ∈ Operator.binaryKinds ∧ right.WellFormed
  | .binaryRight _ operator => operator.kind ∈ Operator.binaryKinds
  | .logical _ right => right.WellFormed
  | .callee _ arguments => Expr.AllWellFormed arguments
  | .argument _ _ _ rest => Expr.AllWellFormed rest
  | .setObject _ value => value.WellFormed
  | .branch yes none => yes.WellFormed
  | .branch yes (some no) => yes.WellFormed ∧ no.WellFormed
  | .loopTest condition body => condition.WellFormed ∧ body.WellFormed
  | .loopBody condition body => condition.WellFormed ∧ body.WellFormed
  | .superclass _ _ methods => Function.AllWellFormed methods
  | .sequence rest => Stmt.AllWellFormed rest
  | .program rest => Stmt.AllWellFormed rest
  | _ => True

/-- The bodies of all functions on the heap are well-formed. -/
def Heap.WellFormed (h : Heap) : Prop :=
  ∀ f : FunctionId, Stmt.AllWellFormed (h.functionAt f).declared.body

/-- All that the machine may come by is well-formed. -/
structure Machine.WellFormed (m : Machine) : Prop where
  control : m.control.WellFormed
  frames : ∀ frame ∈ m.frames, frame.WellFormed
  heap : m.state.heap.WellFormed

theorem Function.WellFormed.body {f : Function} (h : f.WellFormed) : Stmt.AllWellFormed f.body := by
  cases f with
  | mk name params body => exact h.2.2.2

/-! ## Functions on the heap -/

namespace Heap.WellFormed

variable {h h' : Heap}

/-- Only functions matter. -/
theorem same (hh : h.WellFormed) (hfunctions : h'.functions = h.functions) : h'.WellFormed := by
  intro f
  rw [functionAt, hfunctions]
  exact hh f

theorem addFunction (hh : h.WellFormed) {f : Closure} (hf : Stmt.AllWellFormed f.declared.body) :
    (h.addFunction f).2.WellFormed := by
  intro g
  rw [functionAt_addFunction]
  split
  · exact hf
  · exact hh g

/-- What is bound to an object has the same body. -/
theorem bindMethod (hh : h.WellFormed) (method : FunctionId) (o : ObjectId) :
    (h.bindMethod method o).2.WellFormed := by
  have hscope : ((h.addInnerScope (h.functionAt method).scope).2.define
      (h.addInnerScope (h.functionAt method).scope).1 "this" (.object o)).WellFormed :=
    hh.same rfl
  exact hscope.addFunction (hh method)

theorem addMethods (scope : ScopeId) {methods : List Function} (hh : h.WellFormed)
    (hmethods : Function.AllWellFormed methods) :
    (Machine.addMethods scope methods h).2.WellFormed := by
  rw [Machine.addMethods_eq]
  generalize (∅ : Std.TreeMap String FunctionId) = table
  induction methods generalizing table h with
  | nil => exact hh
  | cons declared methods ih => exact ih (hh.addFunction hmethods.1.body) hmethods.2 _

theorem declareClass {st : State} (hh : st.heap.WellFormed) (t : Token)
    (superclass : Option ClassId) {methods : List Function}
    (hmethods : Function.AllWellFormed methods) :
    (Machine.declareClass st t superclass methods).heap.WellFormed := by
  have hclass (scope : ScopeId) (h : Heap) (hh : h.WellFormed) :
      (h.addDeclared st.scope t.lexeme superclass scope methods).WellFormed :=
    (hh.addMethods scope hmethods).same rfl
  rw [Machine.heap_declareClass]
  cases superclass with
  | none => exact hclass _ _ (hh.same rfl)
  | some parent => exact hclass _ _ (hh.same rfl)

/-- There is no function yet. -/
theorem of_empty (hfunctions : h.functions = #[]) : h.WellFormed := by
  intro f
  rw [functionAt, hfunctions]
  exact trivial

end Heap.WellFormed

namespace Machine

theorem Accesses.wellFormed {m : Machine} {r : Completion × State} (h : m.Accesses r)
    (hh : m.state.heap.WellFormed) : r.2.heap.WellFormed := by
  cases h with
  | field v => exact hh
  | @method f o _ => exact hh.bindMethod f o
  | fault t _ => exact hh

/-! ## Steps -/

section

variable {st : State} {frames : List Frame} (hh : st.heap.WellFormed)
  (hframes : ∀ frame ∈ frames, frame.WellFormed)
include hh hframes

theorem complete_wellFormed (c : Completion) :
    Machine.WellFormed ⟨.complete c, frames, st⟩ :=
  ⟨trivial, hframes, hh⟩

theorem eval_wellFormed {e : Expr} (he : e.WellFormed) :
    Machine.WellFormed ⟨.eval e, frames, st⟩ :=
  ⟨he, hframes, hh⟩

theorem evalThen_wellFormed {e : Expr} (he : e.WellFormed) {frame : Frame}
    (hframe : frame.WellFormed) : Machine.WellFormed ⟨.eval e, frame :: frames, st⟩ :=
  ⟨he, List.forall_mem_cons.mpr ⟨hframe, hframes⟩, hh⟩

theorem exec_wellFormed {s : Stmt} (hs : s.WellFormed) :
    Machine.WellFormed ⟨.exec s, frames, st⟩ :=
  ⟨hs, hframes, hh⟩

theorem execThen_wellFormed {s : Stmt} (hs : s.WellFormed) {frame : Frame}
    (hframe : frame.WellFormed) : Machine.WellFormed ⟨.exec s, frame :: frames, st⟩ :=
  ⟨hs, List.forall_mem_cons.mpr ⟨hframe, hframes⟩, hh⟩

/-- The body of a call is one that is on the heap. -/
theorem enter_wellFormed {f : Closure} (hf : Stmt.AllWellFormed f.declared.body)
    (result : CallResult) (args : List Value) : (enter f result args frames st).WellFormed := by
  have hinner : (st.heap.addInnerScope f.scope).2.WellFormed := hh.same rfl
  obtain ⟨hfunctions, -⟩ := bindParams_same (st.heap.addInnerScope f.scope).1 f.declared.params
    args (st.heap.addInnerScope f.scope).2
  refine ⟨trivial, ?_, hinner.same hfunctions⟩
  exact List.forall_mem_cons.mpr ⟨hf, List.forall_mem_cons.mpr ⟨trivial, hframes⟩⟩

theorem construct_wellFormed (c : ClassId) (args : List Value) :
    (construct c args frames st).WellFormed := by
  have hobject : (st.heap.addObject ⟨c, ∅⟩).2.WellFormed := hh.same rfl
  unfold construct
  dsimp only
  split
  · next init _ =>
    have hbound := hobject.bindMethod init ⟨st.heap.objects.size⟩
    exact enter_wellFormed hbound hframes (hbound _) _ args
  · exact ⟨trivial, hframes, hobject⟩

theorem call_wellFormed (callee : Value) (paren : Token) (args : List Value) :
    (call callee paren args frames st).WellFormed := by
  unfold call
  split
  · exact complete_wellFormed hh hframes _
  · split
    · exact complete_wellFormed hh hframes _
    · split
      · exact complete_wellFormed hh hframes _
      · unfold invoke
        split
        · split <;> exact ⟨trivial, hframes, hh⟩
        · exact enter_wellFormed hh hframes (hh _) _ args
        · exact construct_wellFormed hh hframes _ args
        · exact complete_wellFormed hh hframes _

theorem nextArgument_wellFormed (callee : Value) (paren : Token) (evaluated : List Value)
    {rest : List Expr} (hrest : Expr.AllWellFormed rest) :
    (nextArgument callee paren evaluated rest frames st).WellFormed := by
  cases rest with
  | nil => exact call_wellFormed hh hframes callee paren evaluated.reverse
  | cons e es => exact evalThen_wellFormed hh hframes hrest.1 hrest.2

theorem evaluate_wellFormed {e : Expr} (he : e.WellFormed) :
    (evaluate e frames st).WellFormed := by
  cases e with
  | literal value => cases value <;> exact complete_wellFormed hh hframes _
  | unary operator operand => exact evalThen_wellFormed hh hframes he.2 he.1
  | binary left operator right => exact evalThen_wellFormed hh hframes he.1 he.2
  | logical left operator right => exact evalThen_wellFormed hh hframes he.1 he.2.2
  | grouping inner => exact eval_wellFormed hh hframes he
  | ident use => simp only [evaluate]; split <;> exact complete_wellFormed hh hframes _
  | assign use value => exact evalThen_wellFormed hh hframes he.2 trivial
  | call callee paren arguments => exact evalThen_wellFormed hh hframes he.1 he.2.2
  | get object name => exact evalThen_wellFormed hh hframes he.1 trivial
  | set object name value => exact evalThen_wellFormed hh hframes he.1 he.2.2
  | this use => simp only [evaluate]; split <;> exact complete_wellFormed hh hframes _
  | super use method =>
      exact complete_wellFormed ((superMethod_accesses use method frames st).wellFormed hh) hframes _

theorem execute_wellFormed {s : Stmt} (hs : s.WellFormed) : (execute s frames st).WellFormed := by
  cases s with
  | expression e => exact eval_wellFormed hh hframes hs
  | print e => exact evalThen_wellFormed hh hframes hs trivial
  | variableDecl name value =>
      cases value with
      | none => exact ⟨trivial, hframes, hh.same rfl⟩
      | some e => exact evalThen_wellFormed hh hframes hs.2 trivial
  | block body =>
      refine ⟨trivial, ?_, hh.same rfl⟩
      exact List.forall_mem_cons.mpr ⟨hs, List.forall_mem_cons.mpr ⟨trivial, hframes⟩⟩
  | conditional condition yes no =>
      cases no with
      | none => exact evalThen_wellFormed hh hframes hs.1 hs.2.2
      | some no => exact evalThen_wellFormed hh hframes hs.1 ⟨hs.2.1.2, hs.2.2.2⟩
  | loop condition body => exact evalThen_wellFormed hh hframes hs.1 ⟨hs.1, hs.2.2⟩
  | functionDecl declared =>
      have hadded : (st.heap.addFunction ⟨declared, st.scope, false⟩).2.WellFormed :=
        hh.addFunction (Function.WellFormed.body hs)
      exact ⟨trivial, hframes, hadded.same rfl⟩
  | giveBack keyword value =>
      cases value with
      | none => exact complete_wellFormed hh hframes _
      | some e => exact evalThen_wellFormed hh hframes hs trivial
  | classDecl name superclass methods =>
      cases superclass with
      | none => exact ⟨trivial, hframes, hh.declareClass name none hs.2⟩
      | some use =>
          have huse : (Expr.ident use).WellFormed := hs.2.1
          exact evalThen_wellFormed hh hframes huse hs.2.2

theorem program_wellFormed {rest : List Stmt} (hrest : Stmt.AllWellFormed rest) (v : Value) :
    (continueWith (.program rest) v frames st).WellFormed := by
  cases rest with
  | nil => simp only [continueWith]; split <;> exact complete_wellFormed hh hframes _
  | cons s rest => exact execThen_wellFormed hh hframes hrest.1 hrest.2

theorem continueWith_wellFormed {frame : Frame} (hframe : frame.WellFormed) (v : Value) :
    (continueWith frame v frames st).WellFormed := by
  cases frame with
  | binaryLeft operator right => exact evalThen_wellFormed hh hframes hframe.2 hframe.1
  | logical operator right =>
      simp only [continueWith]
      split
      · exact complete_wellFormed hh hframes _
      · exact eval_wellFormed hh hframes hframe
  | assign use =>
      rcases continueWith_assign use v frames st with ⟨x, hassign⟩ | hassign
      · rw [hassign]
        exact ⟨trivial, hframes, hh.same rfl⟩
      · rw [hassign]
        exact complete_wellFormed hh hframes _
  | callee paren arguments => exact nextArgument_wellFormed hh hframes v paren [] hframe
  | argument callee paren evaluated rest =>
      exact nextArgument_wellFormed hh hframes callee paren (v :: evaluated) hframe
  | get name =>
      cases v with
      | object o =>
          exact complete_wellFormed ((property_accesses o name frames st).wellFormed hh) hframes _
      | _ => exact complete_wellFormed hh hframes _
  | setObject name value =>
      cases v with
      | object o => exact evalThen_wellFormed hh hframes hframe trivial
      | _ => exact complete_wellFormed hh hframes _
  | setValue o name => exact ⟨trivial, hframes, hh.same rfl⟩
  | print => simp only [continueWith]; split <;> exact ⟨trivial, hframes, hh⟩
  | define name => exact ⟨trivial, hframes, hh.same rfl⟩
  | branch yes no =>
      cases no with
      | none =>
          simp only [continueWith]
          split
          · exact exec_wellFormed hh hframes hframe
          · exact complete_wellFormed hh hframes _
      | some no =>
          simp only [continueWith]
          split
          · exact exec_wellFormed hh hframes hframe.1
          · exact exec_wellFormed hh hframes hframe.2
  | loopTest condition body =>
      simp only [continueWith]
      split
      · exact execThen_wellFormed hh hframes hframe.2 hframe
      · exact complete_wellFormed hh hframes _
  | loopBody condition body => exact evalThen_wellFormed hh hframes hframe.1 hframe
  | superclass name use methods =>
      cases v with
      | classObject parent => exact ⟨trivial, hframes, hh.declareClass name (some parent) hframe⟩
      | _ => exact complete_wellFormed hh hframes _
  | sequence rest =>
      cases rest with
      | nil => exact complete_wellFormed hh hframes _
      | cons s rest => exact execThen_wellFormed hh hframes hframe.1 hframe.2
  | program rest => exact program_wellFormed hh hframes hframe v
  | _ => exact ⟨trivial, hframes, hh⟩

end

theorem WellFormed.step {m : Machine} (h : m.WellFormed) : m.step.WellFormed := by
  obtain ⟨control, frames, st⟩ := m
  obtain ⟨hcontrol, hframes, hh⟩ := h
  cases control with
  | eval e => exact evaluate_wellFormed hh hframes hcontrol
  | exec s => exact execute_wellFormed hh hframes hcontrol
  | complete c =>
      cases frames with
      | nil => exact ⟨hcontrol, hframes, hh⟩
      | cons frame frames =>
          obtain ⟨hframe, hrest⟩ := List.forall_mem_cons.mp hframes
          cases c with
          | normal v => exact continueWith_wellFormed hh hrest hframe v
          | returned v =>
              cases frame with
              | program rest => exact program_wellFormed hh hrest hframe v
              | _ => exact ⟨trivial, hrest, hh⟩
          | raised f => cases frame <;> exact ⟨trivial, hrest, hh⟩

theorem WellFormed.run {m : Machine} (h : m.WellFormed) (n : Nat) : (m.run n).WellFormed :=
  run_invariant (fun _ hm => WellFormed.step hm) n h

end Machine

end Lox
