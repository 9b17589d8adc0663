import Lox.Program.Scoping
import Lox.Proofs.Moves

/-!
# What a step does to the heap

There are few things that a step can do to the heap. Most steps leave it as it is. A declaration binds
its name in the innermost scope, an assignment gives a name a new value, and one step sets a field. All
others add something: a scope for a block or a call, a function or a class with its name, a method that
is bound to an object, or a new object. What holds of these holds of every step.
-/

namespace Lox

/-- The heap once the body of a function is entered: a new scope binds the parameters. -/
def Heap.enter (h : Heap) (f : Closure) (args : List Value) : Heap :=
  Machine.bindParams ⟨h.scopes.size⟩ f.declared.params args (h.addInnerScope f.scope).2

/-- The heap once a class is there. Its methods are closed over a scope of their own, and its name is
bound in `x`. -/
def Heap.addDeclared (h : Heap) (x : ScopeId) (name : String) (superclass : Option ClassId)
    (scope : ScopeId) (methods : List Function) : Heap :=
  let added := Machine.addMethods scope methods h
  (added.2.addClass ⟨name, superclass, added.1⟩).2.define x name
    (.classObject ⟨added.2.classes.size⟩)

namespace Machine

/-- The methods of a class with a superclass are closed over a scope with `super` in it. -/
theorem heap_declareClass (st : State) (t : Token) (superclass : Option ClassId)
    (methods : List Function) :
    (declareClass st t superclass methods).heap =
      let h := st.heap.define st.scope t.lexeme .nil
      match superclass with
      | none => h.addDeclared st.scope t.lexeme none st.scope methods
      | some parent =>
        (h.addScope ⟨(∅ : Bindings).insert "super" (.classObject parent), some st.scope⟩).2.addDeclared
          st.scope t.lexeme (some parent) ⟨h.scopes.size⟩ methods := by
  cases superclass with
  | none => rfl
  | some parent =>
      unfold declareClass
      dsimp only
      rw [Heap.addInnerScope_define]
      rfl

/-- The name that the next step declares. -/
def declaring? (m : Machine) : Option Token :=
  match m.control, m.frames with
  | .exec s, _ => Scoping.declaredName? s
  | .complete (.normal _), .define name :: _ => some name
  | .complete (.normal _), .superclass name _ _ :: _ => some name
  | _, _ => none

/-- The superclass and the methods of the class that the next step makes. -/
def makesClass? (m : Machine) : Option (Option ClassId × List Function) :=
  match m.control, m.frames with
  | .exec (.classDecl _ none methods), _ => some (none, methods)
  | .complete (.normal (.classObject parent)), .superclass _ _ methods :: _ =>
    some (some parent, methods)
  | _, _ => none

/-- What the next step can make of the heap. -/
inductive Effect (m : Machine) : Heap → Prop where
  | nothing : Effect m m.state.heap
  | declaration {t : Token} (v : Value) :
      m.declaring? = some t → Effect m (m.state.heap.define m.state.scope t.lexeme v)
  | assignment {v : Value} {use : Reference} {frames : List Frame} (x : ScopeId) :
      m.control = .complete (.normal v) → m.frames = .assign use :: frames →
      Effect m (m.state.heap.define x use.name.lexeme v)
  | field {v : Value} {o : ObjectId} {name : Token} {frames : List Frame} :
      m.control = .complete (.normal v) → m.frames = .setValue o name :: frames →
      Effect m (m.state.heap.setField o name.lexeme v)
  | block : Effect m (m.state.heap.addInnerScope m.state.scope).2
  | function {declared : Function} :
      m.declaring? = some declared.name →
      Effect m ((m.state.heap.addFunction ⟨declared, m.state.scope, false⟩).2.define m.state.scope
        declared.name.lexeme (.function ⟨m.state.heap.functions.size⟩))
  | classDecl {t : Token} {superclass : Option ClassId} {methods : List Function} :
      m.declaring? = some t → m.makesClass? = some (superclass, methods) →
      Effect m (declareClass m.state t superclass methods).heap
  | method (f : FunctionId) (o : ObjectId) : Effect m (m.state.heap.bindMethod f o).2
  | call (f : Closure) (args : List Value) : Effect m (m.state.heap.enter f args)
  | object (c : ClassId) : Effect m (m.state.heap.addObject ⟨c, ∅⟩).2
  | construction (c : ClassId) (init : FunctionId) (args : List Value) :
      Effect m (((m.state.heap.addObject ⟨c, ∅⟩).2.bindMethod init ⟨m.state.heap.objects.size⟩).2.enter
        { m.state.heap.functionAt init with scope := ⟨m.state.heap.scopes.size⟩ } args)

variable {m : Machine}

theorem Accesses.effect {r : Completion × State} (h : m.Accesses r) : m.Effect r.2.heap := by
  cases h with
  | field v => exact .nothing
  | @method f o _ => exact .method f o
  | fault t _ => exact .nothing

theorem construct_effect (c : ClassId) (args : List Value) (frames : List Frame) :
    m.Effect (construct c args frames m.state).state.heap := by
  unfold construct
  dsimp only
  split
  · next init hinit =>
    rw [Heap.functionAt_bindMethod]
    exact .construction c init args
  · exact .object _

theorem call_effect (callee : Value) (paren : Token) (args : List Value) (frames : List Frame) :
    m.Effect (call callee paren args frames m.state).state.heap := by
  unfold call
  split
  · exact .nothing
  · split
    · exact .nothing
    · split
      · exact .nothing
      · unfold invoke
        split
        · split <;> exact .nothing
        · exact .call _ args
        · exact construct_effect _ args frames
        · exact .nothing

theorem nextArgument_effect (callee : Value) (paren : Token) (evaluated : List Value)
    (rest : List Expr) (frames : List Frame) :
    m.Effect (nextArgument callee paren evaluated rest frames m.state).state.heap := by
  cases rest with
  | nil => exact call_effect callee paren evaluated.reverse frames
  | cons e es => exact .nothing

theorem program_effect (rest : List Stmt) (v : Value) (frames : List Frame) :
    m.Effect (continueWith (.program rest) v frames m.state).state.heap := by
  cases rest with
  | nil => simp only [continueWith]; split <;> exact .nothing
  | cons s rest => exact .nothing

section

variable (frames : List Frame) (st : State)

theorem evaluate_effect (e : Expr) :
    Effect ⟨.eval e, frames, st⟩ (evaluate e frames st).state.heap := by
  cases e with
  | literal value => cases value <;> exact .nothing
  | ident use => simp only [evaluate]; split <;> exact .nothing
  | this use => simp only [evaluate]; split <;> exact .nothing
  | super use method => exact (superMethod_accesses use method frames st).effect
  | _ => exact .nothing

theorem execute_effect (s : Stmt) :
    Effect ⟨.exec s, frames, st⟩ (execute s frames st).state.heap := by
  cases s with
  | variableDecl name value =>
      cases value with
      | none => exact .declaration .nil rfl
      | some e => exact .nothing
  | block body => exact .block
  | functionDecl declared => exact .function rfl
  | giveBack keyword value => cases value <;> exact .nothing
  | classDecl name superclass methods =>
      cases superclass with
      | none => exact .classDecl rfl rfl
      | some use => exact .nothing
  | _ => exact .nothing

theorem continueWith_effect (frame : Frame) (v : Value) :
    Effect ⟨.complete (.normal v), frame :: frames, st⟩
      (continueWith frame v frames st).state.heap := by
  cases frame with
  | logical operator right => simp only [continueWith]; split <;> exact .nothing
  | assign use =>
      rcases continueWith_assign use v frames st with ⟨x, hassign⟩ | hassign
      · rw [hassign]
        exact .assignment x rfl rfl
      · rw [hassign]
        exact .nothing
  | callee paren arguments => exact nextArgument_effect v paren [] arguments frames
  | argument callee paren evaluated rest =>
      exact nextArgument_effect callee paren (v :: evaluated) rest frames
  | get name =>
      cases v with
      | object o => exact (property_accesses o name frames st).effect
      | _ => exact .nothing
  | setObject name value => cases v <;> exact .nothing
  | setValue o name => exact .field rfl rfl
  | print => simp only [continueWith]; split <;> exact .nothing
  | define name => exact .declaration v rfl
  | branch yes no =>
      simp only [continueWith]
      split
      · exact .nothing
      · cases no <;> exact .nothing
  | loopTest condition body => simp only [continueWith]; split <;> exact .nothing
  | superclass name use methods =>
      cases v with
      | classObject parent => exact .classDecl rfl rfl
      | _ => exact .nothing
  | sequence rest => cases rest <;> exact .nothing
  | program rest => exact program_effect rest v frames
  | _ => exact .nothing

end

/-- **What every step does to the heap.** -/
theorem step_effect (m : Machine) : m.Effect m.step.state.heap := by
  obtain ⟨control, frames, st⟩ := m
  cases control with
  | eval e => exact evaluate_effect frames st e
  | exec s => exact execute_effect frames st s
  | complete c =>
      cases frames with
      | nil => exact .nothing
      | cons frame frames =>
          cases c with
          | normal v => exact continueWith_effect frames st frame v
          | returned v =>
              cases frame with
              | program rest => exact program_effect rest v frames
              | _ => exact .nothing
          | raised f => cases frame <;> exact .nothing

end Machine

end Lox
