import Lox.Machine
import Lox.Proofs.Control.Shapes

/-!
# What frames wait for

A frame waits for the value of an expression, for the end of a statement, or for the end of the body
of a block or of a call, and then goes on with what is around that. So the frames of a machine lead from
station to station, out to where the run has begun. With each station goes the kind of the function
that it belongs to, for this is what a `return` is about.
-/

namespace Lox

open Scoping (FunctionContext)

/-- What is waited for: an expression, with the name that it may find not ready; a statement, with
the name that it declares; the end of a body; or the end of the program. -/
inductive Position where
  | expression (pending : Option String)
  | statement (declared : Option String)
  | body
  | program
  deriving DecidableEq

/-- What is waited for, in a function of some kind. -/
structure Station where
  context : FunctionContext
  position : Position
  deriving DecidableEq

/-- What comes from the first station may come to the second: an expression is a statement too. -/
def Station.Suits (p q : Station) : Prop :=
  p.context = q.context ∧
    (p.position = q.position ∨ p.position = .expression none ∧ q.position = .statement none)

theorem Station.Suits.refl (p : Station) : p.Suits p := ⟨rfl, .inl rfl⟩

theorem Station.Suits.trans {p q r : Station} (h : p.Suits q) (h' : q.Suits r) : p.Suits r := by
  obtain ⟨hcontext, hposition⟩ := h
  obtain ⟨hcontext', hposition'⟩ := h'
  refine ⟨hcontext.trans hcontext', ?_⟩
  rcases hposition with hsame | ⟨hexpression, hstatement⟩
  · rw [hsame]
    exact hposition'
  · rcases hposition' with hsame | ⟨hexpression', -⟩
    · exact .inr ⟨hexpression, hsame.symm.trans hstatement⟩
    · rw [hstatement] at hexpression'
      exact nomatch hexpression'

/-- The statement declares nothing, and keeps to the rules of its place. -/
def Stmt.Branch (Good : Use → Site → Prop) (context : FunctionContext) (s : Stmt) : Prop :=
  Scoping.declaredName? s = none ∧ s.Orderly Good context

section

variable (Good : Use → Site → Prop)

/-- The frame waits at the first station, and goes on at the second. -/
inductive Frame.Joins : Frame → Station → Station → Prop where
  | unary {c : FunctionContext} {p : Option String} (operator : Token) :
      Joins (.unary operator) ⟨c, .expression p⟩ ⟨c, .expression p⟩
  | binaryLeft {c : FunctionContext} {p : Option String} (operator : Token) {right : Expr} :
      right.Orderly Good p →
      Joins (.binaryLeft operator right) ⟨c, .expression p⟩ ⟨c, .expression p⟩
  | binaryRight {c : FunctionContext} {p : Option String} (left : Value) (operator : Token) :
      Joins (.binaryRight left operator) ⟨c, .expression p⟩ ⟨c, .expression p⟩
  | logical {c : FunctionContext} {p : Option String} (operator : Token) {right : Expr} :
      right.Orderly Good p → Joins (.logical operator right) ⟨c, .expression p⟩ ⟨c, .expression p⟩
  | assign {c : FunctionContext} {p : Option String} {use : Reference} :
      Use.Orderly Good p ⟨.assign, use⟩ → Joins (.assign use) ⟨c, .expression p⟩ ⟨c, .expression p⟩
  | callee {c : FunctionContext} {p : Option String} (paren : Token) {arguments : List Expr} :
      Expr.AllOrderly Good p arguments →
      Joins (.callee paren arguments) ⟨c, .expression p⟩ ⟨c, .expression p⟩
  | argument {c : FunctionContext} {p : Option String} (callee : Value) (paren : Token)
      (evaluated : List Value) {rest : List Expr} :
      Expr.AllOrderly Good p rest →
      Joins (.argument callee paren evaluated rest) ⟨c, .expression p⟩ ⟨c, .expression p⟩
  | get {c : FunctionContext} {p : Option String} (name : Token) :
      Joins (.get name) ⟨c, .expression p⟩ ⟨c, .expression p⟩
  | setObject {c : FunctionContext} {p : Option String} (name : Token) {value : Expr} :
      value.Orderly Good p → Joins (.setObject name value) ⟨c, .expression p⟩ ⟨c, .expression p⟩
  | setValue {c : FunctionContext} {p : Option String} (o : ObjectId) (name : Token) :
      Joins (.setValue o name) ⟨c, .expression p⟩ ⟨c, .expression p⟩
  | print {c : FunctionContext} : Joins .print ⟨c, .expression none⟩ ⟨c, .statement none⟩
  | define {c : FunctionContext} (name : Token) :
      Joins (.define name) ⟨c, .expression (some name.lexeme)⟩ ⟨c, .statement (some name.lexeme)⟩
  | branch {c : FunctionContext} {yes : Stmt} {no : Option Stmt} :
      yes.Branch Good c → (∀ s, no = some s → s.Branch Good c) →
      Joins (.branch yes no) ⟨c, .expression none⟩ ⟨c, .statement none⟩
  | loopTest {c : FunctionContext} {condition : Expr} {body : Stmt} :
      condition.Orderly Good none → body.Branch Good c →
      Joins (.loopTest condition body) ⟨c, .expression none⟩ ⟨c, .statement none⟩
  | loopBody {c : FunctionContext} {condition : Expr} {body : Stmt} :
      condition.Orderly Good none → body.Branch Good c →
      Joins (.loopBody condition body) ⟨c, .statement none⟩ ⟨c, .statement none⟩
  | giveBack {c : FunctionContext} : c ≠ .none → c ≠ .initializer →
      Joins .giveBack ⟨c, .expression none⟩ ⟨c, .statement none⟩
  | superclass {c : FunctionContext} (name : Token) (use : Reference) {methods : List Function} :
      Function.AllOrderly Good methods →
      Joins (.superclass name use methods) ⟨c, .expression none⟩ ⟨c, .statement (some name.lexeme)⟩
  | sequence {c : FunctionContext} {d : Option String} {rest : List Stmt} :
      Stmt.AllOrderly Good c rest → Joins (.sequence rest) ⟨c, .statement d⟩ ⟨c, .body⟩
  | block {c : FunctionContext} (outer : ScopeId) :
      Joins (.block outer) ⟨c, .body⟩ ⟨c, .statement none⟩
  | activation {c c' : FunctionContext} {p : Option String} (caller : ScopeId)
      (result : CallResult) :
      c ≠ .none → Joins (.activation caller result) ⟨c, .body⟩ ⟨c', .expression p⟩
  | program {d : Option String} {rest : List Stmt} :
      Stmt.AllOrderly Good .none rest →
      Joins (.program rest) ⟨.none, .statement d⟩ ⟨.none, .program⟩

/-- The frames lead from one station to another. -/
inductive Leads (target : Station) : Station → List Frame → Prop where
  | nil {station : Station} : station.Suits target → Leads target station []
  | cons {station inner outer : Station} {frame : Frame} {frames : List Frame} :
      station.Suits inner → frame.Joins Good inner outer → Leads target outer frames →
      Leads target station (frame :: frames)

/-- What the machine does belongs to the station. What has completed normally may do so anywhere. -/
inductive Control.At : Control → Station → Prop where
  | eval {c : FunctionContext} {p : Option String} {e : Expr} :
      e.Orderly Good p → At (.eval e) ⟨c, .expression p⟩
  | exec {c : FunctionContext} {s : Stmt} :
      s.Orderly Good c →
      At (.exec s) ⟨c, .statement ((Scoping.declaredName? s).map Token.lexeme)⟩
  | normal (v : Value) (station : Station) : At (.complete (.normal v)) station
  | returned {station : Station} {v : Value} :
      station.context ≠ .none → (station.context = .initializer → v = .nil) →
      (∀ p, station.position ≠ .expression p) → At (.complete (.returned v)) station
  | raised (f : Failure) (station : Station) : At (.complete (.raised f)) station

/-- The body keeps to the rules of the function, which is marked as an initializer if it is one. -/
def Closure.Orderly (f : Closure) : Prop :=
  ∃ context : FunctionContext, context ≠ .none ∧
    (f.isInitializer = true ↔ context = .initializer) ∧ f.declared.Orderly Good context

/-- All functions on the heap keep to the rules. Initializers are the methods of that name. -/
structure Heap.Orderly (h : Heap) : Prop where
  functions : ∀ f : FunctionId, (h.functionAt f).Orderly Good
  methods : ∀ (c : ClassId) (name : String) f, (h.classAt c).methods[name]? = some f →
    f.index < h.functions.size ∧
      (h.functionAt f).isInitializer = (name == Function.initializerName)

/-- The machine does what its station allows, and from there its frames lead to the target. -/
structure Machine.Flows (target : Station) (m : Machine) : Prop where
  heap : m.state.heap.Orderly Good
  stand : ∃ station, m.control.At Good station ∧ Leads Good target station m.frames

end

variable {Good : Use → Site → Prop} {target : Station}

theorem Leads.suits {p q : Station} (h : p.Suits q) {frames : List Frame}
    (hframes : Leads Good target q frames) : Leads Good target p frames := by
  cases hframes with
  | nil hsuits => exact .nil (h.trans hsuits)
  | cons hsuits hjoins hrest => exact .cons (h.trans hsuits) hjoins hrest

/-- A frame in front, which goes on where the others wait. -/
theorem Leads.push {p q : Station} {frame : Frame} {frames : List Frame}
    (hframes : Leads Good target q frames) (hframe : frame.Joins Good p q) :
    Leads Good target p (frame :: frames) :=
  .cons (.refl p) hframe hframes

/-- An expression is a statement that declares nothing. -/
theorem Leads.expression {c : FunctionContext} {frames : List Frame}
    (hframes : Leads Good target ⟨c, .statement none⟩ frames) :
    Leads Good target ⟨c, .expression none⟩ frames :=
  have hsuits : Station.Suits ⟨c, .expression none⟩ ⟨c, .statement none⟩ := ⟨rfl, .inr ⟨rfl, rfl⟩⟩
  hframes.suits hsuits

/-- No frame waits for the end of the program. -/
theorem Leads.program {c : FunctionContext} {frames : List Frame}
    (h : Leads Good target ⟨c, .program⟩ frames) : frames = [] ∧ target = ⟨c, .program⟩ := by
  cases h with
  | nil hsuits =>
      obtain ⟨hcontext, hposition | ⟨hposition, -⟩⟩ := hsuits
      · obtain ⟨context, position⟩ := target
        cases hcontext
        cases hposition
        exact ⟨rfl, rfl⟩
      · exact nomatch hposition
  | cons hsuits hjoins _ =>
      obtain ⟨-, hposition | ⟨hposition, -⟩⟩ := hsuits
      · cases hjoins <;> exact nomatch hposition
      · exact nomatch hposition

end Lox
