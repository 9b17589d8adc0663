import Lox.Heap
import Lox.Native
import Lox.Output
/-!
# The states of a running program

A program runs on a machine that has three parts. The control says what is done now: an expression
is evaluated, a statement is executed, or the last thing done has completed. The frames say what is
left to do with its result, the most urgent first. The state holds all that the program can change.

Completion is either normal, with a value, or abrupt: a `return` on its way to the end of its call,
or a failure on its way to the end of the program. Statements complete normally with a value too,
which nothing looks at.
-/

namespace Lox

/-- How a part of a program came to its end. -/
inductive Completion where
  | normal (v : Value)
  | returned (v : Value)
  | raised (f : Failure)
  deriving DecidableEq

namespace Completion

/-- The normal completion of a statement. -/
def done : Completion := .normal .nil

/-- Completion of an expression by its result. -/
def ofResult : Except Failure Value → Completion
  | .ok v => .normal v
  | .error f => .raised f

/-- Completion by a fault on the line of a token. -/
def faultAt (t : Token) (cause : RuntimeFault) : Completion := .raised (.fault cause t.line)

end Completion

/-- What the machine does now. -/
inductive Control where
  | eval (e : Expr)
  | exec (s : Stmt)
  | complete (c : Completion)

/-- What a call yields once its body has ended without a failure. -/
inductive CallResult where
  /-- The value of its `return`, or `nil` without one. -/
  | ofBody
  /-- What `this` is bound to in the scope around the body. -/
  | receiver (scope : ScopeId)
  /-- The object that the call constructs. -/
  | constructed (o : ObjectId)
  deriving DecidableEq

/-- A part of a program that waits for the one that it contains. -/
inductive Frame where
  | unary (operator : Token)
  | binaryLeft (operator : Token) (right : Expr)
  | binaryRight (left : Value) (operator : Token)
  | logical (operator : Token) (right : Expr)
  | assign (use : Reference)
  | callee (paren : Token) (arguments : List Expr)
  | argument (callee : Value) (paren : Token) (evaluated : List Value) (rest : List Expr)
  | get (name : Token)
  | setObject (name : Token) (value : Expr)
  | setValue (o : ObjectId) (name : Token)
  | print
  | define (name : Token)
  | branch (yes : Stmt) (no : Option Stmt)
  | loopTest (condition : Expr) (body : Stmt)
  | loopBody (condition : Expr) (body : Stmt)
  | giveBack
  | superclass (name : Token) (superclass : Reference) (methods : List Function)
  | sequence (rest : List Stmt)
  | block (outer : ScopeId)
  | activation (caller : ScopeId) (result : CallResult)
  | program (rest : List Stmt)

/-- The addresses of the references that have one, by number. -/
abbrev Addresses := Std.TreeMap Nat Nat

/-- All that a program can change or depend on while it runs. -/
structure State where
  heap : Heap
  /-- The scope of the top level. -/
  globals : ScopeId
  /-- The innermost scope. -/
  scope : ScopeId
  /-- The number of calls whose callee is running. -/
  depth : Nat
  addresses : Addresses
  output : Sink
  clock : Clock

/-- The most calls that may run at one time. -/
def State.maxDepth : Nat := 10000

namespace State

/-- A state in which only the native functions are defined. -/
def initial (output : Sink) (clock : Clock) : State :=
  let (globals, heap) := Heap.empty.addScope ⟨∅, none⟩
  { heap := Native.all.foldl (fun h f => h.define globals f.name (.native f)) heap
    globals
    scope := globals
    depth := 0
    addresses := ∅
    output
    clock }

/-- Notes the addresses of references. -/
def noteAddresses (st : State) (found : List (Nat × Nat)) : State :=
  let note (known : Addresses) (entry : Nat × Nat) := known.insert entry.1 entry.2
  { st with addresses := found.foldl note st.addresses }

/-- What a reference is bound to: in the scope at its address, or at the top level without one. -/
def lookup? (st : State) (use : Reference) : Option Value :=
  match st.addresses[use.id]? with
  | some distance => st.heap.lookupAt? st.scope distance use.name.lexeme
  | none => st.heap.lookup? st.globals use.name.lexeme

/-- Gives a reference a new value. Only at the top level must the name be bound before. -/
def assign (st : State) (use : Reference) (v : Value) : Completion × State :=
  let name := use.name.lexeme
  match st.addresses[use.id]? with
  | some distance => (.normal v, { st with heap := st.heap.assignAt st.scope distance name v })
  | none =>
    match st.heap.binder? st.globals name with
    | some binder => (.normal v, { st with heap := st.heap.define binder name v })
    | none => (.faultAt use.name (.undefinedVariable name), st)

/-- Binds a name in the innermost scope. -/
def define (st : State) (name : Token) (v : Value) : State :=
  { st with heap := st.heap.define st.scope name.lexeme v }

end State

/-- A running program. -/
structure Machine where
  control : Control
  frames : List Frame
  state : State

/-- A machine halts when what it did has completed and nothing waits for it. -/
def Machine.result? (m : Machine) : Option Completion :=
  match m.control, m.frames with
  | .complete c, [] => some c
  | _, _ => none

end Lox
