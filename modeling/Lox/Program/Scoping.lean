import Lox.Diagnostic
import Lox.Program
/-!
# Lexical scopes

A static walk through a program finds, for every use of a name, the scope that the name comes from,
and every breach of the rules on scopes.

Scopes are blocks, functions with their parameters, the scope of `this` around the methods of a
class, and the scope of `super` around that one if the class has a superclass. The top level of a
program is no scope: what is declared there is found by name while the program runs. The address of
a use is the number of scopes to leave, going outwards, to reach the first that has the name.

A statement leaves the scopes as they were but for the name that it declares. So the walk needs no
state: what is found in a statement is a function of the scopes around it.
-/

namespace Lox

namespace Scoping

/-- The names of one scope, each with whether it can be read yet. The latest entry counts. -/
abbrev Frame := List (String × Bool)

/-- Whether the scope has the name. -/
def Frame.has (frame : Frame) (name : String) : Bool := (frame.lookup name).isSome

/-- The scopes around a place in the program, innermost first. -/
abbrev Scopes := List Frame

/-- The innermost function around a place in the program. -/
inductive FunctionContext where
  | none
  | function
  | initializer
  | method
  deriving Repr, DecidableEq

/-- The innermost class around a place in the program. -/
inductive ClassContext where
  | none
  | withoutSuperclass
  | withSuperclass
  deriving Repr, DecidableEq

/-- The function and the class that a place in the program belongs to. -/
structure Context where
  function : FunctionContext
  inClass : ClassContext
  deriving Repr, DecidableEq

/-- What a walk finds: addresses of references, by number, and breaches of rules, in order. -/
structure Findings where
  addresses : List (Nat × Nat)
  faults : List Diagnostic
  deriving DecidableEq

namespace Findings

def nothing : Findings := ⟨[], []⟩

def fault (t : Token) (cause : ScopeFault) : Findings := ⟨[], [t.diagnostic (.scoping cause)]⟩

/-- What is found first comes first. -/
instance : Append Findings where
  append a b := ⟨a.addresses ++ b.addresses, a.faults ++ b.faults⟩

@[simp] theorem append_addresses (a b : Findings) :
    (a ++ b).addresses = a.addresses ++ b.addresses := rfl

@[simp] theorem append_faults (a b : Findings) : (a ++ b).faults = a.faults ++ b.faults := rfl

/-- The fault, if the condition holds. -/
def faultIf (condition : Bool) (t : Token) (cause : ScopeFault) : Findings :=
  if condition then fault t cause else nothing

end Findings

/-! ## Scopes -/

/-- The number of scopes to leave to find the name, if any scope has it. -/
def addressOf? (scopes : Scopes) (name : String) : Option Nat :=
  scopes.findIdx? (·.has name)

/-- Enters a name that cannot be read yet. A name that the scope has already stays as it is. -/
def declare (scopes : Scopes) (name : String) : Scopes :=
  match scopes with
  | [] => []
  | frame :: outer => (if frame.has name then frame else (name, false) :: frame) :: outer

/-- Makes a name of the innermost scope ready to be read. -/
def define (scopes : Scopes) (name : String) : Scopes :=
  match scopes with
  | [] => []
  | frame :: outer => ((name, true) :: frame) :: outer

/-- A scope may declare a name once. -/
def declaring (scopes : Scopes) (name : Token) : Findings :=
  .faultIf (scopes.head?.any (·.has name.lexeme)) name .alreadyDeclared

/-- The address of a reference, if it has one. -/
def locating (scopes : Scopes) (use : Reference) : Findings :=
  match addressOf? scopes use.name.lexeme with
  | some distance => ⟨[(use.id, distance)], []⟩
  | none => .nothing

/-- Reading a name of the innermost scope while its own initial value is being computed is at
fault, but the name is still located. -/
def reading (scopes : Scopes) (use : Reference) : Findings :=
  .faultIf (scopes.head?.any (·.lookup use.name.lexeme == some false)) use.name
      .readInOwnInitializer
    ++ locating scopes use

/-! ## Expressions -/

mutual

/-- What is found in an expression. -/
def ofExpr (context : ClassContext) (scopes : Scopes) : Expr → Findings
  | .literal _ => .nothing
  | .unary _ operand => ofExpr context scopes operand
  | .binary left _ right => ofExpr context scopes left ++ ofExpr context scopes right
  | .logical left _ right => ofExpr context scopes left ++ ofExpr context scopes right
  | .grouping inner => ofExpr context scopes inner
  | .ident use => reading scopes use
  | .assign use value => ofExpr context scopes value ++ locating scopes use
  | .call callee _ arguments => ofExpr context scopes callee ++ ofExprs context scopes arguments
  | .get object _ => ofExpr context scopes object
  | .set object _ value => ofExpr context scopes value ++ ofExpr context scopes object
  | .this use =>
    match context with
    | .none => .fault use.name .thisOutsideClass
    | _ => locating scopes use
  | .super use _ =>
    (match context with
      | .none => .fault use.name .superOutsideClass
      | .withoutSuperclass => .fault use.name .superWithoutSuperclass
      | .withSuperclass => .nothing)
      ++ locating scopes use

/-- What is found in expressions, in order. -/
def ofExprs (context : ClassContext) (scopes : Scopes) : List Expr → Findings
  | [] => .nothing
  | e :: es => ofExpr context scopes e ++ ofExprs context scopes es

end

/-! ## Statements -/

/-- The name that a statement leaves behind in the scope it stands in. -/
def declaredName? : Stmt → Option Token
  | .variableDecl name _ => some name
  | .functionDecl declared => some declared.name
  | .classDecl name _ _ => some name
  | _ => none

/-- The scopes after a statement. -/
def after (scopes : Scopes) (s : Stmt) : Scopes :=
  match declaredName? s with
  | some name => define scopes name.lexeme
  | none => scopes

/-- A scope that holds some of the parameters of a function, and what entering the others finds. -/
def enterParams : Frame → List Token → Frame × Findings
  | frame, [] => (frame, .nothing)
  | frame, p :: ps =>
    let (full, findings) := enterParams ((p.lexeme, true) :: frame) ps
    (full, .faultIf (frame.has p.lexeme) p .alreadyDeclared ++ findings)

/-- The function context inside a method. -/
def methodContext (method : Function) : FunctionContext :=
  if method.isNamedInitializer then .initializer else .method

/-- The scopes around the methods of a class. -/
def methodScopes (scopes : Scopes) (superclass : Option Reference) : Scopes :=
  match superclass with
  | some _ => [("this", true)] :: [("super", true)] :: scopes
  | none => [("this", true)] :: scopes

/-- What is found in the head of a class: its superclass may not be itself. -/
def ofSuperclass (scopes : Scopes) (name : Token) : Option Reference → Findings
  | some superclass =>
    .faultIf (superclass.name.lexeme == name.lexeme) superclass.name .inheritsFromItself
      ++ reading scopes superclass
  | none => .nothing

def ofExpr? (context : ClassContext) (scopes : Scopes) : Option Expr → Findings
  | some e => ofExpr context scopes e
  | none => .nothing

mutual

/-- What is found in a statement. -/
def ofStmt (context : Context) (scopes : Scopes) : Stmt → Findings
  | .expression e => ofExpr context.inClass scopes e
  | .print e => ofExpr context.inClass scopes e
  | .variableDecl name value =>
    declaring scopes name ++ ofExpr? context.inClass (declare scopes name.lexeme) value
  | .block body => ofStmts context ([] :: scopes) body
  | .conditional condition yes none =>
    ofExpr context.inClass scopes condition ++ ofStmt context scopes yes
  | .conditional condition yes (some no) =>
    ofExpr context.inClass scopes condition ++ ofStmt context scopes yes
      ++ ofStmt context scopes no
  | .loop condition body => ofExpr context.inClass scopes condition ++ ofStmt context scopes body
  | .functionDecl declared =>
    declaring scopes declared.name
      ++ ofFunction ⟨.function, context.inClass⟩ (define scopes declared.name.lexeme) declared
  | .giveBack keyword value =>
    .faultIf (context.function = .none) keyword .returnAtTopLevel
      ++ .faultIf (value.isSome && context.function = .initializer) keyword
        .returnValueFromInitializer
      ++ ofExpr? context.inClass scopes value
  | .classDecl name superclass methods =>
    let scopes' := define scopes name.lexeme
    let inClass : ClassContext :=
      if superclass.isSome then .withSuperclass else .withoutSuperclass
    declaring scopes name ++ ofSuperclass scopes' name superclass
      ++ ofMethods inClass (methodScopes scopes' superclass) methods

/-- What is found in statements of one scope, each of which sees the names declared before. -/
def ofStmts (context : Context) (scopes : Scopes) : List Stmt → Findings
  | [] => .nothing
  | s :: ss => ofStmt context scopes s ++ ofStmts context (after scopes s) ss

/-- What is found in a function: its body shares the scope of its parameters. -/
def ofFunction (context : Context) (scopes : Scopes) : Function → Findings
  | .mk _ params body =>
    (enterParams [] params).2 ++ ofStmts context ((enterParams [] params).1 :: scopes) body

/-- What is found in the methods of a class. -/
def ofMethods (inClass : ClassContext) (scopes : Scopes) : List Function → Findings
  | [] => .nothing
  | f :: fs => ofFunction ⟨methodContext f, inClass⟩ scopes f ++ ofMethods inClass scopes fs

end

/-- What is found in a program. -/
def ofProgram (program : List Stmt) : Findings := ofStmts ⟨.none, .none⟩ [] program

end Scoping

end Lox
