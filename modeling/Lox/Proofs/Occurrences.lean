import Lox.Proofs.Scopes.Sites

/-!
# What stands around the places of a program

A program declares names, uses names, returns from functions, and names superclasses. Each of these
stands somewhere: in scopes inside scopes, of blocks, of functions, and of `this` and `super`, of which
each has some statements before the place. A scope declares the names of these statements, and of the
parameters of its function. That is all that the rules on scopes are about, and nothing here follows the
walk that checks them.

A statement counts as being there from its own name on. So a variable is declared where its initial value
is computed, and a function and a class are declared where their bodies stand. The statements of the top
level are in no scope.
-/

namespace Lox

/-! ## Enclosing scopes -/

/-- What a scope is for. -/
inductive Enclosure.Kind where
  | block
  /-- The parameters of a function, as far as they have been declared, and its body. -/
  | function (declared : Function) (isMethod : Bool) (params : List Token)
  /-- The scope of `this` around the methods of a class, which may have a superclass. -/
  | receiver (inherits : Bool)
  /-- The scope of `super` around that of `this`. -/
  | parent

/-- A scope around a place, with the statements in it up to the one around the place, last first. -/
structure Enclosure where
  kind : Enclosure.Kind
  before : List Stmt

namespace Enclosure

/-- The names that a scope has before any of its statements. -/
def Kind.names : Kind → List String
  | block => []
  | function _ _ params => params.map Token.lexeme
  | receiver _ => ["this"]
  | parent => ["super"]

/-- The names that a scope declares before the place. -/
def names (e : Enclosure) : List String :=
  (e.before.filterMap Scoping.declaredName?).map Token.lexeme ++ e.kind.names

/-- The function that the scope is for, and whether it is a method. -/
def function? (e : Enclosure) : Option (Function × Bool) :=
  match e.kind with
  | .function declared isMethod _ => some (declared, isMethod)
  | _ => none

/-- Whether the class has a superclass whose methods the scope is around. -/
def inherits? (e : Enclosure) : Option Bool :=
  match e.kind with
  | .receiver inherits => some inherits
  | _ => none

end Enclosure

/-- The scopes around a place, innermost first. -/
abbrev Surroundings := List Enclosure

namespace Surroundings

/-- The names that the innermost scope declares before the place. There are none at the top level. -/
def names (A : Surroundings) : List String := A.head?.elim [] Enclosure.names

/-- The innermost function, and whether it is a method. -/
def function? (A : Surroundings) : Option (Function × Bool) := A.findSome? Enclosure.function?

/-- Whether the innermost class has a superclass, if there is a class. -/
def inherits? (A : Surroundings) : Option Bool := A.findSome? Enclosure.inherits?

/-- The name is declared this number of scopes outwards, and in no scope further in. -/
def DeclaresAt (A : Surroundings) (name : String) (distance : Nat) : Prop :=
  (∃ e, A[distance]? = some e ∧ name ∈ e.names) ∧
    ∀ i, i < distance → ∀ e, A[i]? = some e → name ∉ e.names

/-- The surroundings once a statement has begun. -/
def beginning (A : Surroundings) (s : Stmt) : Surroundings :=
  match A with
  | [] => []
  | e :: outer => { e with before := s :: e.before } :: outer

/-- The surroundings of the statements in a block. -/
def inBlock (A : Surroundings) : Surroundings := ⟨.block, []⟩ :: A

/-- The surroundings after some parameters of a function. -/
def inFunction (A : Surroundings) (f : Function) (isMethod : Bool) (params : List Token) :
    Surroundings :=
  ⟨.function f isMethod params, []⟩ :: A

/-- The surroundings of the methods of a class. -/
def inClass (A : Surroundings) (superclass : Option Reference) : Surroundings :=
  match superclass with
  | some _ => ⟨.receiver true, []⟩ :: ⟨.parent, []⟩ :: A
  | none => ⟨.receiver false, []⟩ :: A

end Surroundings

/-! ## Occurrences -/

/-- What the rules on scopes are about. -/
inductive Node where
  /-- The name of a variable, of a function, of a class or of a parameter. -/
  | declaration (name : Token)
  | use (u : Use)
  | giveBack (keyword : Token) (hasValue : Bool)
  | superclass (name : Token) (use : Reference)

/-- The declaration of a variable whose initial value is computed. -/
structure Pending where
  name : Token
  around : Surroundings

/-- The scope in which the variable is declared did not have its name before. -/
def Pending.isFresh (p : Pending) : Bool := !p.around.isEmpty && !p.around.names.contains p.name.lexeme

/-- A node of a program, with the scopes around it, and with the variable whose initial value it is a
part of. -/
structure Occurrence where
  node : Node
  around : Surroundings
  pending : Option Pending

namespace Occurrence

/-- The rule that is broken, with the token at fault. -/
def breach? (o : Occurrence) : Option (Token × ScopeFault) :=
  match o.node with
  | .declaration name =>
    if name.lexeme ∈ o.around.names then some (name, .alreadyDeclared) else none
  | .use ⟨.read, use⟩ =>
    if o.pending.any fun p => p.isFresh && p.name.lexeme == use.name.lexeme then
      some (use.name, .readInOwnInitializer)
    else none
  | .use ⟨.assign, _⟩ => none
  | .use ⟨.this, use⟩ =>
    match o.around.inherits? with
    | none => some (use.name, .thisOutsideClass)
    | some _ => none
  | .use ⟨.super, use⟩ =>
    match o.around.inherits? with
    | none => some (use.name, .superOutsideClass)
    | some false => some (use.name, .superWithoutSuperclass)
    | some true => none
  | .giveBack keyword hasValue =>
    match o.around.function? with
    | none => some (keyword, .returnAtTopLevel)
    | some (f, isMethod) =>
      if hasValue && isMethod && f.isNamedInitializer then
        some (keyword, .returnValueFromInitializer)
      else none
  | .superclass name use =>
    if use.name.lexeme = name.lexeme then some (use.name, .inheritsFromItself) else none

/-- The diagnostic about the rule that is broken. -/
def diagnostic? (o : Occurrence) : Option Diagnostic :=
  o.breach?.map fun breach => breach.1.diagnostic (.scoping breach.2)

/-- The reference of a use. -/
def reference? (o : Occurrence) : Option Reference :=
  match o.node with
  | .use u => some u.reference
  | _ => none

end Occurrence

/-- The uses in an expression, in the order in which they are come by. -/
def Expr.occurrences (A : Surroundings) (pending : Option Pending) (e : Expr) : List Occurrence :=
  e.uses.map fun u => ⟨.use u, A, pending⟩

/-- The parameters of a function from some of them on. -/
def Function.paramOccurrences (A : Surroundings) (f : Function) (isMethod : Bool) :
    (before : List Token) → List Token → List Occurrence
  | _, [] => []
  | before, p :: ps =>
    ⟨.declaration p, A.inFunction f isMethod before, none⟩
      :: paramOccurrences A f isMethod (before ++ [p]) ps

/-- The head of a class: a superclass is named after the class is. -/
def Stmt.superclassOccurrences (A : Surroundings) (name : Token) :
    Option Reference → List Occurrence
  | some use => [⟨.superclass name use, A, none⟩, ⟨.use ⟨.read, use⟩, A, none⟩]
  | none => []

mutual

/-- All occurrences in a statement, in the order in which they are come by. -/
def Stmt.occurrences (A : Surroundings) : Stmt → List Occurrence
  | .expression e => e.occurrences A none
  | .print e => e.occurrences A none
  | .variableDecl name value =>
    ⟨.declaration name, A, none⟩
      :: value.elim [] (Expr.occurrences (A.beginning (.variableDecl name value)) (some ⟨name, A⟩))
  | .block body => Stmt.occurrencesAll A.inBlock body
  | .conditional condition yes none => condition.occurrences A none ++ Stmt.occurrences A yes
  | .conditional condition yes (some no) =>
    condition.occurrences A none ++ (Stmt.occurrences A yes ++ Stmt.occurrences A no)
  | .loop condition body => condition.occurrences A none ++ Stmt.occurrences A body
  | .functionDecl declared =>
    ⟨.declaration declared.name, A, none⟩
      :: Function.occurrences (A.beginning (.functionDecl declared)) false declared
  | .giveBack keyword value =>
    ⟨.giveBack keyword value.isSome, A, none⟩ :: value.elim [] (Expr.occurrences A none)
  | .classDecl name superclass methods =>
    let inner := A.beginning (.classDecl name superclass methods)
    ⟨.declaration name, A, none⟩ :: (Stmt.superclassOccurrences inner name superclass
      ++ Function.occurrencesAll (inner.inClass superclass) methods)

/-- All occurrences in statements of one scope. -/
def Stmt.occurrencesAll (A : Surroundings) : List Stmt → List Occurrence
  | [] => []
  | s :: ss => Stmt.occurrences A s ++ Stmt.occurrencesAll (A.beginning s) ss

/-- All occurrences in a function, from its parameters on. -/
def Function.occurrences (A : Surroundings) (isMethod : Bool) : Function → List Occurrence
  | .mk name params body =>
    Function.paramOccurrences A (.mk name params body) isMethod [] params
      ++ Stmt.occurrencesAll (A.inFunction (.mk name params body) isMethod params) body

/-- All occurrences in the methods of a class. -/
def Function.occurrencesAll (A : Surroundings) : List Function → List Occurrence
  | [] => []
  | f :: fs => Function.occurrences A true f ++ Function.occurrencesAll A fs

end

/-- All occurrences in a program. -/
def programOccurrences (P : List Stmt) : List Occurrence := Stmt.occurrencesAll [] P

end Lox
