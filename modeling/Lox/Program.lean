import Lox.Token
/-!
# Programs

A program is a list of statements. Wherever it names something that a scope may hold, the tree has
a reference: the token that names it, with a number of its own. Two uses of one name are two
references, so what is known about a use is kept under its number and not under its name.

There is no counting loop. It is read as the loop it stands for.
-/

namespace Lox

/-- One use of a name, told from all others by its number. -/
structure Reference where
  id : Nat
  name : Token
  deriving DecidableEq

/-- A constant written in the program. -/
inductive Literal where
  | nil
  | bool (value : Bool)
  | number (value : Float)
  | string (value : String)
  deriving DecidableEq

/--
Expressions. Operators, names and closing parentheses stay tokens, because faults at run time are
reported on their lines. The references of `this` and `super` name the keyword.
-/
inductive Expr where
  | literal (value : Literal)
  | unary (operator : Token) (operand : Expr)
  | binary (left : Expr) (operator : Token) (right : Expr)
  | logical (left : Expr) (operator : Token) (right : Expr)
  | grouping (inner : Expr)
  | ident (use : Reference)
  | assign (use : Reference) (value : Expr)
  | call (callee : Expr) (paren : Token) (arguments : List Expr)
  | get (object : Expr) (name : Token)
  | set (object : Expr) (name : Token) (value : Expr)
  | this (use : Reference)
  | super (use : Reference) (method : Token)

mutual

/-- Statements and declarations. -/
inductive Stmt where
  | expression (e : Expr)
  | print (e : Expr)
  | variableDecl (name : Token) (value : Option Expr)
  | block (body : List Stmt)
  | conditional (condition : Expr) (yes : Stmt) (no : Option Stmt)
  | loop (condition : Expr) (body : Stmt)
  | functionDecl (declared : Function)
  | giveBack (keyword : Token) (value : Option Expr)
  | classDecl (name : Token) (superclass : Option Reference) (methods : List Function)

/-- The declaration of a function or of a method. -/
inductive Function where
  | mk (name : Token) (params : List Token) (body : List Stmt)

end

namespace Function

def name : Function → Token
  | mk name _ _ => name

def params : Function → List Token
  | mk _ params _ => params

def body : Function → List Stmt
  | mk _ _ body => body

/-- The number of arguments that a call must give. -/
def arity (f : Function) : Nat := f.params.length

/-- A method of this name initializes the instances of its class. -/
def initializerName : String := "init"

/-- Whether the declaration, as a method, initializes instances. -/
def isNamedInitializer (f : Function) : Bool := f.name.lexeme == initializerName

end Function

end Lox
