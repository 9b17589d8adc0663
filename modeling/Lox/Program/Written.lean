import Lox.Program
/-!
# The canonical written form of programs

Trees are written in parentheses with the operator in front: `1 + 2 * 3` is `(+ 1 (* 2 3))`. Lines
and the numbers of references are left out.
-/

namespace Lox

def Literal.written : Literal → String
  | nil => "nil"
  | bool value => toString value
  | number value => Number.text value
  | string value => value

mutual

/-- The written form of an expression. -/
def Expr.written : Expr → String
  | .literal value => value.written
  | .unary operator operand => "(" ++ operator.lexeme ++ " " ++ operand.written ++ ")"
  | .binary left operator right =>
    "(" ++ operator.lexeme ++ " " ++ left.written ++ " " ++ right.written ++ ")"
  | .logical left operator right =>
    "(" ++ operator.lexeme ++ " " ++ left.written ++ " " ++ right.written ++ ")"
  | .grouping inner => "(group " ++ inner.written ++ ")"
  | .ident use => use.name.lexeme
  | .assign use value => "(= " ++ use.name.lexeme ++ " " ++ value.written ++ ")"
  | .call callee _ arguments => "(call " ++ callee.written ++ Expr.writtenAll arguments ++ ")"
  | .get object name => "(. " ++ object.written ++ " " ++ name.lexeme ++ ")"
  | .set object name value =>
    "(= " ++ object.written ++ " " ++ name.lexeme ++ " " ++ value.written ++ ")"
  | .this _ => "this"
  | .super _ method => "(super " ++ method.lexeme ++ ")"

/-- The written forms of expressions, each after a blank. -/
def Expr.writtenAll : List Expr → String
  | [] => ""
  | e :: es => " " ++ e.written ++ Expr.writtenAll es

end

mutual

/-- The written form of a statement. -/
def Stmt.written : Stmt → String
  | .expression e => "(; " ++ e.written ++ ")"
  | .print e => "(print " ++ e.written ++ ")"
  | .variableDecl name none => "(var " ++ name.lexeme ++ ")"
  | .variableDecl name (some value) => "(var " ++ name.lexeme ++ " " ++ value.written ++ ")"
  | .block body => "(block" ++ Stmt.writtenAll body ++ ")"
  | .conditional condition yes none => "(if " ++ condition.written ++ " " ++ yes.written ++ ")"
  | .conditional condition yes (some no) =>
    "(if " ++ condition.written ++ " " ++ yes.written ++ " " ++ no.written ++ ")"
  | .loop condition body => "(while " ++ condition.written ++ " " ++ body.written ++ ")"
  | .functionDecl declared => declared.written
  | .giveBack _ none => "(return)"
  | .giveBack _ (some value) => "(return " ++ value.written ++ ")"
  | .classDecl name none methods =>
    "(class " ++ name.lexeme ++ Function.writtenAll methods ++ ")"
  | .classDecl name (some superclass) methods =>
    "(class " ++ name.lexeme ++ " < " ++ superclass.name.lexeme
      ++ Function.writtenAll methods ++ ")"

/-- The written forms of statements, each after a blank. -/
def Stmt.writtenAll : List Stmt → String
  | [] => ""
  | s :: ss => " " ++ s.written ++ Stmt.writtenAll ss

/-- The written form of a function or of a method. -/
def Function.written : Function → String
  | .mk name params body =>
    "(fun " ++ name.lexeme ++ " (" ++ " ".intercalate (params.map Token.lexeme) ++ ")"
      ++ Stmt.writtenAll body ++ ")"

/-- The written forms of methods, each after a blank. -/
def Function.writtenAll : List Function → String
  | [] => ""
  | f :: fs => " " ++ f.written ++ Function.writtenAll fs

end

end Lox
