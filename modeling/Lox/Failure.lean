/-!
# Failures at run time

A program stops at its first failure: a fault of its own on some line, or an output that does not
take what is printed. The wording is a function of the cause.
-/

namespace Lox

/-- What a program can do wrong while it runs. -/
inductive RuntimeFault where
  | operandNotNumber
  | operandsNotNumbers
  | operandsNotAddable
  | invalidUnaryOperator
  | invalidBinaryOperator
  | undefinedVariable (name : String)
  | undefinedProperty (name : String)
  | noProperties
  | noFields
  | superclassNotClass
  | notCallable
  | wrongArity (expected given : Nat)
  | argumentNotNumber
  | stackOverflow
  deriving Repr, DecidableEq

/-- Why an output takes no more. -/
inductive SinkFault where
  | full
  | flushRefused
  deriving Repr, DecidableEq

/-- Why a program stopped before its end. -/
inductive Failure where
  | fault (cause : RuntimeFault) (line : Nat)
  | sink (cause : SinkFault)
  deriving Repr, DecidableEq

def RuntimeFault.message : RuntimeFault → String
  | operandNotNumber => "Operand must be a number."
  | operandsNotNumbers => "Operands must be numbers."
  | operandsNotAddable => "Operands must be two numbers or two strings."
  | invalidUnaryOperator => "Invalid unary operator."
  | invalidBinaryOperator => "Invalid binary operator."
  | undefinedVariable name => "Undefined variable '" ++ name ++ "'."
  | undefinedProperty name => "Undefined property '" ++ name ++ "'."
  | noProperties => "Only instances have properties."
  | noFields => "Only instances have fields."
  | superclassNotClass => "Superclass must be a class."
  | notCallable => "Can only call functions and classes."
  | wrongArity expected given =>
    "Expected " ++ toString expected ++ " arguments but got " ++ toString given ++ "."
  | argumentNotNumber => "Argument must be a number."
  | stackOverflow => "Stack overflow."

def SinkFault.message : SinkFault → String
  | full => "sink full"
  | flushRefused => "flush failed"

def Failure.text : Failure → String
  | fault cause line => cause.message ++ "\n[line " ++ toString line ++ "]"
  | sink cause => cause.message

end Lox
