import Lox.Failure
import Lox.Heap
/-!
# Operators

What operators make of values that have been computed. Faults are reported on the line of the
operator.
-/

namespace Lox

namespace Operator

/-- A fault on the line of a token. -/
def faultAt (t : Token) (cause : RuntimeFault) : Failure := .fault cause t.line

def unary (operator : Token) (v : Value) : Except Failure Value :=
  match operator.kind with
  | .symbol .minus =>
    match v with
    | .number n => .ok (.number (-n))
    | _ => .error (faultAt operator .operandNotNumber)
  | .symbol .bang => .ok (.bool !v.isTruthy)
  | _ => .error (faultAt operator .invalidUnaryOperator)

/-- Sums of numbers, and texts put together if one side is a string. -/
def plus (h : Heap) (operator : Token) : Value → Value → Except Failure Value
  | .number a, .number b => .ok (.number (a + b))
  | .string a, b => .ok (.string (a ++ b.text h))
  | a, .string b => .ok (.string (a.text h ++ b))
  | _, _ => .error (faultAt operator .operandsNotAddable)

/-- Arithmetic and order, on numbers alone. -/
def numeric (operator : Token) (a b : Float) : Except Failure Value :=
  match operator.kind with
  | .symbol .minus => .ok (.number (a - b))
  | .symbol .star => .ok (.number (a * b))
  | .symbol .slash => .ok (.number (a / b))
  | .symbol .greater => .ok (.bool (b < a))
  | .symbol .greaterEqual => .ok (.bool (b ≤ a))
  | .symbol .less => .ok (.bool (a < b))
  | .symbol .lessEqual => .ok (.bool (a ≤ b))
  | _ => .error (faultAt operator .invalidBinaryOperator)

def binary (h : Heap) (operator : Token) (left right : Value) : Except Failure Value :=
  match operator.kind with
  | .symbol .equalEqual => .ok (.bool (left.same right))
  | .symbol .bangEqual => .ok (.bool !left.same right)
  | .symbol .plus => plus h operator left right
  | _ =>
    match left, right with
    | .number a, .number b => numeric operator a b
    | _, _ => .error (faultAt operator .operandsNotNumbers)

/-- Whether the left side of a logical operator settles the result. -/
def settles (operator : Token) (left : Value) : Bool :=
  if operator.kind = .keyword .orWord then left.isTruthy else !left.isTruthy

end Operator

end Lox
