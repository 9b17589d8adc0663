import Lox.Number.Text
/-!
# Values

Numbers, strings, booleans and `nil` are values in themselves. Functions, classes and objects, the
instances of classes, live in the heap; as values they are identifiers, and two of them are the
same value only if they are the same thing in the heap.
-/

namespace Lox

/-- A scope in the heap. -/
structure ScopeId where
  index : Nat
  deriving Repr, DecidableEq

/-- A function in the heap. -/
structure FunctionId where
  index : Nat
  deriving Repr, DecidableEq

/-- A class in the heap. -/
structure ClassId where
  index : Nat
  deriving Repr, DecidableEq

/-- An instance of a class in the heap. -/
structure ObjectId where
  index : Nat
  deriving Repr, DecidableEq

/-- The functions that every session starts with. -/
inductive Native where
  | clock
  | sleep
  | sqrt
  | sin
  | cos
  deriving Repr, DecidableEq

namespace Native

/-- In the order in which a session defines them. -/
def all : List Native := [clock, sleep, sqrt, sin, cos]

def name : Native → String
  | clock => "clock"
  | sleep => "sleep"
  | sqrt => "sqrt"
  | sin => "sin"
  | cos => "cos"

def arity : Native → Nat
  | clock => 0
  | _ => 1

end Native

/-- What an expression evaluates to. -/
inductive Value where
  | nil
  | bool (value : Bool)
  | number (value : Float)
  | string (value : String)
  | native (f : Native)
  | function (f : FunctionId)
  | classObject (c : ClassId)
  | object (o : ObjectId)
  deriving DecidableEq

namespace Value

instance : Inhabited Value := ⟨.nil⟩

/-- Everything but `nil` and `false` counts as true in a condition. -/
def isTruthy : Value → Bool
  | .nil => false
  | .bool value => value
  | _ => true

/-- Equality of the language. It differs from equality only on numbers: see `Number.same`. -/
def same : Value → Value → Bool
  | .number a, .number b => Number.same a b
  | a, b => a = b

end Value

end Lox
