/-!
# Doubles as exact binary fractions

A finite double is a sign and a magnitude `mantissa * 2 ^ exponent`. This file reads that form off
the bit pattern, together with the two questions that the texts of numbers ask of it: whether the
magnitude is a whole number, and which reals round to it.
-/

namespace Lox.Number

-- powers of natural numbers are those of the core library, under any imports
attribute [local instance (2000)] instPowNat

/-- The magnitude `mantissa * 2 ^ exponent` of a finite double. -/
structure Magnitude where
  mantissa : Nat
  exponent : Int
  deriving Repr, DecidableEq

/-- What the bits of a double stand for. -/
inductive Reading where
  | nan
  | infinite (negative : Bool)
  | finite (negative : Bool) (size : Magnitude)
  deriving Repr, DecidableEq

/-- Splits 64 bits into sign, eleven bits of exponent and 52 bits of fraction. -/
def readBits (bits : Nat) : Reading :=
  let negative : Bool := bits / 2 ^ (63 : Nat) % 2 == 1
  let biased : Nat := bits / 2 ^ (52 : Nat) % 2048
  let fraction : Nat := bits % 2 ^ (52 : Nat)
  if biased = 2047 then
    if fraction = 0 then .infinite negative else .nan
  else if biased = 0 then
    .finite negative ⟨fraction, -1074⟩
  else
    .finite negative ⟨2 ^ (52 : Nat) + fraction, (biased : Int) - 1075⟩

/-- The exact meaning of a double. -/
def read (n : Float) : Reading := readBits n.toBits.toNat

namespace Magnitude

/-- The magnitude as a whole number, if it is one. -/
def whole? (size : Magnitude) : Option Nat :=
  if 0 ≤ size.exponent then
    some (size.mantissa * 2 ^ size.exponent.toNat)
  else
    let scale := 2 ^ (-size.exponent).toNat
    if size.mantissa % scale = 0 then some (size.mantissa / scale) else none

/-- The distance to the next smaller double is half of the distance to the next larger one at a
power of two, the least normal one excepted. -/
def isNarrowBelow (size : Magnitude) : Bool :=
  size.mantissa = 2 ^ (52 : Nat) && size.exponent > -1074

end Magnitude

end Lox.Number
