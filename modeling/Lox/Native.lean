import Lox.Failure
import Lox.Value
/-!
# Native functions

Four of the five native functions look at the first of their arguments only, which has to be a
number. What the clock shows is not for a program to decide: the times come from outside, and a
state carries all that are ever going to be read. Sleeping is left to the outside as well. A state
keeps count of it, and that is all.
-/

namespace Lox

/-- The readings of a clock, in milliseconds since some fixed moment. What the clock shows at a
reading is any function of the number of readings before it and of the milliseconds that have been
slept by then. So every sequence of times is one of readings, whatever is slept in between; the
times need not differ, nor go up. -/
structure Readings where
  time : Nat → Nat → Int
  /-- The number of readings so far. -/
  taken : Nat
  /-- The milliseconds that have been slept so far. -/
  slept : Nat

/-- The number `n` is a clock that starts there, and goes on by a millisecond with each reading and
by what is slept. -/
instance (n : Nat) : OfNat Readings n where
  ofNat := ⟨fun taken slept => n + taken + slept, 0, 0⟩

/-- The clock of a program. -/
structure Clock where
  readings : Readings

namespace Clock

/-- The time of the next reading, in seconds. -/
def seconds (c : Clock) : Float :=
  Float.ofInt (c.readings.time c.readings.taken c.readings.slept) / 1000.0

/-- The clock once it has been read. -/
def next (c : Clock) : Clock := ⟨{ c.readings with taken := c.readings.taken + 1 }⟩

/-- The clock once the program has slept. -/
def sleep (c : Clock) (millis : Nat) : Clock :=
  ⟨{ c.readings with slept := c.readings.slept + millis }⟩

end Clock

namespace Native

/-- The first argument, if it is a number. -/
def numberArgument (args : List Value) : Except RuntimeFault Float :=
  match args.head? with
  | some (.number n) => .ok n
  | _ => .error .argumentNotNumber

/-- Calls a native function. The number of arguments has been checked before, or is of no
concern. -/
def call (f : Native) (args : List Value) (clock : Clock) : Except RuntimeFault Value × Clock :=
  match f with
  | .clock => (.ok (.number clock.seconds), clock.next)
  | .sleep =>
    match numberArgument args with
    | .ok millis =>
      (.ok .nil, if millis > 0.0 then clock.sleep millis.toUInt64.toNat else clock)
    | .error fault => (.error fault, clock)
  | .sqrt => (return .number (← numberArgument args).sqrt, clock)
  | .sin => (return .number (← numberArgument args).sin, clock)
  | .cos => (return .number (← numberArgument args).cos, clock)

end Native

end Lox
