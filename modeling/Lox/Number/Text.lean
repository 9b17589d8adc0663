import Lox.Number.Shortest
/-!
# Texts of numbers

Numbers are written in two ways. The canonical text, which programs print, is positional between
`1e-3` and `1e7` and scientific beyond. The plain text, which token listings show, is positional
throughout. Both take the digits of the shortest decimal that reads back.

A literal is read by rounding its exact decimal to the nearest double.
-/

namespace Lox.Number

-- powers of natural numbers are those of the core library, under any imports
attribute [local instance (2000)] instPowNat

namespace Decimal

/-- Decimal digits, most significant first. -/
def digitText (d : Decimal) : List Char := Nat.toDigits 10 d.digits

/-- Positional notation, with a point only if there is a fraction. -/
def positional (d : Decimal) : String :=
  let digits := d.digitText
  if 0 ≤ d.place then
    String.ofList (digits ++ List.replicate d.place.toNat '0')
  else
    let fraction := (-d.place).toNat
    let padded := List.replicate (fraction + 1 - digits.length) '0' ++ digits
    let whole := padded.length - fraction
    String.ofList (padded.take whole ++ '.' :: padded.drop whole)

/-- Scientific notation: one digit, a point, at least one more digit, and the power of ten. -/
def scientific (d : Decimal) : String :=
  let digits := d.digitText
  let power := d.place + (digits.length - 1 : Nat)
  let fraction := if digits.length ≤ 1 then ['0'] else digits.drop 1
  String.ofList (digits.take 1 ++ '.' :: fraction) ++ "E" ++ toString power

end Decimal

/-- Writes the sign in front of the text of a magnitude. -/
def signed (negative : Bool) (text : String) : String :=
  if negative then "-" ++ text else text

/-- Whether the canonical text is scientific: from `1e7` on, and below `1e-3` unless zero. -/
def Magnitude.isExtreme (size : Magnitude) : Bool :=
  let scale := 2 ^ (-size.exponent).toNat
  let value := size.mantissa * 2 ^ size.exponent.toNat
  value ≥ 10 ^ (7 : Nat) * scale || (value ≠ 0 && value * 10 ^ (3 : Nat) < scale)

/-- The canonical text of a number. -/
def text (n : Float) : String :=
  match read n with
  | .nan => "NaN"
  | .infinite negative => signed negative "Infinity"
  | .finite negative size =>
    signed negative <|
      if size.isExtreme then size.shortest.scientific
      else match size.whole? with
        | some whole => toString whole
        | none => size.shortest.positional

/-- The plain text of a number, without an exponent whatever its size. -/
def plainText (n : Float) : String :=
  match read n with
  | .nan => "NaN"
  | .infinite negative => signed negative "inf"
  | .finite negative size => signed negative size.shortest.positional

/-- The text of a number with one decimal if it is whole and fits 63 bits, and plain otherwise. -/
def literalText (n : Float) : String :=
  match read n with
  | .finite negative size =>
    match size.whole? with
    | some whole =>
      if whole < 2 ^ (63 : Nat) then signed (negative && whole ≠ 0) (toString whole) ++ ".0"
      else plainText n
    | none => plainText n
  | _ => plainText n

/-- Two numbers are the same value when their bits agree or both are not a number; in particular
the two zeros differ. -/
def same (a b : Float) : Bool :=
  if a.isNaN || b.isNaN then a.isNaN && b.isNaN else a.toBits == b.toBits

/-- The natural number that decimal digits write. -/
def natOfDigits (digits : List Char) : Nat :=
  digits.foldl (fun n c => n * 10 + (c.toNat - '0'.toNat)) 0

/-- The double nearest to the decimal `whole.fraction`. -/
def ofDigits (whole fraction : List Char) : Float :=
  Float.ofScientific (natOfDigits (whole ++ fraction)) true fraction.length

end Lox.Number
