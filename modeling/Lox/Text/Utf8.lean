/-!
# Text from bytes

Bytes that are not UTF-8 are reported with the place of the first sequence that is at fault, and
with its length up to the byte that cannot follow, unless the bytes just end too early.
-/

namespace Lox.Text

/-- The first fault in bytes that are not UTF-8. Without a length the last sequence is cut off. -/
structure Malformed where
  index : Nat
  length : Option Nat
  deriving Repr, DecidableEq

def Malformed.message (m : Malformed) : String :=
  match m.length with
  | some length =>
    "invalid utf-8 sequence of " ++ toString length ++ " bytes from index " ++ toString m.index
  | none => "incomplete utf-8 byte sequence from index " ++ toString m.index

/-- The ranges of the bytes that have to follow a first byte, if it can be a first byte. -/
def followers? (first : UInt8) : Option (List (UInt8 × UInt8)) :=
  if first < 0x80 then some []
  else if first < 0xc2 then none
  else if first < 0xe0 then some [(0x80, 0xbf)]
  else if first = 0xe0 then some [(0xa0, 0xbf), (0x80, 0xbf)]
  else if first = 0xed then some [(0x80, 0x9f), (0x80, 0xbf)]
  else if first < 0xf0 then some [(0x80, 0xbf), (0x80, 0xbf)]
  else if first = 0xf0 then some [(0x90, 0xbf), (0x80, 0xbf), (0x80, 0xbf)]
  else if first < 0xf4 then some [(0x80, 0xbf), (0x80, 0xbf), (0x80, 0xbf)]
  else if first = 0xf4 then some [(0x80, 0x8f), (0x80, 0xbf), (0x80, 0xbf)]
  else none

/-- Compares bytes with the ranges they have to lie in, `passed` bytes of the sequence having
passed. A fault is the length of the sequence, if it is not just cut off. -/
def checkFollowers (passed : Nat) : List (UInt8 × UInt8) → List UInt8 → Except (Option Nat) Unit
  | [], _ => .ok ()
  | _ :: _, [] => .error none
  | (low, high) :: ranges, b :: bytes =>
    if low ≤ b && b ≤ high then checkFollowers (passed + 1) ranges bytes else .error (some passed)

/-- The first fault in bytes of which the first one stands at `index`. -/
def firstFault? (index : Nat) : List UInt8 → Option Malformed
  | [] => none
  | b :: bytes =>
    match followers? b with
    | none => some ⟨index, some 1⟩
    | some ranges =>
      match checkFollowers 1 ranges bytes with
      | .error length => some ⟨index, length⟩
      | .ok () => firstFault? (index + 1 + ranges.length) (bytes.drop ranges.length)
termination_by bytes => bytes.length
decreasing_by simp only [List.length_drop, List.length_cons]; omega

/-- The text that bytes encode, or their first fault. -/
def decode (bytes : ByteArray) : Except Malformed String :=
  match String.fromUTF8? bytes with
  | some text => .ok text
  | none => .error ((firstFault? 0 bytes.toList).getD ⟨0, none⟩)

end Lox.Text
