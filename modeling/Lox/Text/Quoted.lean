import Lox.Text.Hidden
/-!
# Quoted text

Names appear in descriptions between double quotes, and so do paths in reports. Double quotes and
backslashes are escaped, and so is every character that does not show by itself. In a path
apostrophes are escaped as well.
-/

namespace Lox.Text

/-- A character as it stands between quotes. -/
def quoteChar : Char → List Char
  | '"' => ['\\', '"']
  | '\\' => ['\\', '\\']
  | '\n' => ['\\', 'n']
  | '\r' => ['\\', 'r']
  | '\t' => ['\\', 't']
  | '\x00' => ['\\', '0']
  | c =>
    if isHidden c then '\\' :: 'u' :: '\x7b' :: Nat.toDigits 16 c.toNat ++ ['\x7d'] else [c]

/-- A text between double quotes. -/
def quoted (s : String) : String := String.ofList ('"' :: s.toList.flatMap quoteChar ++ ['"'])

/-- A character of a path as it stands between quotes. -/
def quotePathChar (c : Char) : List Char := if c = '\x27' then ['\\', c] else quoteChar c

/-- A path between double quotes. -/
def quotedPath (path : String) : String :=
  String.ofList ('"' :: path.toList.flatMap quotePathChar ++ ['"'])

/-- Quoted texts in brackets. -/
def quotedList (texts : List String) : String :=
  "[" ++ ", ".intercalate (texts.map quoted) ++ "]"

end Lox.Text
