import Lox.Diagnostic
/-!
# Source text

Source text is cut into pieces from left to right: blanks, comments, tokens, characters that start
no token, and a string that never ends. Every piece is as long as it can be. The pieces are then
numbered by lines and read as tokens and faults, with one end token after the last piece.
-/

namespace Lox.Source

/-- What a piece of source text is. -/
inductive PieceKind where
  | blank
  | comment
  | token (kind : Token.Kind)
  | strayCharacter
  | openString
  deriving DecidableEq

/-- A stretch of source text of one kind. -/
structure Piece where
  kind : PieceKind
  text : List Char
  deriving DecidableEq

def isBlank (c : Char) : Bool := c == ' ' || c == '\t' || c == '\r' || c == '\n'

/-- Names are written in ASCII letters, digits and underscores, and start with no digit. -/
def isNameStart (c : Char) : Bool := c.isAlpha || c == '_'

def isNameRest (c : Char) : Bool := isNameStart c || c.isDigit

/-- Symbols that are complete after one character, whatever follows. -/
def symbolOf? : Char → Option Symbol
  | '(' => some .leftParen
  | ')' => some .rightParen
  | '\x7b' => some .leftBrace
  | '\x7d' => some .rightBrace
  | ',' => some .comma
  | '.' => some .dot
  | '-' => some .minus
  | '+' => some .plus
  | ';' => some .semicolon
  | '*' => some .star
  | _ => none

/-- Symbols that an equals sign extends to another symbol. -/
def extensibleSymbolOf? : Char → Option (Symbol × Symbol)
  | '!' => some (.bang, .bangEqual)
  | '=' => some (.equal, .equalEqual)
  | '<' => some (.less, .lessEqual)
  | '>' => some (.greater, .greaterEqual)
  | _ => none

/-- A word is a keyword if its whole text spells one, and a name otherwise. -/
def wordKind (word : List Char) : Token.Kind :=
  match Keyword.ofSpelling? (String.ofList word) with
  | some k => .keyword k
  | none => .identifier

/-! ## Cutting off one piece

Each function takes the characters after the first one and returns the piece with what is left. -/

/-- A slash divides, unless a second one makes the rest of the line a comment. -/
def slashPiece : List Char → Piece × List Char
  | '/' :: cs =>
    (⟨.comment, '/' :: '/' :: cs.takeWhile (· != '\n')⟩, cs.dropWhile (· != '\n'))
  | cs => (⟨.token (.symbol .slash), ['/']⟩, cs)

/-- A string runs to the next double quote, over line ends too. -/
def stringPiece (cs : List Char) : Piece × List Char :=
  let contents := cs.takeWhile (· != '"')
  match cs.dropWhile (· != '"') with
  | [] => (⟨.openString, '"' :: contents⟩, [])
  | quote :: rest =>
    (⟨.token (.string (String.ofList contents)), '"' :: contents ++ [quote]⟩, rest)

/-- A number is digits, and a fraction if a point and another digit follow. -/
def numberPiece (c : Char) (cs : List Char) : Piece × List Char :=
  let whole := c :: cs.takeWhile Char.isDigit
  match cs.dropWhile Char.isDigit with
  | '.' :: d :: rest =>
    if d.isDigit then
      let fraction := d :: rest.takeWhile Char.isDigit
      (⟨.token (.number (Number.ofDigits whole fraction)), whole ++ '.' :: fraction⟩,
        rest.dropWhile Char.isDigit)
    else (⟨.token (.number (Number.ofDigits whole [])), whole⟩, '.' :: d :: rest)
  | rest => (⟨.token (.number (Number.ofDigits whole [])), whole⟩, rest)

/-- The first piece of a source that starts with `c`. -/
def firstPiece (c : Char) (cs : List Char) : Piece × List Char :=
  if isBlank c then (⟨.blank, [c]⟩, cs)
  else if c == '/' then slashPiece cs
  else if c == '"' then stringPiece cs
  else if c.isDigit then numberPiece c cs
  else if isNameStart c then
    let word := c :: cs.takeWhile isNameRest
    (⟨.token (wordKind word), word⟩, cs.dropWhile isNameRest)
  else match symbolOf? c, extensibleSymbolOf? c, cs with
    | some s, _, _ => (⟨.token (.symbol s), [c]⟩, cs)
    | none, some (_, long), '=' :: rest => (⟨.token (.symbol long), [c, '=']⟩, rest)
    | none, some (short, _), _ => (⟨.token (.symbol short), [c]⟩, cs)
    | none, none, _ => (⟨.strayCharacter, [c]⟩, cs)

/-! ## Nothing is lost -/

theorem takeWhile_append_dropWhile_cons (p : Char → Bool) {cs rest : List Char} {d : Char}
    (h : cs.dropWhile p = d :: rest) : cs.takeWhile p ++ d :: rest = cs := by
  rw [← h]; exact List.takeWhile_append_dropWhile

theorem slashPiece_append (cs : List Char) :
    (slashPiece cs).1.text ++ (slashPiece cs).2 = '/' :: cs := by
  unfold slashPiece
  split <;> simp

theorem stringPiece_append (cs : List Char) :
    (stringPiece cs).1.text ++ (stringPiece cs).2 = '"' :: cs := by
  unfold stringPiece
  split
  · next h =>
    have := List.takeWhile_append_dropWhile (p := fun c => c != '"') (l := cs)
    simp_all
  · next h => simpa using takeWhile_append_dropWhile_cons _ h

theorem numberPiece_append (c : Char) (cs : List Char) :
    (numberPiece c cs).1.text ++ (numberPiece c cs).2 = c :: cs := by
  unfold numberPiece
  split
  · next h =>
    split
    · simpa using takeWhile_append_dropWhile_cons _ h
    · simpa using takeWhile_append_dropWhile_cons _ h
  · simp

/-- A piece and what is left of the source make up the source. -/
theorem firstPiece_append (c : Char) (cs : List Char) :
    (firstPiece c cs).1.text ++ (firstPiece c cs).2 = c :: cs := by
  unfold firstPiece
  split
  · rfl
  split
  · next h => rw [slashPiece_append, eq_of_beq h]
  split
  · next h => rw [stringPiece_append, eq_of_beq h]
  split
  · exact numberPiece_append c cs
  split
  · simp
  split <;> rfl

theorem firstPiece_text_ne_nil (c : Char) (cs : List Char) : (firstPiece c cs).1.text ≠ [] := by
  unfold firstPiece slashPiece stringPiece numberPiece
  repeat' split
  all_goals simp

/-- Cutting off a piece leaves less source. -/
theorem length_firstPiece (c : Char) (cs : List Char) :
    (firstPiece c cs).2.length < (c :: cs).length := by
  have h := congrArg List.length (firstPiece_append c cs)
  have := List.length_pos_iff.mpr (firstPiece_text_ne_nil c cs)
  simp only [List.length_append] at h
  omega

/-! ## The whole source -/

/-- The pieces of a source, in order. -/
def pieces : List Char → List Piece
  | [] => []
  | c :: cs => (firstPiece c cs).1 :: pieces (firstPiece c cs).2
termination_by cs => cs.length
decreasing_by exact length_firstPiece c cs

/-- The pieces of a source make up the source. -/
theorem flatMap_text_pieces (cs : List Char) : (pieces cs).flatMap Piece.text = cs := by
  fun_induction pieces cs with
  | case1 => rfl
  | case2 c cs ih => rw [List.flatMap_cons, ih, firstPiece_append]

/-- What reading the source yields, token by token. -/
inductive Item where
  | token (t : Token)
  | fault (d : Diagnostic)
  deriving DecidableEq

/-- The line at the end of a piece that starts on `line`. -/
def Piece.lastLine (p : Piece) (line : Nat) : Nat := line + p.text.count '\n'

/-- What a piece that ends on `line` yields. Blanks and comments yield nothing. -/
def Piece.item? (p : Piece) (line : Nat) : Option Item :=
  match p.kind with
  | .blank => none
  | .comment => none
  | .token kind => some (.token ⟨kind, String.ofList p.text, line⟩)
  | .strayCharacter => some (.fault ⟨line, .unspecified, .lexical .unexpectedCharacter⟩)
  | .openString => some (.fault ⟨line, .unspecified, .lexical .unterminatedString⟩)

/-- The items of pieces that start on `line`, and the end token after the last one. -/
def itemsFrom (line : Nat) : List Piece → List Item
  | [] => [.token ⟨.eof, "", line⟩]
  | p :: ps => (p.item? (p.lastLine line)).toList ++ itemsFrom (p.lastLine line) ps

/-- Reads source text, counting lines from 1. -/
def items (source : String) : List Item := itemsFrom 1 (pieces source.toList)

def Item.token? : Item → Option Token
  | .token t => some t
  | .fault _ => none

def Item.fault? : Item → Option Diagnostic
  | .token _ => none
  | .fault d => some d

/-- The tokens of a source. Its last token is the only one that marks the end. -/
def tokens (source : String) : List Token := (items source).filterMap Item.token?

/-- The lexical faults of a source, in order. -/
def faults (source : String) : List Diagnostic := (items source).filterMap Item.fault?

end Lox.Source
