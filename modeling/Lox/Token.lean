import Lox.Number.Text
/-!
# Tokens

The vocabulary of the language: nineteen symbols, sixteen keywords, names, string and number
literals, and the end of the source. A token carries the text it was read from and the line on
which that text ends.
-/

namespace Lox

/-- Punctuation and operators. -/
inductive Symbol where
  | leftParen | rightParen | leftBrace | rightBrace
  | comma | dot | minus | plus | semicolon | slash | star
  | bang | bangEqual | equal | equalEqual
  | greater | greaterEqual | less | lessEqual
  deriving Repr, DecidableEq

namespace Symbol

def all : List Symbol :=
  [leftParen, rightParen, leftBrace, rightBrace, comma, dot, minus, plus, semicolon, slash, star,
    bang, bangEqual, equal, equalEqual, greater, greaterEqual, less, lessEqual]

/-- How the symbol is written in a program. -/
def spelling : Symbol → String
  | leftParen => "("
  | rightParen => ")"
  | leftBrace => "\x7b"
  | rightBrace => "\x7d"
  | comma => ","
  | dot => "."
  | minus => "-"
  | plus => "+"
  | semicolon => ";"
  | slash => "/"
  | star => "*"
  | bang => "!"
  | bangEqual => "!="
  | equal => "="
  | equalEqual => "=="
  | greater => ">"
  | greaterEqual => ">="
  | less => "<"
  | lessEqual => "<="

/-- What a token listing calls the symbol. -/
def name : Symbol → String
  | leftParen => "LEFT_PAREN"
  | rightParen => "RIGHT_PAREN"
  | leftBrace => "LEFT_BRACE"
  | rightBrace => "RIGHT_BRACE"
  | comma => "COMMA"
  | dot => "DOT"
  | minus => "MINUS"
  | plus => "PLUS"
  | semicolon => "SEMICOLON"
  | slash => "SLASH"
  | star => "STAR"
  | bang => "BANG"
  | bangEqual => "BANG_EQUAL"
  | equal => "EQUAL"
  | equalEqual => "EQUAL_EQUAL"
  | greater => "GREATER"
  | greaterEqual => "GREATER_EQUAL"
  | less => "LESS"
  | lessEqual => "LESS_EQUAL"

theorem mem_all (s : Symbol) : s ∈ all := by cases s <;> decide

end Symbol

/-- Words that are not names. -/
inductive Keyword where
  | andWord | classWord | elseWord | falseWord | funWord | forWord | ifWord | nilWord
  | orWord | printWord | returnWord | superWord | thisWord | trueWord | varWord | whileWord
  deriving Repr, DecidableEq

namespace Keyword

def all : List Keyword :=
  [andWord, classWord, elseWord, falseWord, funWord, forWord, ifWord, nilWord,
    orWord, printWord, returnWord, superWord, thisWord, trueWord, varWord, whileWord]

/-- How the keyword is written in a program. -/
def spelling : Keyword → String
  | andWord => "and"
  | classWord => "class"
  | elseWord => "else"
  | falseWord => "false"
  | funWord => "fun"
  | forWord => "for"
  | ifWord => "if"
  | nilWord => "nil"
  | orWord => "or"
  | printWord => "print"
  | returnWord => "return"
  | superWord => "super"
  | thisWord => "this"
  | trueWord => "true"
  | varWord => "var"
  | whileWord => "while"

/-- A token listing calls a keyword by its spelling in capitals. -/
def name (k : Keyword) : String := k.spelling.map Char.toUpper

/-- The keyword that a word spells, if it is one. -/
def ofSpelling? (word : String) : Option Keyword :=
  all.find? fun k => k.spelling == word

theorem mem_all (k : Keyword) : k ∈ all := by cases k <;> decide

theorem ofSpelling?_spelling (k : Keyword) : ofSpelling? k.spelling = some k := by
  cases k <;> decide

end Keyword

namespace Token

/-- What a token is. Literals carry the value that their text stands for. -/
inductive Kind where
  | symbol (s : Symbol)
  | keyword (k : Keyword)
  | identifier
  | string (contents : String)
  | number (value : Float)
  | eof
  deriving DecidableEq

/-- What a token listing calls the kind. -/
def Kind.name : Kind → String
  | .symbol s => s.name
  | .keyword k => k.name
  | .identifier => "IDENTIFIER"
  | .string _ => "STRING"
  | .number _ => "NUMBER"
  | .eof => "EOF"

end Token

/-- A word of the program: its kind, its text, and the line on which it ends. -/
structure Token where
  kind : Token.Kind
  lexeme : String
  line : Nat
  deriving DecidableEq

namespace Token

/-- The value of a literal as a token listing shows it; `null` for all other tokens. -/
def literalText (t : Token) : String :=
  match t.kind with
  | .string contents => contents
  | .number value => Number.literalText value
  | _ => "null"

/-- The line of a token listing: kind, text and literal. -/
def listing (t : Token) : String := t.kind.name ++ " " ++ t.lexeme ++ " " ++ t.literalText

end Token

end Lox
