import Lox.Token
/-!
# Static diagnostics

Everything that can be wrong with a program before it runs. A diagnostic is a line, a place on it
and a cause; the wording is a function of these. Causes come from three stages: reading the text
into tokens, reading the tokens into a tree, and checking the scopes of the tree.
-/

namespace Lox

/-- Text that forms no token. -/
inductive LexicalFault where
  | unexpectedCharacter
  | unterminatedString
  deriving Repr, DecidableEq

/-- A callable declaration is a function on its own or a method of a class. -/
inductive CallableKind where
  | function
  | method
  deriving Repr, DecidableEq

/-- The names that the grammar asks for. -/
inductive NameRole where
  | classDeclared
  | superclass
  | callable (kind : CallableKind)
  | parameter
  | variableDeclared
  | property
  | superclassMethod
  deriving Repr, DecidableEq

/-- The spots at which the grammar asks for a symbol. -/
inductive Spot where
  | beforeClassBody
  | afterClassBody
  | afterCallableName (kind : CallableKind)
  | afterParameters
  | beforeCallableBody (kind : CallableKind)
  | afterVariable
  | afterFor
  | afterLoopCondition
  | afterForClauses
  | afterIf
  | afterIfCondition
  | afterPrinted
  | afterReturned
  | afterWhile
  | afterWhileCondition
  | afterExpression
  | afterBlock
  | afterArguments
  | afterSuper
  deriving Repr, DecidableEq

/-- Tokens that follow no rule of the grammar. -/
inductive SyntaxFault where
  | expectSymbol (symbol : Symbol) (spot : Spot)
  | expectName (role : NameRole)
  | expectExpression
  | expectEnd
  | tooManyParameters
  | tooManyArguments
  | invalidTarget
  deriving Repr, DecidableEq

/-- Breaches of the rules on names, `return`, `this` and `super`. -/
inductive ScopeFault where
  | alreadyDeclared
  | readInOwnInitializer
  | returnAtTopLevel
  | returnValueFromInitializer
  | inheritsFromItself
  | thisOutsideClass
  | superOutsideClass
  | superWithoutSuperclass
  deriving Repr, DecidableEq

/-- The cause of a diagnostic, by the stage that found it. -/
inductive Cause where
  | lexical (fault : LexicalFault)
  | syntactic (fault : SyntaxFault)
  | scoping (fault : ScopeFault)
  deriving Repr, DecidableEq

/-- Where on its line a diagnostic points. -/
inductive Place where
  | unspecified
  | atEnd
  | atLexeme (lexeme : String)
  deriving Repr, DecidableEq

/-- Something wrong with a program that is known before it runs. -/
structure Diagnostic where
  line : Nat
  place : Place
  cause : Cause
  deriving Repr, DecidableEq

/-! ## Wording -/

def LexicalFault.message : LexicalFault → String
  | unexpectedCharacter => "Unexpected character."
  | unterminatedString => "Unterminated string."

def CallableKind.text : CallableKind → String
  | function => "function"
  | method => "method"

def NameRole.text : NameRole → String
  | classDeclared => "class name"
  | superclass => "superclass name"
  | callable kind => kind.text ++ " name"
  | parameter => "parameter name"
  | variableDeclared => "variable name"
  | property => "property name after '.'"
  | superclassMethod => "superclass method name"

def Spot.text : Spot → String
  | beforeClassBody => "before class body"
  | afterClassBody => "after class body"
  | afterCallableName kind => "after " ++ kind.text ++ " name"
  | afterParameters => "after parameters"
  | beforeCallableBody kind => "before " ++ kind.text ++ " body"
  | afterVariable => "after variable declaration"
  | afterFor => "after 'for'"
  | afterLoopCondition => "after loop condition"
  | afterForClauses => "after for clauses"
  | afterIf => "after 'if'"
  | afterIfCondition => "after if condition"
  | afterPrinted => "after value"
  | afterReturned => "after return value"
  | afterWhile => "after 'while'"
  | afterWhileCondition => "after condition"
  | afterExpression => "after expression"
  | afterBlock => "after block"
  | afterArguments => "after arguments"
  | afterSuper => "after 'super'"

def SyntaxFault.message : SyntaxFault → String
  | expectSymbol symbol spot => "Expect '" ++ symbol.spelling ++ "' " ++ spot.text ++ "."
  | expectName role => "Expect " ++ role.text ++ "."
  | expectExpression => "Expect expression."
  | expectEnd => "Expect end of expression."
  | tooManyParameters => "Can't have more than 255 parameters."
  | tooManyArguments => "Can't have more than 255 arguments."
  | invalidTarget => "Invalid assignment target."

def ScopeFault.message : ScopeFault → String
  | alreadyDeclared => "Already a variable with this name in this scope."
  | readInOwnInitializer => "Can't read local variable in its own initializer."
  | returnAtTopLevel => "Can't return from top-level code."
  | returnValueFromInitializer => "Can't return a value from an initializer."
  | inheritsFromItself => "A class can't inherit from itself."
  | thisOutsideClass => "Can't use 'this' outside of a class."
  | superOutsideClass => "Can't use 'super' outside of a class."
  | superWithoutSuperclass => "Can't use 'super' in a class with no superclass."

def Cause.message : Cause → String
  | lexical fault => fault.message
  | syntactic fault => fault.message
  | scoping fault => fault.message

def Place.text : Place → String
  | unspecified => ""
  | atEnd => " at end"
  | atLexeme lexeme => " at '" ++ lexeme ++ "'"

/-- The text of a diagnostic, on one line unless the lexeme has several. -/
def Diagnostic.text (d : Diagnostic) : String :=
  "[line " ++ toString d.line ++ "] Error" ++ d.place.text ++ ": " ++ d.cause.message

/-- A diagnostic about a token names its text, and the end of the source as such. -/
def Token.diagnostic (t : Token) (cause : Cause) : Diagnostic :=
  ⟨t.line, if t.kind = .eof then .atEnd else .atLexeme t.lexeme, cause⟩

end Lox
