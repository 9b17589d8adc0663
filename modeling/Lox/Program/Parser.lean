import Lox.Diagnostic
import Lox.Program
/-!
# Reading tokens as a program

The grammar, loosest rule first:

    program      declaration*
    declaration  class | function | variable | statement
    statement    for | if | print | return | while | block | expression ";"
    expression   (call ".")? NAME "=" expression | or
    or           and ("or" and)*
    and          equality ("and" equality)*
    equality     comparison (("!=" | "==") comparison)*
    comparison   term ((">" | ">=" | "<" | "<=") term)*
    term         factor (("-" | "+") factor)*
    factor       unary (("/" | "*") unary)*
    unary        ("!" | "-")* call
    call         primary ("(" arguments? ")" | "." NAME)*

A token that fits no rule ends the declaration it stands in. The fault is recorded, tokens are
dropped up to the next boundary of statements, and reading goes on there, so one reading finds all
independent faults. Too many parameters or arguments and bad targets of assignments are recorded
without leaving the rule.

Every loop and every recursion reads a token in each round, so a bound on the tokens that are left
bounds the rounds. A bound of zero means that no token is left, and the rules say what happens then.
-/

namespace Lox

namespace Parser

/--
How far reading has come: the tokens left before the end, the line of the end, the number of the
next reference, and the faults recorded so far.
-/
structure State where
  rest : List Token
  endLine : Nat
  nextId : Nat
  faults : Array Diagnostic

/-- The first end token ends the input. Without one it ends on the line of the last token. -/
def State.ofTokens (tokens : List Token) (firstId : Nat) : State where
  rest := tokens.takeWhile (·.kind ≠ .eof)
  endLine :=
    match tokens.find? (·.kind = .eof), tokens.getLast? with
    | some stop, _ => stop.line
    | none, some last => last.line
    | none, none => 1
  nextId := firstId
  faults := #[]

/-- The token to be read next, which is the end token if none is left. -/
def State.peek (s : State) : Token :=
  match s.rest with
  | t :: _ => t
  | [] => ⟨.eof, "", s.endLine⟩

/-- Whether a new statement is assumed to start here, after something that went wrong. -/
def startsStatement (t : Token) : Bool :=
  match t.kind with
  | .keyword .classWord | .keyword .funWord | .keyword .varWord | .keyword .forWord
  | .keyword .ifWord | .keyword .whileWord | .keyword .printWord | .keyword .returnWord => true
  | _ => false

/-- Drops tokens up to the start of a statement or past a semicolon; `last` was dropped before. -/
def skipToBoundary (last : Token) : List Token → List Token
  | [] => []
  | t :: ts =>
    if last.kind = .symbol .semicolon || startsStatement t then t :: ts else skipToBoundary t ts

/-- Drops the token at fault, whatever it is, and then the rest of its statement. -/
def State.synchronize (s : State) : State :=
  { s with rest :=
      match s.rest with
      | [] => []
      | t :: ts => skipToBoundary t ts }

end Parser

/-- Readers of tokens. A thrown diagnostic ends the declaration that is being read. -/
abbrev Parser := EStateM Diagnostic Parser.State

namespace Parser

variable {α : Type}

/-! ## Single tokens -/

def peek : Parser Token := fun s => .ok s.peek s

def atEnd : Parser Bool := fun s => .ok s.rest.isEmpty s

/-- Takes the next token, if one is left. -/
def skip : Parser Unit := fun s => .ok () { s with rest := s.rest.tail }

/-- Records a fault at a token and goes on. -/
def report (t : Token) (fault : SyntaxFault) : Parser Unit := fun s =>
  .ok () { s with faults := s.faults.push (t.diagnostic (.syntactic fault)) }

/-- Ends the declaration with a fault at the next token. -/
def fail (fault : SyntaxFault) : Parser α := fun s =>
  .error (s.peek.diagnostic (.syntactic fault)) s

/-- Takes the next token if it is of an accepted kind. -/
def take? (accepts : Token.Kind → Bool) : Parser (Option Token) := fun s =>
  match s.rest with
  | t :: ts => if accepts t.kind then .ok (some t) { s with rest := ts } else .ok none s
  | [] => .ok none s

/-- Whether the next token is a given symbol. -/
def nextIs (symbol : Symbol) : Parser Bool := fun s =>
  .ok (s.rest.head?.any (·.kind = .symbol symbol)) s

def symbol? (symbol : Symbol) : Parser (Option Token) := take? (· = .symbol symbol)

def accept (symbol : Symbol) : Parser Bool := return (← symbol? symbol).isSome

def keyword? (keyword : Keyword) : Parser (Option Token) := take? (· = .keyword keyword)

def acceptWord (keyword : Keyword) : Parser Bool := return (← keyword? keyword).isSome

/-- Takes a symbol that has to be here. -/
def expect (symbol : Symbol) (spot : Spot) : Parser Token := do
  match ← symbol? symbol with
  | some t => return t
  | none => fail (.expectSymbol symbol spot)

/-- Takes a name that has to be here. -/
def expectName (role : NameRole) : Parser Token := do
  match ← take? (· = .identifier) with
  | some t => return t
  | none => fail (.expectName role)

/-- Makes a reference out of a name, with the next number. -/
def reference (name : Token) : Parser Reference := fun s =>
  .ok ⟨s.nextId, name⟩ { s with nextId := s.nextId + 1 }

/-- Repeats a step until it declines, at most `bound` times. -/
def rounds (step : α → Parser (Option α)) : Nat → α → Parser α
  | 0, a => pure a
  | bound + 1, a => do
    match ← step a with
    | some b => rounds step bound b
    | none => return a

/-! ## Expressions

In these rules `expression` reads an expression once a token has been taken. -/

/-- Literals, names, `this`, `super` and expressions in parentheses. -/
def primary (expression : Parser Expr) : Parser Expr := do
  let t ← peek
  match t.kind with
  | .keyword .falseWord => skip; return .literal (.bool false)
  | .keyword .trueWord => skip; return .literal (.bool true)
  | .keyword .nilWord => skip; return .literal .nil
  | .number value => skip; return .literal (.number value)
  | .string contents => skip; return .literal (.string contents)
  | .keyword .superWord =>
    skip
    let _ ← expect .dot .afterSuper
    let method ← expectName .superclassMethod
    return .super (← reference t) method
  | .keyword .thisWord => skip; return .this (← reference t)
  | .identifier => skip; return .ident (← reference t)
  | .symbol .leftParen =>
    skip
    let inner ← expression
    let _ ← expect .rightParen .afterExpression
    return .grouping inner
  | _ => fail .expectExpression

/-- The most parameters of a function, and arguments of a call. -/
def maxArity : Nat := 255

/-- Records a fault at the next token if there are as many items before it as there may be. -/
def reportExcess (count : Nat) (fault : SyntaxFault) : Parser Unit := fun s =>
  if count ≥ maxArity then report s.peek fault s else .ok () s

/-- Items with commas between them. -/
def separated (bound : Nat) (item : Parser α) (excess : SyntaxFault) : Parser (List α) := do
  let first ← item
  let reversed ← rounds (fun taken => do
    if ← accept .comma then
      reportExcess taken.length excess
      return some ((← item) :: taken)
    else return none) bound [first]
  return reversed.reverse

/-- Items up to the closing parenthesis, if there are any. -/
def parenthesized (bound : Nat) (item : Parser α) (excess : SyntaxFault) : Parser (List α) := do
  if ← nextIs .rightParen then return []
  else separated bound item excess

/-- The arguments of a call, up to the closing parenthesis. -/
def arguments (bound : Nat) (expression : Parser Expr) : Parser (List Expr) :=
  parenthesized bound expression .tooManyArguments

/-- One call or one property after an expression. -/
def callSuffix (bound : Nat) (expression : Parser Expr) (callee : Expr) :
    Parser (Option Expr) := do
  if ← accept .leftParen then
    let given ← arguments bound expression
    let paren ← expect .rightParen .afterArguments
    return some (.call callee paren given)
  else if ← accept .dot then
    return some (.get callee (← expectName .property))
  else
    return none

def call (bound : Nat) (expression : Parser Expr) : Parser Expr := do
  rounds (callSuffix bound expression) bound (← primary expression)

def isUnaryOperator (kind : Token.Kind) : Bool :=
  kind = .symbol .bang || kind = .symbol .minus

def unary (bound : Nat) (expression : Parser Expr) : Parser Expr := do
  let reversed ← rounds (fun taken => do
    return (← take? isUnaryOperator).map (· :: taken)) bound []
  let operand ← call bound expression
  return reversed.foldl (fun e operator => .unary operator e) operand

/-- Operands with operators between them, grouped to the left. -/
def leftChain (bound : Nat) (accepts : Token.Kind → Bool) (join : Expr → Token → Expr → Expr)
    (operand : Parser Expr) : Parser Expr := do
  rounds (fun left => do
    match ← take? accepts with
    | some operator => return some (join left operator (← operand))
    | none => return none) bound (← operand)

def isFactorOperator (kind : Token.Kind) : Bool :=
  kind = .symbol .slash || kind = .symbol .star

def isTermOperator (kind : Token.Kind) : Bool :=
  kind = .symbol .minus || kind = .symbol .plus

def isComparisonOperator (kind : Token.Kind) : Bool :=
  kind = .symbol .greater || kind = .symbol .greaterEqual
    || kind = .symbol .less || kind = .symbol .lessEqual

def isEqualityOperator (kind : Token.Kind) : Bool :=
  kind = .symbol .bangEqual || kind = .symbol .equalEqual

def factor (bound : Nat) (expression : Parser Expr) : Parser Expr :=
  leftChain bound isFactorOperator .binary (unary bound expression)

def term (bound : Nat) (expression : Parser Expr) : Parser Expr :=
  leftChain bound isTermOperator .binary (factor bound expression)

def comparison (bound : Nat) (expression : Parser Expr) : Parser Expr :=
  leftChain bound isComparisonOperator .binary (term bound expression)

def equality (bound : Nat) (expression : Parser Expr) : Parser Expr :=
  leftChain bound isEqualityOperator .binary (comparison bound expression)

def conjunction (bound : Nat) (expression : Parser Expr) : Parser Expr :=
  leftChain bound (· = .keyword .andWord) .logical (equality bound expression)

def disjunction (bound : Nat) (expression : Parser Expr) : Parser Expr :=
  leftChain bound (· = .keyword .orWord) .logical (conjunction bound expression)

/-- What an expression before an equals sign becomes, once the new value was read. -/
def assignTo (target : Expr) (equals : Token) (value : Expr) : Parser Expr := do
  match target with
  | .ident use => return .assign (← reference use.name) value
  | .get object name => return .set object name value
  | other =>
    report equals .invalidTarget
    return other

def assignment (bound : Nat) (expression : Parser Expr) : Parser Expr := do
  let target ← disjunction bound expression
  match ← symbol? .equal with
  | some equals => assignTo target equals (← expression)
  | none => return target

/-- An expression, with at most `bound` tokens left. -/
def expression : (bound : Nat) → Parser Expr
  | 0 => fun s => fail .expectExpression s
  | bound + 1 => fun s => assignment (bound + 1) (expression bound) s

/-! ## Statements

In these rules `statement` and `declaration` read one once a token has been taken. -/

/-- Declarations up to a closing brace, the opening one having been taken. -/
def block (bound : Nat) (declaration : Parser (Option Stmt)) : Parser (List Stmt) := do
  let reversed ← rounds (fun taken => do
    if (← nextIs .rightBrace) || (← atEnd) then
      return none
    return some ((← declaration).toList ++ taken)) bound []
  let _ ← expect .rightBrace .afterBlock
  return reversed.reverse

def expressionStatement (bound : Nat) : Parser Stmt := do
  let e ← expression bound
  let _ ← expect .semicolon .afterExpression
  return .expression e

def printStatement (bound : Nat) : Parser Stmt := do
  let e ← expression bound
  let _ ← expect .semicolon .afterPrinted
  return .print e

/-- The initial value of a variable, if it has one. -/
def initialValue (bound : Nat) : Parser (Option Expr) := do
  if ← accept .equal then return some (← expression bound)
  else return none

def variableDeclaration (bound : Nat) : Parser Stmt := do
  let name ← expectName .variableDeclared
  let value ← initialValue bound
  let _ ← expect .semicolon .afterVariable
  return .variableDecl name value

/-- An expression, if the symbol that would follow it is not here already. -/
def expressionUnless (bound : Nat) (symbol : Symbol) : Parser (Option Expr) := do
  if ← nextIs symbol then return none
  else return some (← expression bound)

def returnStatement (bound : Nat) (keyword : Token) : Parser Stmt := do
  let value ← expressionUnless bound .semicolon
  let _ ← expect .semicolon .afterReturned
  return .giveBack keyword value

/-- The statement after `else`, if there is one. -/
def elseBranch (statement : Parser Stmt) : Parser (Option Stmt) := do
  if ← acceptWord .elseWord then return some (← statement)
  else return none

def ifStatement (bound : Nat) (statement : Parser Stmt) : Parser Stmt := do
  let _ ← expect .leftParen .afterIf
  let condition ← expression bound
  let _ ← expect .rightParen .afterIfCondition
  let yes ← statement
  return .conditional condition yes (← elseBranch statement)

def whileStatement (bound : Nat) (statement : Parser Stmt) : Parser Stmt := do
  let _ ← expect .leftParen .afterWhile
  let condition ← expression bound
  let _ ← expect .rightParen .afterWhileCondition
  return .loop condition (← statement)

/-- The loop that a counting loop stands for: clauses that are absent leave no trace. -/
def countingLoop (start : Option Stmt) (condition : Option Expr) (increment : Option Expr)
    (body : Stmt) : Stmt :=
  let body := match increment with
    | some e => .block [body, .expression e]
    | none => body
  let loop := .loop (condition.getD (.literal (.bool true))) body
  match start with
  | some s => .block [s, loop]
  | none => loop

/-- The first clause of a counting loop, with the semicolon after it. -/
def startClause (bound : Nat) : Parser (Option Stmt) := do
  if ← accept .semicolon then return none
  else if ← acceptWord .varWord then return some (← variableDeclaration bound)
  else return some (← expressionStatement bound)

def forStatement (bound : Nat) (statement : Parser Stmt) : Parser Stmt := do
  let _ ← expect .leftParen .afterFor
  let start ← startClause bound
  let condition ← expressionUnless bound .semicolon
  let _ ← expect .semicolon .afterLoopCondition
  let increment ← expressionUnless bound .rightParen
  let _ ← expect .rightParen .afterForClauses
  return countingLoop start condition increment (← statement)

/-- One statement, with at most `bound` tokens left. -/
def statementRule (bound : Nat) (statement : Parser Stmt) (declaration : Parser (Option Stmt)) :
    Parser Stmt := do
  if ← acceptWord .forWord then forStatement bound statement
  else if ← acceptWord .ifWord then ifStatement bound statement
  else if ← acceptWord .printWord then printStatement bound
  else match ← keyword? .returnWord with
  | some keyword => returnStatement bound keyword
  | none =>
    if ← acceptWord .whileWord then whileStatement bound statement
    else if ← accept .leftBrace then return .block (← block bound declaration)
    else expressionStatement bound

/-! ## Declarations -/

/-- The names of the parameters, up to the closing parenthesis. -/
def parameters (bound : Nat) : Parser (List Token) :=
  parenthesized bound (expectName .parameter) .tooManyParameters

/-- The declaration of a function or of a method, from its name on. -/
def function (bound : Nat) (kind : CallableKind) (declaration : Parser (Option Stmt)) :
    Parser Function := do
  let name ← expectName (.callable kind)
  let _ ← expect .leftParen (.afterCallableName kind)
  let params ← parameters bound
  let _ ← expect .rightParen .afterParameters
  let _ ← expect .leftBrace (.beforeCallableBody kind)
  return .mk name params (← block bound declaration)

/-- The name of the superclass, if there is one. -/
def superclassClause : Parser (Option Reference) := do
  if ← accept .less then return some (← reference (← expectName .superclass))
  else return none

/-- The declaration of a class, from its name on. -/
def classDeclaration (bound : Nat) (declaration : Parser (Option Stmt)) : Parser Stmt := do
  let name ← expectName .classDeclared
  let superclass ← superclassClause
  let _ ← expect .leftBrace .beforeClassBody
  let reversed ← rounds (fun taken => do
    if (← nextIs .rightBrace) || (← atEnd) then
      return none
    return some ((← function bound .method declaration) :: taken)) bound []
  let _ ← expect .rightBrace .afterClassBody
  return .classDecl name superclass reversed.reverse

/-- One declaration or statement, with at most `bound` tokens left. -/
def declarationRule (bound : Nat) (statement : Parser Stmt)
    (declaration : Parser (Option Stmt)) : Parser Stmt := do
  if ← acceptWord .classWord then classDeclaration bound declaration
  else if ← acceptWord .funWord then
    return .functionDecl (← function bound .function declaration)
  else if ← acceptWord .varWord then variableDeclaration bound
  else statementRule bound statement declaration

/-- Records the fault that ends a declaration, and finds the start of the next one. -/
def recovering (rule : Parser Stmt) : Parser (Option Stmt) := fun s =>
  match rule s with
  | .ok stmt s => .ok (some stmt) s
  | .error d s => .ok none { s with faults := s.faults.push d }.synchronize

mutual

/-- One statement, with at most `bound` tokens left. -/
def statement : (bound : Nat) → Parser Stmt
  | 0 => fun s => fail .expectExpression s
  | bound + 1 => fun s => statementRule (bound + 1) (statement bound) (declaration bound) s

/-- One declaration, or none if it is at fault, with at most `bound` tokens left. -/
def declaration : (bound : Nat) → Parser (Option Stmt)
  | 0 => fun s => recovering (fail .expectExpression) s
  | bound + 1 => fun s =>
    recovering (declarationRule (bound + 1) (statement bound) (declaration bound)) s

end

/-! ## Whole inputs -/

/-- Declarations up to the end. -/
def program (bound : Nat) : Parser (List Stmt) := do
  let reversed ← rounds (fun taken => do
    if ← atEnd then
      return none
    return some ((← declaration bound).toList ++ taken)) bound []
  return reversed.reverse

/-- One expression and then the end. -/
def wholeExpression (bound : Nat) : Parser Expr := do
  let e ← expression bound
  if ← atEnd then return e
  fail .expectEnd

/-- What became of an input: a tree or its faults, and the first number not used. -/
structure Outcome (α : Type) where
  result : Except (List Diagnostic) α
  nextId : Nat

/-- Reads a whole input. It is a tree exactly if no fault was recorded. -/
def run (rule : Nat → Parser α) (tokens : List Token) (firstId : Nat) : Outcome α :=
  let start := State.ofTokens tokens firstId
  match rule start.rest.length start with
  | .ok tree s =>
    ⟨if s.faults.isEmpty then .ok tree else .error s.faults.toList, s.nextId⟩
  | .error d s => ⟨.error (s.faults.push d).toList, s.nextId⟩

end Parser

/-- Reads tokens as a program whose references are numbered from `firstId`. -/
def parseProgram (tokens : List Token) (firstId : Nat) : Parser.Outcome (List Stmt) :=
  Parser.run Parser.program tokens firstId

/-- Reads tokens as a single expression whose references are numbered from `firstId`. -/
def parseExpression (tokens : List Token) (firstId : Nat) : Parser.Outcome Expr :=
  Parser.run Parser.wholeExpression tokens firstId

end Lox
