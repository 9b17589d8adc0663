import Lox.Program

/-!
# The grammar

What the language is, apart from any way of reading it. A derivation says three things at once:
which tokens a phrase is made of, which tree it stands for, and which numbers its references get.
The numbers play no part in whether there is a derivation: they run on from `k` in the order in
which the phrase is read, up to the first one left over.

```
program      declaration*
declaration  "class" NAME ("<" NAME)? "{" function* "}" | "fun" function | variable | statement
function     NAME "(" parameters? ")" "{" declaration* "}"
variable     "var" NAME ("=" expression)? ";"
statement    expression ";" | "print" expression ";" | "return" expression? ";"
             | "if" "(" expression ")" statement ("else" statement)?
             | "while" "(" expression ")" statement
             | "for" "(" (variable | expression ";" | ";") expression? ";" expression? ")" statement
             | "{" declaration* "}"
expression   (call ".")? NAME "=" expression | disjunction
disjunction  conjunction ("or" conjunction)*, and so on down to factor
factor       unary (("/" | "*") unary)*
unary        ("!" | "-") unary | call
call         primary ("(" arguments? ")" | "." NAME)*
```

An `else` belongs to the nearest `if` that is still open. So statements are derived as open, which
end in an `if` that could still take an `else`, or as closed, and only a closed one stands between
an `if` and its `else`.
-/

namespace Lox.Grammar

/-- The most arguments of a call, and parameters of a function. -/
def maxItems : Nat := 255

/-! ## Expressions -/

/-- The rules that chain operands by operators. -/
inductive Chain where
  | disjunction
  | conjunction
  | equality
  | comparison
  | term
  | factor
  deriving DecidableEq

/-- The rules for expressions, loosest first. -/
inductive Level where
  | assignment
  | chain (c : Chain)
  | unary
  | call
  | primary
  deriving DecidableEq

namespace Chain

/-- The rule for the operands of a chain. -/
def operand : Chain → Level
  | disjunction => .chain conjunction
  | conjunction => .chain equality
  | equality => .chain comparison
  | comparison => .chain term
  | term => .chain factor
  | factor => .unary

/-- The operators that stand between the operands of a chain. -/
def operators : Chain → List Token.Kind
  | disjunction => [.keyword .orWord]
  | conjunction => [.keyword .andWord]
  | equality => [.symbol .bangEqual, .symbol .equalEqual]
  | comparison => [.symbol .greater, .symbol .greaterEqual, .symbol .less, .symbol .lessEqual]
  | term => [.symbol .minus, .symbol .plus]
  | factor => [.symbol .slash, .symbol .star]

/-- The tree of an operation. -/
def join : Chain → Expr → Token → Expr → Expr
  | disjunction | conjunction => .logical
  | _ => .binary

end Chain

/-- The operators that stand before their operand. -/
def unaryOperators : List Token.Kind := [.symbol .bang, .symbol .minus]

/-- The constant that a token stands for, if it stands for one. -/
def constant? : Token.Kind → Option Literal
  | .keyword .falseWord => some (.bool false)
  | .keyword .trueWord => some (.bool true)
  | .keyword .nilWord => some .nil
  | .number value => some (.number value)
  | .string contents => some (.string contents)
  | _ => none

mutual

/-- `Expression level k ts e k'`: the tokens `ts` are an expression of this level with the tree `e`,
whose references have numbers from `k` up to but not including `k'`. -/
inductive Expression : Level → Nat → List Token → Expr → Nat → Prop where
  /-- The name takes a number when it is read, before it is known to be assigned to. -/
  | assignName {name equals : Token} {k k' : Nat} {ts : List Token} {value : Expr} :
      name.kind = .identifier → equals.kind = .symbol .equal →
      Expression .assignment (k + 1) ts value k' →
      Expression .assignment k (name :: equals :: ts) (.assign ⟨k', name⟩ value) (k' + 1)
  | assignField {dot name equals : Token} {k k₁ k' : Nat} {ts ts' : List Token}
      {object value : Expr} :
      Expression .call k ts object k₁ → dot.kind = .symbol .dot → name.kind = .identifier →
      equals.kind = .symbol .equal → Expression .assignment k₁ ts' value k' →
      Expression .assignment k (ts ++ dot :: name :: equals :: ts') (.set object name value) k'
  | noAssignment {k k' : Nat} {ts : List Token} {e : Expr} :
      Expression (.chain .disjunction) k ts e k' → Expression .assignment k ts e k'
  | operation {c : Chain} {operator : Token} {k k₁ k' : Nat} {ts ts' : List Token}
      {left right : Expr} :
      Expression (.chain c) k ts left k₁ → operator.kind ∈ c.operators →
      Expression c.operand k₁ ts' right k' →
      Expression (.chain c) k (ts ++ operator :: ts') (c.join left operator right) k'
  | operand {c : Chain} {k k' : Nat} {ts : List Token} {e : Expr} :
      Expression c.operand k ts e k' → Expression (.chain c) k ts e k'
  | unary {operator : Token} {k k' : Nat} {ts : List Token} {e : Expr} :
      operator.kind ∈ unaryOperators → Expression .unary k ts e k' →
      Expression .unary k (operator :: ts) (.unary operator e) k'
  | noUnary {k k' : Nat} {ts : List Token} {e : Expr} :
      Expression .call k ts e k' → Expression .unary k ts e k'
  | call {left right : Token} {k k₁ k' : Nat} {ts ts' : List Token} {callee : Expr}
      {given : List Expr} :
      Expression .call k ts callee k₁ → left.kind = .symbol .leftParen →
      Arguments k₁ ts' given k' → given.length ≤ maxItems → right.kind = .symbol .rightParen →
      Expression .call k (ts ++ left :: (ts' ++ [right])) (.call callee right given) k'
  | get {dot name : Token} {k k' : Nat} {ts : List Token} {object : Expr} :
      Expression .call k ts object k' → dot.kind = .symbol .dot → name.kind = .identifier →
      Expression .call k (ts ++ [dot, name]) (.get object name) k'
  | noCall {k k' : Nat} {ts : List Token} {e : Expr} :
      Expression .primary k ts e k' → Expression .call k ts e k'
  | literal {t : Token} {k : Nat} {value : Literal} :
      constant? t.kind = some value → Expression .primary k [t] (.literal value) k
  | ident {name : Token} {k : Nat} :
      name.kind = .identifier → Expression .primary k [name] (.ident ⟨k, name⟩) (k + 1)
  | this {keyword : Token} {k : Nat} :
      keyword.kind = .keyword .thisWord →
      Expression .primary k [keyword] (.this ⟨k, keyword⟩) (k + 1)
  | super {keyword dot method : Token} {k : Nat} :
      keyword.kind = .keyword .superWord → dot.kind = .symbol .dot → method.kind = .identifier →
      Expression .primary k [keyword, dot, method] (.super ⟨k, keyword⟩ method) (k + 1)
  | grouping {left right : Token} {k k' : Nat} {ts : List Token} {e : Expr} :
      left.kind = .symbol .leftParen → Expression .assignment k ts e k' →
      right.kind = .symbol .rightParen →
      Expression .primary k (left :: (ts ++ [right])) (.grouping e) k'

/-- Expressions with commas between them. -/
inductive Arguments : Nat → List Token → List Expr → Nat → Prop where
  | none {k : Nat} : Arguments k [] [] k
  | first {k k' : Nat} {ts : List Token} {e : Expr} :
      Expression .assignment k ts e k' → Arguments k ts [e] k'
  | next {comma : Token} {k k₁ k' : Nat} {ts ts' : List Token} {given : List Expr} {e : Expr} :
      Arguments k ts given k₁ → given ≠ [] → comma.kind = .symbol .comma →
      Expression .assignment k₁ ts' e k' →
      Arguments k (ts ++ comma :: ts') (given ++ [e]) k'

end

/-- An expression that may be left out. -/
inductive OptionalExpression : Nat → List Token → Option Expr → Nat → Prop where
  | absent {k : Nat} : OptionalExpression k [] none k
  | present {k k' : Nat} {ts : List Token} {e : Expr} :
      Expression .assignment k ts e k' → OptionalExpression k ts (some e) k'

/-! ## Statements and declarations -/

/-- The initial value of a variable, if it has one. -/
inductive Initializer : Nat → List Token → Option Expr → Nat → Prop where
  | absent {k : Nat} : Initializer k [] none k
  | present {equals : Token} {k k' : Nat} {ts : List Token} {e : Expr} :
      equals.kind = .symbol .equal → Expression .assignment k ts e k' →
      Initializer k (equals :: ts) (some e) k'

inductive Variable : Nat → List Token → Stmt → Nat → Prop where
  | mk {word name semicolon : Token} {k k' : Nat} {ts : List Token} {value : Option Expr} :
      word.kind = .keyword .varWord → name.kind = .identifier → Initializer k ts value k' →
      semicolon.kind = .symbol .semicolon →
      Variable k (word :: name :: (ts ++ [semicolon])) (.variableDecl name value) k'

inductive ExpressionStatement : Nat → List Token → Stmt → Nat → Prop where
  | mk {semicolon : Token} {k k' : Nat} {ts : List Token} {e : Expr} :
      Expression .assignment k ts e k' → semicolon.kind = .symbol .semicolon →
      ExpressionStatement k (ts ++ [semicolon]) (.expression e) k'

/-- The first clause of a counting loop. -/
inductive Start : Nat → List Token → Option Stmt → Nat → Prop where
  | absent {semicolon : Token} {k : Nat} :
      semicolon.kind = .symbol .semicolon → Start k [semicolon] none k
  | varDecl {k k' : Nat} {ts : List Token} {s : Stmt} :
      Variable k ts s k' → Start k ts (some s) k'
  | expression {k k' : Nat} {ts : List Token} {s : Stmt} :
      ExpressionStatement k ts s k' → Start k ts (some s) k'

/-- The body of a counting loop, and after it the increment. -/
def withIncrement (body : Stmt) : Option Expr → Stmt
  | some increment => .block [body, .expression increment]
  | none => body

/-- A loop, and before it the start. -/
def withStart (loop : Stmt) : Option Stmt → Stmt
  | some start => .block [start, loop]
  | none => loop

/-- The tree of a counting loop: a clause that is left out leaves nothing behind, but for the
condition, without which the loop goes on for ever. -/
def countingLoop (start : Option Stmt) (condition increment : Option Expr) (body : Stmt) : Stmt :=
  withStart (.loop (condition.getD (.literal (.bool true))) (withIncrement body increment)) start

/-- Names with commas between them. -/
inductive Parameters : List Token → List Token → Prop where
  | none : Parameters [] []
  | first {name : Token} : name.kind = .identifier → Parameters [name] [name]
  | next {comma name : Token} {ts names : List Token} :
      Parameters ts names → names ≠ [] → comma.kind = .symbol .comma →
      name.kind = .identifier → Parameters (ts ++ [comma, name]) (names ++ [name])

inductive Superclass : Nat → List Token → Option Reference → Nat → Prop where
  | absent {k : Nat} : Superclass k [] none k
  | present {less name : Token} {k : Nat} :
      less.kind = .symbol .less → name.kind = .identifier →
      Superclass k [less, name] (some ⟨k, name⟩) (k + 1)

mutual

/-- `Statement isOpen k ts s k'`: a statement, which is open if it ends in an `if` that has no
`else` yet. -/
inductive Statement : Bool → Nat → List Token → Stmt → Nat → Prop where
  | expression {k k' : Nat} {ts : List Token} {s : Stmt} :
      ExpressionStatement k ts s k' → Statement false k ts s k'
  | print {word semicolon : Token} {k k' : Nat} {ts : List Token} {e : Expr} :
      word.kind = .keyword .printWord → Expression .assignment k ts e k' →
      semicolon.kind = .symbol .semicolon →
      Statement false k (word :: (ts ++ [semicolon])) (.print e) k'
  | giveBack {word semicolon : Token} {k k' : Nat} {ts : List Token} {value : Option Expr} :
      word.kind = .keyword .returnWord → OptionalExpression k ts value k' →
      semicolon.kind = .symbol .semicolon →
      Statement false k (word :: (ts ++ [semicolon])) (.giveBack word value) k'
  | block {left right : Token} {k k' : Nat} {ts : List Token} {body : List Stmt} :
      left.kind = .symbol .leftBrace → Declarations k ts body k' →
      right.kind = .symbol .rightBrace →
      Statement false k (left :: (ts ++ [right])) (.block body) k'
  | ifThen {isOpen : Bool} {word left right : Token} {k k₁ k' : Nat} {ts ts' : List Token}
      {condition : Expr} {yes : Stmt} :
      word.kind = .keyword .ifWord → left.kind = .symbol .leftParen →
      Expression .assignment k ts condition k₁ → right.kind = .symbol .rightParen →
      Statement isOpen k₁ ts' yes k' →
      Statement true k (word :: left :: (ts ++ right :: ts')) (.conditional condition yes none) k'
  | ifElse {isOpen : Bool} {word left right otherwise : Token} {k k₁ k₂ k' : Nat}
      {ts ts' ts'' : List Token} {condition : Expr} {yes no : Stmt} :
      word.kind = .keyword .ifWord → left.kind = .symbol .leftParen →
      Expression .assignment k ts condition k₁ → right.kind = .symbol .rightParen →
      Statement false k₁ ts' yes k₂ → otherwise.kind = .keyword .elseWord →
      Statement isOpen k₂ ts'' no k' →
      Statement isOpen k (word :: left :: (ts ++ right :: (ts' ++ otherwise :: ts'')))
        (.conditional condition yes (some no)) k'
  | whileLoop {isOpen : Bool} {word left right : Token} {k k₁ k' : Nat} {ts ts' : List Token}
      {condition : Expr} {body : Stmt} :
      word.kind = .keyword .whileWord → left.kind = .symbol .leftParen →
      Expression .assignment k ts condition k₁ → right.kind = .symbol .rightParen →
      Statement isOpen k₁ ts' body k' →
      Statement isOpen k (word :: left :: (ts ++ right :: ts')) (.loop condition body) k'
  | forLoop {isOpen : Bool} {word left semicolon right : Token} {k k₁ k₂ k₃ k' : Nat}
      {ts₁ ts₂ ts₃ ts₄ : List Token} {start : Option Stmt} {condition increment : Option Expr}
      {body : Stmt} :
      word.kind = .keyword .forWord → left.kind = .symbol .leftParen →
      Start k ts₁ start k₁ → OptionalExpression k₁ ts₂ condition k₂ →
      semicolon.kind = .symbol .semicolon → OptionalExpression k₂ ts₃ increment k₃ →
      right.kind = .symbol .rightParen → Statement isOpen k₃ ts₄ body k' →
      Statement isOpen k
        (word :: left :: (ts₁ ++ (ts₂ ++ semicolon :: (ts₃ ++ right :: ts₄))))
        (countingLoop start condition increment body) k'

inductive Declaration : Nat → List Token → Stmt → Nat → Prop where
  | classDecl {word name left right : Token} {k k₁ k' : Nat} {ts ts' : List Token}
      {superclass : Option Reference} {methods : List Function} :
      word.kind = .keyword .classWord → name.kind = .identifier →
      Superclass k ts superclass k₁ → left.kind = .symbol .leftBrace →
      Callables k₁ ts' methods k' → right.kind = .symbol .rightBrace →
      Declaration k (word :: name :: (ts ++ left :: (ts' ++ [right])))
        (.classDecl name superclass methods) k'
  | functionDecl {word : Token} {k k' : Nat} {ts : List Token} {f : Function} :
      word.kind = .keyword .funWord → Callable k ts f k' →
      Declaration k (word :: ts) (.functionDecl f) k'
  | varDecl {k k' : Nat} {ts : List Token} {s : Stmt} :
      Variable k ts s k' → Declaration k ts s k'
  | statement {isOpen : Bool} {k k' : Nat} {ts : List Token} {s : Stmt} :
      Statement isOpen k ts s k' → Declaration k ts s k'

/-- Declarations one after the other. -/
inductive Declarations : Nat → List Token → List Stmt → Nat → Prop where
  | nil {k : Nat} : Declarations k [] [] k
  | cons {k k₁ k' : Nat} {ts ts' : List Token} {s : Stmt} {ss : List Stmt} :
      Declaration k ts s k₁ → Declarations k₁ ts' ss k' →
      Declarations k (ts ++ ts') (s :: ss) k'

/-- A function or a method, from its name on. -/
inductive Callable : Nat → List Token → Function → Nat → Prop where
  | mk {name left right leftBrace rightBrace : Token} {k k' : Nat} {ts ts' params : List Token}
      {body : List Stmt} :
      name.kind = .identifier → left.kind = .symbol .leftParen → Parameters ts params →
      params.length ≤ maxItems → right.kind = .symbol .rightParen →
      leftBrace.kind = .symbol .leftBrace → Declarations k ts' body k' →
      rightBrace.kind = .symbol .rightBrace →
      Callable k (name :: left :: (ts ++ right :: leftBrace :: (ts' ++ [rightBrace])))
        (.mk name params body) k'

/-- Methods one after the other. -/
inductive Callables : Nat → List Token → List Function → Nat → Prop where
  | nil {k : Nat} : Callables k [] [] k
  | cons {k k₁ k' : Nat} {ts ts' : List Token} {f : Function} {fs : List Function} :
      Callable k ts f k₁ → Callables k₁ ts' fs k' →
      Callables k (ts ++ ts') (f :: fs) k'

end

/-- A whole program. -/
abbrev Program : Nat → List Token → List Stmt → Nat → Prop := Declarations

/-- Programs one after the other are a program. -/
theorem Declarations.append {k k₁ k' : Nat} {ts ts' : List Token} {ss ss' : List Stmt} :
    Declarations k ts ss k₁ → Declarations k₁ ts' ss' k' →
    Declarations k (ts ++ ts') (ss ++ ss') k'
  | .nil, h => h
  | .cons hd hds, h => by
      rw [List.append_assoc]
      exact .cons hd (hds.append h)

theorem Declarations.snoc {k k₁ k' : Nat} {ts ts' : List Token} {ss : List Stmt} {s : Stmt}
    (hs : Declarations k ts ss k₁) (h : Declaration k₁ ts' s k') :
    Declarations k (ts ++ ts') (ss ++ [s]) k' := by
  have h' := Declarations.cons h .nil
  rw [List.append_nil] at h'
  exact hs.append h'

theorem Callables.snoc {k k₁ k' : Nat} {ts ts' : List Token} {fs : List Function} {f : Function} :
    Callables k ts fs k₁ → Callable k₁ ts' f k' → Callables k (ts ++ ts') (fs ++ [f]) k'
  | .nil, h => by
      have h' := Callables.cons h .nil
      rwa [List.append_nil] at h'
  | .cons hg hgs, h => by
      rw [List.append_assoc]
      exact .cons hg (hgs.snoc h)

/-! ## First tokens -/

/-- The kinds of token that a call, or anything tighter, can start with. -/
def startsCall (kind : Token.Kind) : Bool :=
  (constant? kind).isSome || kind = .identifier || kind = .keyword .thisWord
    || kind = .keyword .superWord || kind = .symbol .leftParen

/-- The kinds of token that an expression can start with. -/
def startsExpression (kind : Token.Kind) : Bool := kind ∈ unaryOperators || startsCall kind

def Level.starts : Level → Token.Kind → Bool
  | call | primary => startsCall
  | _ => startsExpression

/-- The kinds of token that a statement can start with. -/
def startsStatement (kind : Token.Kind) : Bool :=
  startsExpression kind || kind = .symbol .leftBrace ||
    kind ∈ [.forWord, .ifWord, .whileWord, .printWord, .returnWord].map Token.Kind.keyword

/-- The kinds of token that a declaration can start with. -/
def startsDeclaration (kind : Token.Kind) : Bool :=
  startsStatement kind || kind ∈ [.classWord, .funWord, .varWord].map Token.Kind.keyword

theorem startsExpression_of_starts {level : Level} {kind : Token.Kind}
    (h : level.starts kind = true) : startsExpression kind = true := by
  cases level <;> simp_all [Level.starts, startsExpression]

theorem starts_operand {c : Chain} {kind : Token.Kind} (h : c.operand.starts kind = true) :
    (Level.chain c).starts kind = true :=
  startsExpression_of_starts h

theorem Expression.first : ∀ {level : Level} {k k' : Nat} {ts : List Token} {e : Expr},
    Expression level k ts e k' → ∃ t ts', ts = t :: ts' ∧ level.starts t.kind = true
  | _, _, _, _, _, .assignName hn _ _ =>
      ⟨_, _, rfl, by simp [hn, Level.starts, startsExpression, startsCall]⟩
  | _, _, _, _, _, .assignField h _ _ _ _ => by
      obtain ⟨t, ts', rfl, ht⟩ := h.first
      exact ⟨t, _, rfl, startsExpression_of_starts ht⟩
  | _, _, _, _, _, .noAssignment h => h.first
  | _, _, _, _, _, .operation h _ _ => by
      obtain ⟨t, ts', rfl, ht⟩ := h.first
      exact ⟨t, _, rfl, ht⟩
  | _, _, _, _, _, .operand h => by
      obtain ⟨t, ts', rfl, ht⟩ := h.first
      exact ⟨t, _, rfl, starts_operand ht⟩
  | _, _, _, _, _, .unary ho _ => ⟨_, _, rfl, by simp [ho, Level.starts, startsExpression]⟩
  | _, _, _, _, _, .noUnary h => by
      obtain ⟨t, ts', rfl, ht⟩ := h.first
      exact ⟨t, _, rfl, startsExpression_of_starts ht⟩
  | _, _, _, _, _, .call h _ _ _ _ => by
      obtain ⟨t, ts', rfl, ht⟩ := h.first
      exact ⟨t, _, rfl, ht⟩
  | _, _, _, _, _, .get h _ _ => by
      obtain ⟨t, ts', rfl, ht⟩ := h.first
      exact ⟨t, _, rfl, ht⟩
  | _, _, _, _, _, .noCall h => h.first
  | _, _, _, _, _, .literal h => ⟨_, _, rfl, by simp [h, Level.starts, startsCall]⟩
  | _, _, _, _, _, .ident h => ⟨_, _, rfl, by simp [h, Level.starts, startsCall]⟩
  | _, _, _, _, _, .this h => ⟨_, _, rfl, by simp [h, Level.starts, startsCall]⟩
  | _, _, _, _, _, .super h _ _ => ⟨_, _, rfl, by simp [h, Level.starts, startsCall]⟩
  | _, _, _, _, _, .grouping h _ _ => ⟨_, _, rfl, by simp [h, Level.starts, startsCall]⟩

theorem Arguments.first_or_none : ∀ {k k' : Nat} {ts : List Token} {given : List Expr},
    Arguments k ts given k' → (ts = [] ∧ given = [] ∧ k' = k) ∨
      (given ≠ [] ∧ ∃ t ts', ts = t :: ts' ∧ startsExpression t.kind = true)
  | _, _, _, _, .none => .inl ⟨rfl, rfl, rfl⟩
  | _, _, _, _, .first h => .inr ⟨List.cons_ne_nil _ _, h.first⟩
  | _, _, _, _, .next h hne _ _ => by
      rcases h.first_or_none with ⟨-, rfl, -⟩ | ⟨-, t, ts', rfl, ht⟩
      · exact absurd rfl hne
      · exact .inr ⟨by simp, t, _, rfl, ht⟩

theorem Parameters.first_or_none : ∀ {ts names : List Token}, Parameters ts names →
    (ts = [] ∧ names = []) ∨ (names ≠ [] ∧ ∃ t ts', ts = t :: ts' ∧ t.kind = .identifier)
  | _, _, .none => .inl ⟨rfl, rfl⟩
  | _, _, .first h => .inr ⟨List.cons_ne_nil _ _, _, _, rfl, h⟩
  | _, _, .next h hne _ _ => by
      rcases h.first_or_none with ⟨-, rfl⟩ | ⟨-, t, ts', rfl, ht⟩
      · exact absurd rfl hne
      · exact .inr ⟨by simp, t, _, rfl, ht⟩

theorem ExpressionStatement.first {k k' : Nat} {ts : List Token} {s : Stmt} :
    ExpressionStatement k ts s k' → ∃ t ts', ts = t :: ts' ∧ startsExpression t.kind = true
  | .mk h _ => by
      obtain ⟨t, ts', rfl, ht⟩ := h.first
      exact ⟨t, _, rfl, ht⟩

theorem Statement.first {isOpen : Bool} {k k' : Nat} {ts : List Token} {s : Stmt}
    (h : Statement isOpen k ts s k') :
    ∃ t ts', ts = t :: ts' ∧ startsStatement t.kind = true := by
  cases h with
  | expression h =>
      obtain ⟨t, ts', rfl, ht⟩ := h.first
      exact ⟨t, _, rfl, by simp [ht, startsStatement]⟩
  | print h => exact ⟨_, _, rfl, by simp [h, startsStatement]⟩
  | giveBack h => exact ⟨_, _, rfl, by simp [h, startsStatement]⟩
  | block h => exact ⟨_, _, rfl, by simp [h, startsStatement]⟩
  | ifThen h => exact ⟨_, _, rfl, by simp [h, startsStatement]⟩
  | ifElse h => exact ⟨_, _, rfl, by simp [h, startsStatement]⟩
  | whileLoop h => exact ⟨_, _, rfl, by simp [h, startsStatement]⟩
  | forLoop h => exact ⟨_, _, rfl, by simp [h, startsStatement]⟩

theorem Declaration.first {k k' : Nat} {ts : List Token} {s : Stmt}
    (h : Declaration k ts s k') : ∃ t ts', ts = t :: ts' ∧ startsDeclaration t.kind = true := by
  cases h with
  | classDecl h => exact ⟨_, _, rfl, by simp [h, startsDeclaration]⟩
  | functionDecl h => exact ⟨_, _, rfl, by simp [h, startsDeclaration]⟩
  | varDecl h => cases h with | mk h => exact ⟨_, _, rfl, by simp [h, startsDeclaration]⟩
  | statement h =>
      obtain ⟨t, ts', rfl, ht⟩ := h.first
      exact ⟨t, _, rfl, by simp [ht, startsDeclaration]⟩

theorem Callable.first {k k' : Nat} {ts : List Token} {f : Function}
    (h : Callable k ts f k') :
    ∃ t ts', ts = t :: ts' ∧ t.kind = .identifier := by
  cases h with
  | mk hname => exact ⟨_, _, rfl, hname⟩

end Lox.Grammar
