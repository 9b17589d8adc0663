import Lox.Proofs.Control.Shapes
import Lox.Proofs.Totality

/-!
# What the trees of the parser are made of

A tree could have any token for an operator or for a name, any number of arguments, and a declaration for a
branch. The trees that the parser makes have none of that: the grammar has no phrase for it. So whoever walks
through them need not look for it.
-/

namespace Lox

/-! ## Well-formed trees -/

namespace Operator

/-- The operators between two operands that are both evaluated. -/
def binaryKinds : List Token.Kind :=
  [.symbol .minus, .symbol .plus, .symbol .slash, .symbol .star, .symbol .greater,
    .symbol .greaterEqual, .symbol .less, .symbol .lessEqual, .symbol .bangEqual, .symbol .equalEqual]

def logicalKinds : List Token.Kind := [.keyword .orWord, .keyword .andWord]

def unaryKinds : List Token.Kind := [.symbol .bang, .symbol .minus]

end Operator

/-- The token can be the name of something. -/
def Token.IsName (t : Token) : Prop := t.kind = .identifier

mutual

/-- Operators and names are what they should be, and no call has too many arguments. -/
def Expr.WellFormed : Expr → Prop
  | .literal _ => True
  | .unary operator operand => operator.kind ∈ Operator.unaryKinds ∧ operand.WellFormed
  | .binary left operator right =>
    left.WellFormed ∧ operator.kind ∈ Operator.binaryKinds ∧ right.WellFormed
  | .logical left operator right =>
    left.WellFormed ∧ operator.kind ∈ Operator.logicalKinds ∧ right.WellFormed
  | .grouping inner => inner.WellFormed
  | .ident use => use.name.IsName
  | .assign use value => use.name.IsName ∧ value.WellFormed
  | .call callee _ arguments =>
    callee.WellFormed ∧ arguments.length ≤ 255 ∧ Expr.AllWellFormed arguments
  | .get object name => object.WellFormed ∧ name.IsName
  | .set object name value => object.WellFormed ∧ name.IsName ∧ value.WellFormed
  | .this use => use.name.kind = .keyword .thisWord
  | .super use method => use.name.kind = .keyword .superWord ∧ method.IsName

def Expr.AllWellFormed : List Expr → Prop
  | [] => True
  | e :: es => e.WellFormed ∧ Expr.AllWellFormed es

end

mutual

/-- The expressions are well-formed, names are what they should be, no function has too many parameters, and no
branch and no body of a loop declares anything. -/
def Stmt.WellFormed : Stmt → Prop
  | .expression e => e.WellFormed
  | .print e => e.WellFormed
  | .variableDecl name none => name.IsName
  | .variableDecl name (some value) => name.IsName ∧ value.WellFormed
  | .block body => Stmt.AllWellFormed body
  | .conditional condition yes none =>
    condition.WellFormed ∧ Scoping.declaredName? yes = none ∧ yes.WellFormed
  | .conditional condition yes (some no) =>
    condition.WellFormed ∧ (Scoping.declaredName? yes = none ∧ yes.WellFormed) ∧
      Scoping.declaredName? no = none ∧ no.WellFormed
  | .loop condition body =>
    condition.WellFormed ∧ Scoping.declaredName? body = none ∧ body.WellFormed
  | .functionDecl declared => declared.WellFormed
  | .giveBack _ none => True
  | .giveBack _ (some value) => value.WellFormed
  | .classDecl name none methods => name.IsName ∧ Function.AllWellFormed methods
  | .classDecl name (some superclass) methods =>
    name.IsName ∧ superclass.name.IsName ∧ Function.AllWellFormed methods

def Stmt.AllWellFormed : List Stmt → Prop
  | [] => True
  | s :: ss => s.WellFormed ∧ Stmt.AllWellFormed ss

def Function.WellFormed : Function → Prop
  | .mk name params body =>
    name.IsName ∧ params.length ≤ 255 ∧ (∀ param ∈ params, param.IsName) ∧ Stmt.AllWellFormed body

def Function.AllWellFormed : List Function → Prop
  | [] => True
  | f :: fs => f.WellFormed ∧ Function.AllWellFormed fs

end

theorem Expr.allWellFormed_append : ∀ {es es' : List Expr}, Expr.AllWellFormed es →
    Expr.AllWellFormed es' → Expr.AllWellFormed (es ++ es')
  | [], _, _, h' => h'
  | _ :: _, _, ⟨he, hes⟩, h' => ⟨he, Expr.allWellFormed_append hes h'⟩

/-! ## What the grammar derives -/

namespace Grammar

/-- A chain makes binary or logical expressions, and has operators of this sort. -/
theorem Chain.join_eq (c : Chain) :
    (c.join = .binary ∧ c.operators ⊆ Operator.binaryKinds) ∨
      (c.join = .logical ∧ c.operators ⊆ Operator.logicalKinds) := by
  cases c with
  | disjunction => exact .inr ⟨rfl, by decide⟩
  | conjunction => exact .inr ⟨rfl, by decide⟩
  | equality => exact .inl ⟨rfl, by decide⟩
  | comparison => exact .inl ⟨rfl, by decide⟩
  | term => exact .inl ⟨rfl, by decide⟩
  | factor => exact .inl ⟨rfl, by decide⟩

theorem Chain.join_wellFormed {c : Chain} {left right : Expr} {operator : Token}
    (hleft : left.WellFormed) (hoperator : operator.kind ∈ c.operators) (hright : right.WellFormed) :
    (c.join left operator right).WellFormed := by
  rcases c.join_eq with ⟨hjoin, hkinds⟩ | ⟨hjoin, hkinds⟩
  · rw [hjoin]
    exact ⟨hleft, hkinds hoperator, hright⟩
  · rw [hjoin]
    exact ⟨hleft, hkinds hoperator, hright⟩

mutual

theorem Expression.wellFormed : ∀ {level : Level} {k k' : Nat} {ts : List Token} {e : Expr},
    Expression level k ts e k' → e.WellFormed
  | _, _, _, _, _, .assignName hname _ h => ⟨hname, h.wellFormed⟩
  | _, _, _, _, _, .assignField h _ hname _ h' => ⟨h.wellFormed, hname, h'.wellFormed⟩
  | _, _, _, _, _, .noAssignment h => h.wellFormed
  | _, _, _, _, _, .operation h hoperator h' =>
      Chain.join_wellFormed h.wellFormed hoperator h'.wellFormed
  | _, _, _, _, _, .operand h => h.wellFormed
  | _, _, _, _, _, .unary hoperator h => ⟨hoperator, h.wellFormed⟩
  | _, _, _, _, _, .noUnary h => h.wellFormed
  | _, _, _, _, _, .call h _ h' hcount _ => ⟨h.wellFormed, hcount, h'.wellFormed⟩
  | _, _, _, _, _, .get h _ hname => ⟨h.wellFormed, hname⟩
  | _, _, _, _, _, .noCall h => h.wellFormed
  | _, _, _, _, _, .literal _ => trivial
  | _, _, _, _, _, .ident hname => hname
  | _, _, _, _, _, .this hkeyword => hkeyword
  | _, _, _, _, _, .super hkeyword _ hmethod => ⟨hkeyword, hmethod⟩
  | _, _, _, _, _, .grouping _ h _ => h.wellFormed

theorem Arguments.wellFormed : ∀ {k k' : Nat} {ts : List Token} {given : List Expr},
    Arguments k ts given k' → Expr.AllWellFormed given
  | _, _, _, _, .none => trivial
  | _, _, _, _, .first h => ⟨h.wellFormed, trivial⟩
  | _, _, _, _, .next h _ _ h' =>
      Expr.allWellFormed_append h.wellFormed ⟨h'.wellFormed, trivial⟩

end

theorem Variable.wellFormed {k k' : Nat} {ts : List Token} {s : Stmt} (h : Variable k ts s k') :
    s.WellFormed := by
  cases h with
  | mk _ hname hvalue _ =>
      cases hvalue with
      | absent => exact hname
      | present _ h => exact ⟨hname, h.wellFormed⟩

theorem ExpressionStatement.wellFormed {k k' : Nat} {ts : List Token} {s : Stmt}
    (h : ExpressionStatement k ts s k') : s.WellFormed := by
  cases h with
  | mk h _ => exact h.wellFormed

theorem Start.wellFormed {k k' : Nat} {ts : List Token} {s : Stmt}
    (h : Start k ts (some s) k') : s.WellFormed := by
  cases h with
  | varDecl h => exact h.wellFormed
  | expression h => exact h.wellFormed

theorem OptionalExpression.wellFormed {k k' : Nat} {ts : List Token} {e : Expr}
    (h : OptionalExpression k ts (some e) k') : e.WellFormed := by
  cases h with
  | present h => exact h.wellFormed

theorem giveBack_wellFormed {k k' : Nat} {ts : List Token} {word : Token} {value : Option Expr}
    (h : OptionalExpression k ts value k') : (Stmt.giveBack word value).WellFormed := by
  cases h with
  | absent => exact trivial
  | present h => exact h.wellFormed

theorem Parameters.isName {ts names : List Token} (h : Parameters ts names) :
    ∀ name ∈ names, name.IsName :=
  fun name hname => (h.taken name hname).2

theorem classDecl_wellFormed {k k' : Nat} {ts : List Token} {name : Token}
    {superclass : Option Reference} {methods : List Function} (hname : name.IsName)
    (h : Superclass k ts superclass k') (hmethods : Function.AllWellFormed methods) :
    (Stmt.classDecl name superclass methods).WellFormed := by
  cases h with
  | absent => exact ⟨hname, hmethods⟩
  | present _ hsuperclass => exact ⟨hname, hsuperclass, hmethods⟩

/-- The clauses of a counting loop are put into blocks and a loop, and those declare nothing. -/
theorem countingLoop_wellFormed {k₁ k₂ k₃ k₄ k₅ k₆ : Nat} {ts₁ ts₂ ts₃ : List Token}
    {start : Option Stmt} {condition increment : Option Expr} {body : Stmt}
    (hstart : Start k₁ ts₁ start k₂) (hcondition : OptionalExpression k₃ ts₂ condition k₄)
    (hincrement : OptionalExpression k₅ ts₃ increment k₆)
    (hdeclares : Scoping.declaredName? body = none) (hbody : body.WellFormed) :
    (countingLoop start condition increment body).WellFormed := by
  have hinner : Scoping.declaredName? (withIncrement body increment) = none ∧
      (withIncrement body increment).WellFormed := by
    cases increment with
    | none => exact ⟨hdeclares, hbody⟩
    | some e => exact ⟨rfl, hbody, hincrement.wellFormed, trivial⟩
  have hloop : (Stmt.loop (condition.getD (.literal (.bool true)))
      (withIncrement body increment)).WellFormed := by
    cases condition with
    | none => exact ⟨trivial, hinner⟩
    | some e => exact ⟨hcondition.wellFormed, hinner⟩
  cases start with
  | none => exact hloop
  | some s => exact ⟨hstart.wellFormed, hloop, trivial⟩

mutual

theorem Statement.wellFormed : ∀ {isOpen : Bool} {k k' : Nat} {ts : List Token} {s : Stmt},
    Statement isOpen k ts s k' → s.WellFormed
  | _, _, _, _, _, .expression h => h.wellFormed
  | _, _, _, _, _, .print _ h _ => h.wellFormed
  | _, _, _, _, _, .giveBack _ h _ => giveBack_wellFormed h
  | _, _, _, _, _, .block _ h _ => h.wellFormed
  | _, _, _, _, _, .ifThen _ _ h _ h' => ⟨h.wellFormed, h'.branching.1, h'.wellFormed⟩
  | _, _, _, _, _, .ifElse _ _ h _ h' _ h'' =>
      ⟨h.wellFormed, ⟨h'.branching.1, h'.wellFormed⟩, h''.branching.1, h''.wellFormed⟩
  | _, _, _, _, _, .whileLoop _ _ h _ h' => ⟨h.wellFormed, h'.branching.1, h'.wellFormed⟩
  | _, _, _, _, _, .forLoop _ _ hstart hcondition _ hincrement _ h =>
      countingLoop_wellFormed hstart hcondition hincrement h.branching.1 h.wellFormed

theorem Declaration.wellFormed : ∀ {k k' : Nat} {ts : List Token} {s : Stmt},
    Declaration k ts s k' → s.WellFormed
  | _, _, _, _, .classDecl _ hname hsuperclass _ h _ =>
      classDecl_wellFormed hname hsuperclass h.wellFormed
  | _, _, _, _, .functionDecl _ h => h.wellFormed
  | _, _, _, _, .varDecl h => h.wellFormed
  | _, _, _, _, .statement h => h.wellFormed

theorem Declarations.wellFormed : ∀ {k k' : Nat} {ts : List Token} {ss : List Stmt},
    Declarations k ts ss k' → Stmt.AllWellFormed ss
  | _, _, _, _, .nil => trivial
  | _, _, _, _, .cons h h' => ⟨h.wellFormed, h'.wellFormed⟩

theorem Callable.wellFormed : ∀ {k k' : Nat} {ts : List Token} {f : Function},
    Callable k ts f k' → f.WellFormed
  | _, _, _, _, .mk hname _ hparams hcount _ _ h _ =>
      ⟨hname, hcount, hparams.isName, h.wellFormed⟩

theorem Callables.wellFormed : ∀ {k k' : Nat} {ts : List Token} {fs : List Function},
    Callables k ts fs k' → Function.AllWellFormed fs
  | _, _, _, _, .nil => trivial
  | _, _, _, _, .cons h h' => ⟨h.wellFormed, h'.wellFormed⟩

end

end Grammar

/-! ## What is read -/

namespace Parser

/-- A tree is what the rule has read, and no fault was recorded. -/
theorem read_of_run {α : Type} {rule : Nat → Parser α} {tokens : List Token} {k : Nat} {tree : α}
    (h : (run rule tokens k).result = .ok tree) : ∃ s,
      rule (State.ofTokens tokens k).rest.length (State.ofTokens tokens k) = .ok tree s ∧
        s.faults = #[] := by
  rw [run_eq] at h
  cases hread : rule (State.ofTokens tokens k).rest.length (State.ofTokens tokens k) with
  | error d s => exact nomatch hread ▸ h
  | ok tree' s =>
      rw [hread] at h
      by_cases hno : s.faults = #[]
      · have hresult : (outcome (.ok tree' s)).result = .ok tree' := by simp [outcome, hno]
        cases hresult.symm.trans h
        exact ⟨s, rfl, hno⟩
      · simp [outcome, hno] at h

theorem wholeExpression_sound (bound k : Nat) :
    Derives k (wholeExpression bound) (Grammar.Expression .assignment k) := by
  refine (expression_sound bound k).bind fun e ts k₁ => ?_
  refine atEnd_sound fun _ => Sound.ite (Sound.pure fun _ h => ?_) fail_sound
  rwa [List.append_nil]

end Parser

/-- Whatever the tokens are, a program that is read from them is well-formed. -/
theorem parseProgram_wellFormed {tokens : List Token} {k : Nat} {P : List Stmt}
    (h : (parseProgram tokens k).result = .ok P) : Stmt.AllWellFormed P := by
  obtain ⟨s, hread, hno⟩ := Parser.read_of_run h
  exact (Parser.program_derives hread hno).wellFormed

theorem parseExpression_wellFormed {tokens : List Token} {k : Nat} {e : Expr}
    (h : (parseExpression tokens k).result = .ok e) : e.WellFormed := by
  obtain ⟨s, hread, hno⟩ := Parser.read_of_run h
  obtain ⟨ts, -, hderived⟩ := (Parser.wholeExpression_sound _ _ _ _ _ hread hno).2 rfl
  exact hderived.wellFormed

end Lox
