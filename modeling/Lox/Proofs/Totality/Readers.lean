import Lox.Proofs.Totality.Cursor

/-!
# What readers are made of

The rules look at tokens and take them in a few ways only, and those are put together one after the other.
So what a reading does is known from what it does at single tokens: which states it comes through, that it
goes forward in each of them, and that what is recorded in one of them is recorded in the end.
-/

namespace Lox.Parser

variable {α β : Type}

/-- The readers that are put together from those of single tokens. -/
inductive Built : {α : Type} → Parser α → Prop
  | pure {α : Type} (a : α) : Built (pure a)
  | bind {α β : Type} {p : Parser α} {f : α → Parser β} (hp : Built p) (hf : ∀ a, Built (f a)) :
      Built (p >>= f)
  | peek : Built peek
  | atEnd : Built atEnd
  | nextIs {symbol : Symbol} : Built (nextIs symbol)
  | skip : Built skip
  | take? {accepts : Token.Kind → Bool} : Built (take? accepts)
  | reference {name : Token} : Built (reference name)
  | report {t : Token} {fault : SyntaxFault} : Built (report t fault)
  | reportExcess {count : Nat} {fault : SyntaxFault} : Built (reportExcess count fault)
  | fail {α : Type} {fault : SyntaxFault} : Built (fail fault : Parser α)
  | recovering {rule : Parser Stmt} (h : Built rule) : Built (recovering rule)

/-- Where a reading leaves off, whether it ends well or not. -/
def final : EStateM.Result Diagnostic State α → State
  | .ok _ s => s
  | .error _ s => s

/-- The states that a reading comes through, from its first to its last one. -/
inductive Visits : {α : Type} → Parser α → State → State → Prop
  | first {α : Type} (p : Parser α) (s : State) : Visits p s s
  | last {α : Type} (p : Parser α) (s : State) : Visits p s (final (p s))
  | before {α β : Type} {p : Parser α} {f : α → Parser β} {s v : State} (hp : Built p)
      (hf : ∀ a, Built (f a)) (h : Visits p s v) : Visits (p >>= f) s v
  | after {α β : Type} {p : Parser α} {f : α → Parser β} {s s' v : State} {a : α} (hp : Built p)
      (hf : ∀ a, Built (f a)) (hok : p s = .ok a s') (h : Visits (f a) s' v) : Visits (p >>= f) s v
  | recovering {rule : Parser Stmt} {s v : State} (hp : Built rule) (h : Visits rule s v) :
      Visits (recovering rule) s v

/-! ## Forward -/

theorem peek_proceeds : Proceeds peek where
  ok h := by
    cases h
    exact .refl _
  error h := nomatch h

theorem skip_proceeds : Proceeds skip where
  ok h := by
    cases h
    exact ⟨List.tail_suffix _, fun _ h => h, rfl⟩
  error h := nomatch h

theorem Built.proceeds {p : Parser α} (h : Built p) : Proceeds p := by
  induction h with
  | pure a => exact .pure a
  | bind _ _ hp hf => exact hp.bind hf
  | peek => exact peek_proceeds
  | atEnd => exact atEnd_proceeds
  | nextIs => exact nextIs_proceeds
  | skip => exact skip_proceeds
  | take? => exact take?_proceeds
  | reference => exact reference_proceeds
  | report => exact report_proceeds
  | reportExcess => exact reportExcess_proceeds
  | fail => exact fail_progresses.toProceeds
  | recovering _ h => exact recovering_proceeds h

theorem Proceeds.final {p : Parser α} (h : Proceeds p) (s : State) : s.Precedes (final (p s)) := by
  cases hp : p s with
  | ok a s' => exact h.ok hp
  | error d s' => exact (h.error hp).1

/-- The states that are come through lie between the first and the last one. -/
theorem Visits.between {p : Parser α} {s v : State} (h : Visits p s v) (hbuilt : Built p) :
    s.Precedes v ∧ v.Precedes (final (p s)) := by
  induction h with
  | first p s => exact ⟨.refl _, hbuilt.proceeds.final s⟩
  | last p s => exact ⟨hbuilt.proceeds.final s, .refl _⟩
  | @before _ _ p f s v hp hf _ ih =>
      obtain ⟨hfrom, hto⟩ := ih hp
      refine ⟨hfrom, hto.trans ?_⟩
      cases hread : p s with
      | ok a s' =>
          rw [bind_ok hread]
          exact (hf a).proceeds.final s'
      | error d s' =>
          rw [bind_error hread]
          exact .refl _
  | @after _ _ p f s s' v a hp hf hok _ ih =>
      obtain ⟨hfrom, hto⟩ := ih (hf a)
      rw [bind_ok hok]
      exact ⟨(hp.proceeds.ok hok).trans hfrom, hto⟩
  | @recovering rule s v hrule _ ih =>
      obtain ⟨hfrom, hto⟩ := ih hrule
      refine ⟨hfrom, hto.trans ?_⟩
      -- what is skipped after a fault comes after it
      unfold Parser.recovering
      cases rule s with
      | ok stmt s' => exact .refl _
      | error d s' => exact (State.Precedes.push s' d).trans (synchronize_precedes _)

/-- No state is past the end token. -/
theorem Visits.exists_place {tokens : List Token} {p : Parser α} {s v : State} {i : Nat}
    (h : Visits p s v) (hp : Built p) (hs : s.At tokens i) : ∃ j, i ≤ j ∧ v.At tokens j :=
  hs.later (h.between hp).1

/-- The fault is recorded at some time while reading, or ends it. -/
def Records (p : Parser α) (s : State) (d : Diagnostic) : Prop :=
  (∃ v, Visits p s v ∧ d ∈ v.faults) ∨ ∃ s', p s = .error d s'

/-! ## The rules -/

namespace Built

variable {p q : Parser α}

theorem ite {b : Bool} (hp : Built p) (hq : Built q) : Built (if b = true then p else q) := by
  cases b with
  | true => exact hp
  | false => exact hq

theorem rounds {step : α → Parser (Option α)} (h : ∀ a, Built (step a)) :
    ∀ (bound : Nat) (a : α), Built (rounds step bound a)
  | 0, a => pure a
  | bound + 1, a => (h a).bind fun o => by
      cases o with
      | none => exact pure a
      | some b => exact rounds h bound b

theorem accept {symbol : Symbol} : Built (accept symbol) := take?.bind fun _ => .pure _

theorem acceptWord {keyword : Keyword} : Built (acceptWord keyword) := take?.bind fun _ => .pure _

theorem expect {symbol : Symbol} {spot : Spot} : Built (expect symbol spot) :=
  take?.bind fun o => by
    cases o with
    | none => exact fail
    | some t => exact pure t

theorem expectName {role : NameRole} : Built (expectName role) :=
  take?.bind fun o => by
    cases o with
    | none => exact fail
    | some t => exact pure t

theorem separated {bound : Nat} {excess : SyntaxFault} (h : Built p) :
    Built (separated bound p excess) :=
  h.bind fun _ => (rounds (fun _ => accept.bind fun _ =>
    ite (reportExcess.bind fun _ => h.bind fun _ => pure _) (pure _)) bound _).bind fun _ => pure _

theorem parenthesized {bound : Nat} {excess : SyntaxFault} (h : Built p) :
    Built (parenthesized bound p excess) :=
  nextIs.bind fun _ => ite (pure _) (separated h)

section

variable {expression : Parser Expr} {bound : Nat} (h : Built expression)
include h

theorem primary : Built (primary expression) := by
  refine peek.bind fun t => ?_
  split
  · exact skip.bind fun _ => pure _
  · exact skip.bind fun _ => pure _
  · exact skip.bind fun _ => pure _
  · exact skip.bind fun _ => pure _
  · exact skip.bind fun _ => pure _
  · exact skip.bind fun _ => expect.bind fun _ => expectName.bind fun _ => reference.bind fun _ =>
      pure _
  · exact skip.bind fun _ => reference.bind fun _ => pure _
  · exact skip.bind fun _ => reference.bind fun _ => pure _
  · exact skip.bind fun _ => h.bind fun _ => expect.bind fun _ => pure _
  · exact fail

theorem callSuffix {callee : Expr} : Built (callSuffix bound expression callee) :=
  accept.bind fun _ => ite ((parenthesized h).bind fun _ => expect.bind fun _ => pure _)
    (accept.bind fun _ => ite (expectName.bind fun _ => pure _) (pure _))

theorem unary : Built (unary bound expression) :=
  (rounds (fun _ => take?.bind fun _ => pure _) bound _).bind fun _ =>
    ((primary h).bind fun _ => rounds (fun _ => callSuffix h) bound _).bind fun _ => pure _

theorem leftChain {accepts : Token.Kind → Bool} {join : Expr → Token → Expr → Expr} :
    Built (leftChain bound accepts join expression) :=
  h.bind fun _ => rounds (fun _ => take?.bind fun o => by
    cases o with
    | none => exact pure _
    | some operator => exact h.bind fun _ => pure _) bound _

/-- What follows the expression before an equals sign. -/
theorem afterTarget (target : Expr) : Built (symbol? .equal >>= fun
    | some equals => expression >>= assignTo target equals
    | none => Pure.pure target) :=
  take?.bind fun o => by
    cases o with
    | none => exact pure target
    | some equals =>
        refine h.bind fun value => ?_
        cases target with
        | ident use => exact reference.bind fun _ => pure _
        | get object name => exact pure _
        | _ => exact report.bind fun _ => pure _

theorem assignment : Built (assignment bound expression) := by
  have hdisjunction : Built (disjunction bound expression) :=
    leftChain (leftChain (leftChain (leftChain (leftChain (leftChain (unary h))))))
  exact hdisjunction.bind fun target => afterTarget h target

end

theorem expression (bound : Nat) : Built (expression bound) := by
  induction bound with
  | zero => exact fail
  | succ bound ih => exact assignment ih

section

variable {statement : Parser Stmt} {declaration : Parser (Option Stmt)} {bound : Nat}

theorem expressionStatement : Built (expressionStatement bound) :=
  (expression bound).bind fun _ => expect.bind fun _ => pure _

theorem expressionUnless {symbol : Symbol} : Built (expressionUnless bound symbol) :=
  nextIs.bind fun _ => ite (pure _) ((expression bound).bind fun _ => pure _)

theorem variableDeclaration : Built (variableDeclaration bound) :=
  expectName.bind fun _ => (accept.bind fun _ => ite ((expression bound).bind fun _ => pure _)
    (pure _)).bind fun _ => expect.bind fun _ => pure _

theorem ifStatement (hs : Built statement) : Built (ifStatement bound statement) :=
  expect.bind fun _ => (expression bound).bind fun _ => expect.bind fun _ => hs.bind fun _ =>
    (acceptWord.bind fun _ => ite (hs.bind fun _ => pure _) (pure _)).bind fun _ => pure _

theorem whileStatement (hs : Built statement) : Built (whileStatement bound statement) :=
  expect.bind fun _ => (expression bound).bind fun _ => expect.bind fun _ => hs.bind fun _ => pure _

theorem startClause : Built (startClause bound) :=
  accept.bind fun _ => ite (pure _) (acceptWord.bind fun _ =>
    ite (variableDeclaration.bind fun _ => pure _) (expressionStatement.bind fun _ => pure _))

theorem forStatement (hs : Built statement) : Built (forStatement bound statement) :=
  expect.bind fun _ => startClause.bind fun _ => expressionUnless.bind fun _ => expect.bind fun _ =>
    expressionUnless.bind fun _ => expect.bind fun _ => hs.bind fun _ => pure _

/-- The loop over what is between braces. -/
theorem untilBrace {step : α → Parser (Option α)} (h : ∀ a, Built (step a)) (a : α) :
    Built (Parser.rounds (fun a => Parser.nextIs .rightBrace >>= fun x => Parser.atEnd >>= fun y =>
      if (x || y) = true then Pure.pure none else step a) bound a) :=
  rounds (fun a => nextIs.bind fun _ => atEnd.bind fun _ => ite (pure _) (h a)) bound a

theorem block (hd : Built declaration) : Built (block bound declaration) :=
  (untilBrace (fun _ => hd.bind fun _ => pure _) _).bind fun _ => expect.bind fun _ => pure _

theorem statementRule (hs : Built statement) (hd : Built declaration) :
    Built (statementRule bound statement declaration) := by
  refine acceptWord.bind fun _ => ite (forStatement hs) ?_
  refine acceptWord.bind fun _ => ite (ifStatement hs) ?_
  refine acceptWord.bind fun _ => ite
    ((expression bound).bind fun _ => expect.bind fun _ => pure _) ?_
  refine take?.bind fun o => ?_
  cases o with
  | some keyword => exact expressionUnless.bind fun _ => expect.bind fun _ => pure _
  | none =>
      refine acceptWord.bind fun _ => ite (whileStatement hs) ?_
      exact accept.bind fun _ => ite ((block hd).bind fun _ => pure _) expressionStatement

/-- What follows the name of a function. -/
theorem afterName {kind : CallableKind} {name : Token} (hd : Built declaration) : Built (do
    let _ ← Parser.expect .leftParen (.afterCallableName kind)
    let params ← parameters bound
    let _ ← Parser.expect .rightParen .afterParameters
    let _ ← Parser.expect .leftBrace (.beforeCallableBody kind)
    return Function.mk name params (← Parser.block bound declaration)) :=
  expect.bind fun _ => (parenthesized expectName).bind fun _ => expect.bind fun _ =>
    expect.bind fun _ => (block hd).bind fun _ => pure _

theorem function {kind : CallableKind} (hd : Built declaration) :
    Built (function bound kind declaration) :=
  expectName.bind fun _ => afterName hd

theorem classDeclaration (hd : Built declaration) : Built (classDeclaration bound declaration) :=
  expectName.bind fun _ => (accept.bind fun _ => ite (expectName.bind fun _ =>
    reference.bind fun _ => pure _) (pure _)).bind fun _ => expect.bind fun _ =>
      (untilBrace (fun _ => (function hd).bind fun _ => pure _) _).bind fun _ =>
        expect.bind fun _ => pure _

theorem declarationRule (hs : Built statement) (hd : Built declaration) :
    Built (declarationRule bound statement declaration) :=
  acceptWord.bind fun _ => ite (classDeclaration hd) (acceptWord.bind fun _ =>
    ite ((function hd).bind fun _ => pure _) (acceptWord.bind fun _ =>
      ite variableDeclaration (statementRule hs hd)))

end

theorem statements (bound : Nat) : Built (Parser.statement bound) ∧ Built (declaration bound) := by
  induction bound with
  | zero => exact ⟨fail, recovering fail⟩
  | succ bound ih =>
      obtain ⟨hs, hd⟩ := ih
      exact ⟨statementRule hs hd, recovering (declarationRule hs hd)⟩

theorem program (bound : Nat) : Built (program bound) :=
  (rounds (fun _ => atEnd.bind fun _ => ite (pure _)
    ((statements bound).2.bind fun _ => pure _)) bound _).bind fun _ => pure _

theorem wholeExpression (bound : Nat) : Built (wholeExpression bound) :=
  (expression bound).bind fun _ => atEnd.bind fun _ => ite (pure _) fail

end Built

end Lox.Parser
