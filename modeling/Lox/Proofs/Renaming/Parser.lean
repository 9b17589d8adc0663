import Lox.Program.Parser
import Lox.Proofs.Renaming

/-!
# Reading from another place

Tokens that stand on other lines, read with other numbers to give away, are read in the same way:
the tree, or the faults, and the number left over are those of the first reading, moved. This holds
for every input, whether or not it is a program.

What becomes of the faults is left open, but for those that the parser records. A choice of it that
singles them out shows that the parser records no others.
-/

namespace Lox.Parser

variable {α β γ δ : Type}

/-- By how much numbers are moved, where lines are moved to, and what this makes of the faults that
the parser records. -/
structure Move where
  offset : Nat
  lines : Nat → Nat
  diagnostic : Diagnostic → Diagnostic
  syntactic : ∀ (t : Token) (fault : SyntaxFault),
    diagnostic (t.diagnostic (.syntactic fault))
      = ({ t with line := lines t.line } : Token).diagnostic (.syntactic fault)

namespace Move

variable (M : Move)

def toRenaming : Renaming := .shift M.offset M.lines

def state (s : State) : State where
  rest := s.rest.map (Token.renamed M.toRenaming)
  endLine := M.lines s.endLine
  nextId := s.nextId + M.offset
  faults := s.faults.map M.diagnostic

def result (f : α → β) : EStateM.Result Diagnostic State α → EStateM.Result Diagnostic State β
  | .ok a s => .ok (f a) (M.state s)
  | .error d s => .error (M.diagnostic d) (M.state s)

end Move

variable {M : Move}

/-- From the moved state `p'` ends in the moved end of `p`, with its result changed by `f`. -/
def Follows (M : Move) (f : α → β) (p : Parser α) (p' : Parser β) : Prop :=
  ∀ s, p' (M.state s) = M.result f (p s)

namespace Follows

variable {f : α → β} {g : γ → δ} {p : Parser α} {p' : Parser β}

theorem pure (a : α) : Follows M f (pure a) (pure (f a)) := fun _ => rfl

theorem pure_of_eq {a : α} {b : β} (h : b = f a) : Follows M f (Pure.pure a) (Pure.pure b) :=
  h ▸ pure a

theorem bind {q : α → Parser γ} {q' : β → Parser δ} (hp : Follows M f p p')
    (hq : ∀ a, Follows M g (q a) (q' (f a))) : Follows M g (p >>= q) (p' >>= q') := by
  intro s
  show EStateM.bind p' q' (M.state s) = M.result g (EStateM.bind p q s)
  unfold EStateM.bind
  rw [hp s]
  cases p s with
  | ok a s₁ => exact hq a s₁
  | error d s₁ => rfl

theorem ite {b : Bool} {q : Parser α} {q' : Parser β} (hp : Follows M f p p')
    (hq : Follows M f q q') :
    Follows M f (if b = true then p else q) (if b = true then p' else q') := by
  cases b with
  | true => exact hp
  | false => exact hq

theorem rounds {step : α → Parser (Option α)} {step' : β → Parser (Option β)}
    (h : ∀ a, Follows M (Option.map f) (step a) (step' (f a))) :
    ∀ (bound : Nat) (a : α), Follows M f (rounds step bound a) (rounds step' bound (f a))
  | 0, a => pure a
  | bound + 1, a => (h a).bind fun o => by
      cases o with
      | none => exact pure a
      | some b => exact rounds h bound b

end Follows

/-! ## Single tokens -/

theorem Move.state_peek (s : State) : (M.state s).peek = s.peek.renamed M.toRenaming := by
  obtain ⟨rest, line, id, faults⟩ := s
  cases rest <;> rfl

theorem peek_follows : Follows M (Token.renamed M.toRenaming) peek peek := fun s => by
  show EStateM.Result.ok (M.state s).peek _ = _
  rw [Move.state_peek]
  rfl

theorem skip_follows : Follows M id skip skip := by
  rintro ⟨rest, line, id, faults⟩
  cases rest <;> rfl

theorem atEnd_follows : Follows M id atEnd atEnd := by
  rintro ⟨rest, line, id, faults⟩
  cases rest <;> rfl

theorem nextIs_follows {symbol : Symbol} : Follows M id (nextIs symbol) (nextIs symbol) := by
  rintro ⟨rest, line, id, faults⟩
  cases rest <;> rfl

theorem take?_follows {accepts : Token.Kind → Bool} :
    Follows M (Option.map (Token.renamed M.toRenaming)) (take? accepts) (take? accepts) := by
  rintro ⟨rest, line, id, faults⟩
  cases rest with
  | nil => rfl
  | cons t ts =>
      unfold take?
      simp only [Move.state, List.map_cons, Token.renamed_kind]
      split <;> rfl

theorem Move.state_push (s : State) (t : Token) (fault : SyntaxFault) :
    M.state { s with faults := s.faults.push (t.diagnostic (.syntactic fault)) }
      = { M.state s with
          faults := (M.state s).faults.push ((t.renamed M.toRenaming).diagnostic (.syntactic fault)) } := by
  simp only [Move.state, Array.map_push, M.syntactic]
  rfl

theorem report_follows {t : Token} {fault : SyntaxFault} :
    Follows M id (report t fault) (report (t.renamed M.toRenaming) fault) := fun s =>
  congrArg (EStateM.Result.ok ()) (Move.state_push s t fault).symm

theorem fail_follows {f : α → β} {fault : SyntaxFault} : Follows M f (fail fault) (fail fault) := by
  intro s
  unfold fail
  rw [Move.state_peek]
  show EStateM.Result.error _ _ = EStateM.Result.error _ _
  rw [M.syntactic]
  rfl

theorem reportExcess_follows {count : Nat} {fault : SyntaxFault} :
    Follows M id (reportExcess count fault) (reportExcess count fault) := by
  intro s
  unfold reportExcess
  rw [Move.state_peek]
  split
  · exact report_follows s
  · rfl

theorem accept_follows {symbol : Symbol} : Follows M id (accept symbol) (accept symbol) :=
  take?_follows.bind fun o => .pure_of_eq (by cases o <;> rfl)

theorem acceptWord_follows {keyword : Keyword} :
    Follows M id (acceptWord keyword) (acceptWord keyword) :=
  take?_follows.bind fun o => .pure_of_eq (by cases o <;> rfl)

theorem expect_follows {symbol : Symbol} {spot : Spot} :
    Follows M (Token.renamed M.toRenaming) (expect symbol spot) (expect symbol spot) :=
  take?_follows.bind fun o => by
    cases o with
    | none => exact fail_follows
    | some t => exact .pure t

theorem expectName_follows {role : NameRole} :
    Follows M (Token.renamed M.toRenaming) (expectName role) (expectName role) :=
  take?_follows.bind fun o => by
    cases o with
    | none => exact fail_follows
    | some t => exact .pure t

theorem reference_follows {name : Token} : Follows M (Reference.renamed M.toRenaming) (reference name)
    (reference (name.renamed M.toRenaming)) := by
  intro s
  have hid : s.nextId + M.offset + 1 = s.nextId + 1 + M.offset := Nat.add_right_comm ..
  simp only [reference, Move.result, Move.state, hid]
  rfl

/-! ## Items with commas between them -/

section

variable {f : α → β} {bound : Nat} {item : Parser α} {item' : Parser β} {excess : SyntaxFault}

theorem separated_follows (h : Follows M f item item') :
    Follows M (List.map f) (separated bound item excess) (separated bound item' excess) := by
  refine h.bind fun a => (Follows.rounds (f := List.map f) (fun taken => ?_) bound [a]).bind
    fun taken => .pure_of_eq List.map_reverse.symm
  refine accept_follows.bind fun b => .ite ?_ (.pure none)
  rw [List.length_map]
  exact reportExcess_follows.bind fun _ => h.bind fun a => .pure (some (a :: taken))

theorem parenthesized_follows (h : Follows M f item item') :
    Follows M (List.map f) (parenthesized bound item excess) (parenthesized bound item' excess) :=
  nextIs_follows.bind fun _ => .ite (.pure []) (separated_follows h)

end

/-! ## Expressions -/

/-- The reader gives the same from a moved state, moved. -/
abbrev FollowsSelf (M : Move) (f : Renaming → α → α) (p : Parser α) : Prop :=
  Follows M (f M.toRenaming) p p

section

variable {bound : Nat} {expression : Parser Expr}

theorem primary_follows (h : FollowsSelf M Expr.renamed expression) :
    FollowsSelf M Expr.renamed (primary expression) := by
  refine peek_follows.bind fun t => ?_
  obtain ⟨kind, lexeme, line⟩ := t
  cases kind with
  | symbol s =>
      cases s with
      | leftParen =>
          exact skip_follows.bind fun _ => h.bind fun inner => expect_follows.bind fun _ =>
            .pure (Expr.grouping inner)
      | _ => exact fail_follows
  | keyword k =>
      cases k with
      | falseWord => exact skip_follows.bind fun _ => .pure (Expr.literal (.bool false))
      | trueWord => exact skip_follows.bind fun _ => .pure (Expr.literal (.bool true))
      | nilWord => exact skip_follows.bind fun _ => .pure (Expr.literal .nil)
      | superWord =>
          exact skip_follows.bind fun _ => expect_follows.bind fun _ =>
            expectName_follows.bind fun method => reference_follows.bind fun use =>
              .pure (Expr.super use method)
      | thisWord =>
          exact skip_follows.bind fun _ => reference_follows.bind fun use => .pure (Expr.this use)
      | _ => exact fail_follows
  | identifier =>
      exact skip_follows.bind fun _ => reference_follows.bind fun use => .pure (Expr.ident use)
  | string contents => exact skip_follows.bind fun _ => .pure (Expr.literal (.string contents))
  | number value => exact skip_follows.bind fun _ => .pure (Expr.literal (.number value))
  | eof => exact fail_follows

theorem callSuffix_follows (h : FollowsSelf M Expr.renamed expression) (callee : Expr) :
    Follows M (Option.map (Expr.renamed M.toRenaming)) (callSuffix bound expression callee)
      (callSuffix bound expression (callee.renamed M.toRenaming)) := by
  refine accept_follows.bind fun _ => .ite ?_ (accept_follows.bind fun _ => .ite ?_ (.pure none))
  · refine (parenthesized_follows h).bind fun given => expect_follows.bind fun paren =>
      .pure_of_eq ?_
    rw [← Expr.renamedAll_eq_map]
    rfl
  · exact expectName_follows.bind fun name => .pure (some (Expr.get callee name))

theorem call_follows (h : FollowsSelf M Expr.renamed expression) :
    FollowsSelf M Expr.renamed (call bound expression) :=
  (primary_follows h).bind (Follows.rounds (callSuffix_follows h) bound)

theorem foldl_unary_renamed (r : Renaming) : ∀ (taken : List Token) (e : Expr),
    (taken.map (Token.renamed r)).foldl (fun e operator => Expr.unary operator e) (e.renamed r)
      = (taken.foldl (fun e operator => Expr.unary operator e) e).renamed r
  | [], _ => rfl
  | operator :: taken, e => foldl_unary_renamed r taken (.unary operator e)

theorem unary_follows (h : FollowsSelf M Expr.renamed expression) :
    FollowsSelf M Expr.renamed (unary bound expression) := by
  refine (Follows.rounds (f := List.map (Token.renamed M.toRenaming)) (fun taken => ?_) bound
    []).bind fun taken => (call_follows h).bind fun operand =>
      .pure_of_eq (foldl_unary_renamed _ taken operand)
  exact take?_follows.bind fun o => .pure_of_eq (by cases o <;> rfl)

theorem leftChain_follows {accepts : Token.Kind → Bool} {join : Expr → Token → Expr → Expr}
    {operand : Parser Expr} (hjoin : ∀ (r : Renaming) (left : Expr) (operator : Token) (right : Expr),
      (join left operator right).renamed r
        = join (left.renamed r) (operator.renamed r) (right.renamed r))
    (h : FollowsSelf M Expr.renamed operand) :
    FollowsSelf M Expr.renamed (leftChain bound accepts join operand) := by
  refine h.bind (Follows.rounds (fun left => ?_) bound)
  refine take?_follows.bind fun o => ?_
  cases o with
  | none => exact .pure none
  | some operator =>
      exact h.bind fun right => .pure_of_eq (congrArg some (hjoin _ left operator right).symm)

theorem disjunction_follows (h : FollowsSelf M Expr.renamed expression) :
    FollowsSelf M Expr.renamed (disjunction bound expression) := by
  have binary : ∀ (r : Renaming) (left : Expr) (operator : Token) (right : Expr),
    (Expr.binary left operator right).renamed r
      = .binary (left.renamed r) (operator.renamed r) (right.renamed r) := fun _ _ _ _ => rfl
  have logical : ∀ (r : Renaming) (left : Expr) (operator : Token) (right : Expr),
    (Expr.logical left operator right).renamed r
      = .logical (left.renamed r) (operator.renamed r) (right.renamed r) := fun _ _ _ _ => rfl
  have hequality : FollowsSelf M Expr.renamed (equality bound expression) :=
    leftChain_follows binary (leftChain_follows binary (leftChain_follows binary
      (leftChain_follows binary (unary_follows h))))
  exact leftChain_follows logical (leftChain_follows logical hequality)

theorem assignTo_follows {target value : Expr} {equals : Token} :
    Follows M (Expr.renamed M.toRenaming) (assignTo target equals value)
      (assignTo (target.renamed M.toRenaming) (equals.renamed M.toRenaming)
        (value.renamed M.toRenaming)) := by
  cases target with
  | ident use => exact reference_follows.bind fun use => .pure (Expr.assign use value)
  | get object name => exact .pure (Expr.set object name value)
  | _ => exact report_follows.bind fun _ => .pure _

theorem assignment_follows (h : FollowsSelf M Expr.renamed expression) :
    FollowsSelf M Expr.renamed (assignment bound expression) := by
  refine (disjunction_follows h).bind fun target => take?_follows.bind fun o => ?_
  cases o with
  | none => exact .pure target
  | some equals => exact h.bind fun value => assignTo_follows

end

theorem expression_follows : ∀ bound, FollowsSelf M Expr.renamed (expression bound) := by
  intro bound
  induction bound with
  | zero => exact fail_follows
  | succ bound ih => exact assignment_follows ih

/-! ## Statements -/

section

variable {bound : Nat} {statement : Parser Stmt} {declaration : Parser (Option Stmt)}

theorem block_follows
    (hd : Follows M (Option.map (Stmt.renamed M.toRenaming)) declaration declaration) :
    Follows M (List.map (Stmt.renamed M.toRenaming)) (block bound declaration)
      (block bound declaration) := by
  refine (Follows.rounds (f := List.map (Stmt.renamed M.toRenaming)) (fun taken => ?_) bound
    []).bind fun taken => expect_follows.bind fun _ => .pure_of_eq List.map_reverse.symm
  refine nextIs_follows.bind fun _ => atEnd_follows.bind fun _ => .ite (.pure none)
    (hd.bind fun o => .pure_of_eq ?_)
  cases o <;> rfl

theorem expressionStatement_follows : FollowsSelf M Stmt.renamed (expressionStatement bound) :=
  (expression_follows bound).bind fun e => expect_follows.bind fun _ => .pure (Stmt.expression e)

theorem printStatement_follows : FollowsSelf M Stmt.renamed (printStatement bound) :=
  (expression_follows bound).bind fun e => expect_follows.bind fun _ => .pure (Stmt.print e)

theorem initialValue_follows :
    Follows M (Option.map (Expr.renamed M.toRenaming)) (initialValue bound) (initialValue bound) :=
  accept_follows.bind fun _ => .ite ((expression_follows bound).bind fun e => .pure (some e))
    (.pure none)

theorem variableDeclaration_follows : FollowsSelf M Stmt.renamed (variableDeclaration bound) :=
  expectName_follows.bind fun name => initialValue_follows.bind fun value =>
    expect_follows.bind fun _ => .pure (Stmt.variableDecl name value)

theorem expressionUnless_follows {symbol : Symbol} :
    Follows M (Option.map (Expr.renamed M.toRenaming)) (expressionUnless bound symbol)
      (expressionUnless bound symbol) :=
  nextIs_follows.bind fun _ => .ite (.pure none)
    ((expression_follows bound).bind fun e => .pure (some e))

theorem returnStatement_follows {keyword : Token} :
    Follows M (Stmt.renamed M.toRenaming) (returnStatement bound keyword)
      (returnStatement bound (keyword.renamed M.toRenaming)) :=
  expressionUnless_follows.bind fun value => expect_follows.bind fun _ =>
    .pure (Stmt.giveBack keyword value)

theorem elseBranch_follows (hs : FollowsSelf M Stmt.renamed statement) :
    Follows M (Option.map (Stmt.renamed M.toRenaming)) (elseBranch statement)
      (elseBranch statement) :=
  acceptWord_follows.bind fun _ => .ite (hs.bind fun s => .pure (some s)) (.pure none)

theorem ifStatement_follows (hs : FollowsSelf M Stmt.renamed statement) :
    FollowsSelf M Stmt.renamed (ifStatement bound statement) :=
  expect_follows.bind fun _ => (expression_follows bound).bind fun condition =>
    expect_follows.bind fun _ => hs.bind fun yes => (elseBranch_follows hs).bind fun no =>
      .pure_of_eq (Stmt.renamed_conditional _ condition yes no).symm

theorem whileStatement_follows (hs : FollowsSelf M Stmt.renamed statement) :
    FollowsSelf M Stmt.renamed (whileStatement bound statement) :=
  expect_follows.bind fun _ => (expression_follows bound).bind fun condition =>
    expect_follows.bind fun _ => hs.bind fun body => .pure (Stmt.loop condition body)

theorem countingLoop_renamed (r : Renaming) (start : Option Stmt)
    (condition increment : Option Expr) (body : Stmt) :
    (countingLoop start condition increment body).renamed r
      = countingLoop (start.map (Stmt.renamed r)) (condition.map (Expr.renamed r))
          (increment.map (Expr.renamed r)) (body.renamed r) := by
  cases start <;> cases condition <;> cases increment <;> rfl

theorem startClause_follows :
    Follows M (Option.map (Stmt.renamed M.toRenaming)) (startClause bound) (startClause bound) :=
  accept_follows.bind fun _ => .ite (.pure none) (acceptWord_follows.bind fun _ =>
    .ite (variableDeclaration_follows.bind fun s => .pure (some s))
      (expressionStatement_follows.bind fun s => .pure (some s)))

theorem forStatement_follows (hs : FollowsSelf M Stmt.renamed statement) :
    FollowsSelf M Stmt.renamed (forStatement bound statement) :=
  expect_follows.bind fun _ => startClause_follows.bind fun start =>
    expressionUnless_follows.bind fun condition => expect_follows.bind fun _ =>
      expressionUnless_follows.bind fun increment => expect_follows.bind fun _ =>
        hs.bind fun body =>
          .pure_of_eq (countingLoop_renamed _ start condition increment body).symm

theorem statementRule_follows (hs : FollowsSelf M Stmt.renamed statement)
    (hd : Follows M (Option.map (Stmt.renamed M.toRenaming)) declaration declaration) :
    FollowsSelf M Stmt.renamed (statementRule bound statement declaration) := by
  refine acceptWord_follows.bind fun _ => .ite (forStatement_follows hs) ?_
  refine acceptWord_follows.bind fun _ => .ite (ifStatement_follows hs) ?_
  refine acceptWord_follows.bind fun _ => .ite printStatement_follows ?_
  refine take?_follows.bind fun o => ?_
  cases o with
  | some keyword => exact returnStatement_follows
  | none =>
      refine acceptWord_follows.bind fun _ => .ite (whileStatement_follows hs) ?_
      refine accept_follows.bind fun _ => .ite ?_ expressionStatement_follows
      exact (block_follows hd).bind fun body =>
        .pure_of_eq (congrArg Stmt.block (Stmt.renamedAll_eq_map _ body).symm)

/-! ## Declarations -/

theorem function_follows {kind : CallableKind}
    (hd : Follows M (Option.map (Stmt.renamed M.toRenaming)) declaration declaration) :
    FollowsSelf M Function.renamed (function bound kind declaration) :=
  expectName_follows.bind fun _ => expect_follows.bind fun _ =>
    (parenthesized_follows expectName_follows).bind fun _ => expect_follows.bind fun _ =>
      expect_follows.bind fun _ => (block_follows hd).bind fun body =>
        .pure_of_eq (congrArg (Function.mk _ _) (Stmt.renamedAll_eq_map _ body).symm)

theorem superclassClause_follows :
    Follows M (Option.map (Reference.renamed M.toRenaming)) superclassClause superclassClause :=
  accept_follows.bind fun _ => .ite (expectName_follows.bind fun _ =>
    reference_follows.bind fun use => .pure (some use)) (.pure none)

theorem classDeclaration_follows
    (hd : Follows M (Option.map (Stmt.renamed M.toRenaming)) declaration declaration) :
    FollowsSelf M Stmt.renamed (classDeclaration bound declaration) := by
  refine expectName_follows.bind fun name => superclassClause_follows.bind fun superclass =>
    expect_follows.bind fun _ => (Follows.rounds (f := List.map (Function.renamed M.toRenaming))
      (fun taken => ?_) bound []).bind fun taken => expect_follows.bind fun _ => .pure_of_eq ?_
  · exact nextIs_follows.bind fun _ => atEnd_follows.bind fun _ => .ite (.pure none)
      ((function_follows hd).bind fun f => .pure (some (f :: taken)))
  · rw [Stmt.renamed, Function.renamedAll_eq_map, List.map_reverse]

theorem declarationRule_follows (hs : FollowsSelf M Stmt.renamed statement)
    (hd : Follows M (Option.map (Stmt.renamed M.toRenaming)) declaration declaration) :
    FollowsSelf M Stmt.renamed (declarationRule bound statement declaration) :=
  acceptWord_follows.bind fun _ => .ite (classDeclaration_follows hd)
    (acceptWord_follows.bind fun _ =>
      .ite ((function_follows hd).bind fun f => .pure (Stmt.functionDecl f))
        (acceptWord_follows.bind fun _ => .ite variableDeclaration_follows
          (statementRule_follows hs hd)))

theorem skipToBoundary_map (r : Renaming) : ∀ (last : Token) (ts : List Token),
    skipToBoundary (last.renamed r) (ts.map (Token.renamed r))
      = (skipToBoundary last ts).map (Token.renamed r)
  | _, [] => rfl
  | last, t :: ts => by
      rw [List.map_cons, skipToBoundary, skipToBoundary, skipToBoundary_map r t ts]
      have hstarts : startsStatement (t.renamed r) = startsStatement t := rfl
      rw [hstarts, Token.renamed_kind]
      split <;> rfl

theorem Move.state_synchronize (s : State) :
    M.state s.synchronize = (M.state s).synchronize := by
  obtain ⟨rest, line, id, faults⟩ := s
  cases rest with
  | nil => rfl
  | cons t ts =>
      simp only [Move.state, State.synchronize, List.map_cons, skipToBoundary_map]

theorem recovering_follows {rule : Parser Stmt} (h : FollowsSelf M Stmt.renamed rule) :
    Follows M (Option.map (Stmt.renamed M.toRenaming)) (recovering rule) (recovering rule) := by
  intro s
  unfold recovering
  rw [h s]
  cases rule s with
  | ok stmt s₁ => rfl
  | error d s₁ =>
      simp only [Move.result, Move.state_synchronize]
      simp only [Move.state, Array.map_push]
      rfl

end

mutual

theorem statement_follows : ∀ bound, FollowsSelf M Stmt.renamed (statement bound)
  | 0 => fail_follows
  | bound + 1 => statementRule_follows (statement_follows bound) (declaration_follows bound)

theorem declaration_follows : ∀ bound,
    Follows M (Option.map (Stmt.renamed M.toRenaming)) (declaration bound) (declaration bound)
  | 0 => recovering_follows fail_follows
  | bound + 1 =>
      recovering_follows
        (declarationRule_follows (statement_follows bound) (declaration_follows bound))

end

/-! ## Whole programs -/

theorem program_follows (bound : Nat) :
    Follows M (List.map (Stmt.renamed M.toRenaming)) (program bound) (program bound) := by
  refine (Follows.rounds (f := List.map (Stmt.renamed M.toRenaming)) (fun taken => ?_) bound
    []).bind fun taken => .pure_of_eq List.map_reverse.symm
  refine atEnd_follows.bind fun _ => .ite (.pure none)
    ((declaration_follows bound).bind fun o => .pure_of_eq ?_)
  cases o <;> rfl

end Lox.Parser
