import Lox.Proofs.Recovery.Lockstep

/-!
# The rules of the grammar, with more tokens behind

Each rule is read in the larger reading as it is read on its own. Expressions and the parts of statements
may go on. Statements, functions and classes are closed. Loops take a token in each round and stop at the end
of the tokens, so any bound on the tokens that are left is as good as any other.
-/

namespace Lox.Parser

variable {α β : Type}

/-! ## Loops -/

/-- A step of a loop takes a token if the loop goes on. -/
def Paced (step : α → Parser (Option α)) : Prop :=
  ∀ a b s s', step a s = .ok (some b) s' → s'.rest.length < s.rest.length

/-- A step of a loop ends it where no token is left. -/
def Declines (step : α → Parser (Option α)) : Prop :=
  ∀ a s, s.rest = [] → step a s = .ok none s

theorem Declines.rounds {step : α → Parser (Option α)} (h : Declines step) {s : State}
    (hs : s.rest = []) (a : α) : ∀ bound, rounds step bound a s = .ok a s := by
  intro bound
  cases bound with
  | zero => rfl
  | succ bound =>
      rw [Parser.rounds, bind_ok (h a s hs)]
      rfl

theorem Paced.done : Paced fun _ : α => (pure none : Parser (Option α)) := by
  intro a b s s' h
  cases h

theorem Declines.done : Declines fun _ : α => (pure none : Parser (Option α)) :=
  fun _ _ _ => rfl

theorem take?_atEnd {accepts : Token.Kind → Bool} {s : State} (hs : s.rest = []) :
    take? accepts s = .ok none s := by
  rw [take?, hs]

section

variable {accepts : Token.Kind → Bool} {g : α → Option Token → Parser (Option α)}

theorem Paced.take? (hsome : ∀ a t, Proceeds (g a (some t))) (hnone : ∀ a, g a none = pure none) :
    Paced fun a => take? accepts >>= g a := by
  intro a b s s' h
  obtain ⟨o, s₁, h₁, h₂⟩ := bind_eq_ok.mp h
  rcases take?_cases h₁ with ⟨t, ts, hrest, rfl, rfl⟩ | ⟨rfl, rfl⟩
  · rw [hrest]
    exact Nat.lt_succ_of_le ((hsome a t).ok h₂).length_le
  · rw [hnone] at h₂
    exact nomatch h₂

theorem Declines.take? (hnone : ∀ a, g a none = pure none) :
    Declines fun a => Parser.take? accepts >>= g a := by
  intro a s hs
  show (Parser.take? accepts >>= g a) s = _
  rw [bind_ok (take?_atEnd hs), hnone]
  rfl

end

section

variable {symbol : Symbol} {p q : α → Parser (Option α)}

theorem Paced.accept (hp : ∀ a, Proceeds (p a)) (hq : Paced q) :
    Paced fun a => accept symbol >>= fun b => if b = true then p a else q a := by
  intro a b s s' h
  obtain ⟨o, s₁, h₁, h₂⟩ := bind_eq_ok.mp h
  obtain ⟨o', s₁', htake, hpure⟩ := bind_eq_ok.mp h₁
  obtain ⟨rfl, rfl⟩ := pure_eq_ok.mp hpure
  rcases take?_cases htake with ⟨t, ts, hrest, rfl, rfl⟩ | ⟨rfl, rfl⟩
  · rw [hrest]
    exact Nat.lt_succ_of_le ((hp a).ok h₂).length_le
  · exact hq _ _ _ _ h₂

theorem Declines.accept (hq : Declines q) :
    Declines fun a => Parser.accept symbol >>= fun b => if b = true then p a else q a := by
  intro a s hs
  have haccept : Parser.accept symbol s = .ok false s := bind_ok (take?_atEnd hs)
  exact (bind_ok haccept).trans (hq a s hs)

/-- The loop over what is between braces stops at the end, too. -/
theorem Paced.untilBrace (hp : ∀ a b s s', p a s = .ok (some b) s' → s.rest ≠ [] →
    s'.rest.length < s.rest.length) :
    Paced fun a => nextIs .rightBrace >>= fun x => atEnd >>= fun y =>
      if (x || y) = true then pure none else p a := by
  intro a b s s' h
  obtain ⟨x, s₁, hx, h⟩ := bind_eq_ok.mp h
  obtain ⟨y, s₂, hy, h⟩ := bind_eq_ok.mp h
  cases hx
  cases hy
  split at h
  · exact nomatch h
  · next hstop =>
    refine hp _ _ _ _ h fun hrest => hstop ?_
    simp [hrest]

theorem Declines.untilBrace :
    Declines fun a => nextIs .rightBrace >>= fun x => atEnd >>= fun y =>
      if (x || y) = true then pure none else p a := by
  intro a s hs
  have hbrace : nextIs .rightBrace s = .ok false s := by
    rw [nextIs, hs]
    rfl
  have hatEnd : atEnd s = .ok true s := by
    rw [atEnd, hs]
    rfl
  exact (bind_ok hbrace).trans (bind_ok hatEnd)

end

namespace Sequel

variable {X : Sequel} {n b b' : Nat}

/-- Bounds on the tokens that are left, in each of the readings. -/
structure Bounds (X : Sequel) (n b b' : Nat) : Prop where
  alone : n ≤ b
  within : n + X.more.length ≤ b'

theorem Bounds.mono {m : Nat} (h : X.Bounds n b b') (hm : m ≤ n) : X.Bounds m b b' :=
  ⟨Nat.le_trans hm h.alone, Nat.le_trans (Nat.add_le_add_right hm _) h.within⟩

section

variable {step step' : α → Parser (Option α)}

/-- At the end of the tokens both loops stop, or only the second one goes on. -/
theorem Loosely.rounds_atEnd (hdeclines : Declines step) (hdeclines' : Declines step') {s : State}
    (hrest : s.rest = []) (a : α) (b b' : Nat) :
    X.Loosely (rounds step b a s) (rounds step' b' a (X.state s)) := by
  rw [hdeclines.rounds hrest]
  by_cases hmore : X.more = []
  · have hrest' : (X.state s).rest = [] := by
      rw [state, hrest, hmore]
      rfl
    rw [hdeclines'.rounds hrest']
    exact .inr (.inr rfl)
  · exact .inl ⟨hrest, hmore⟩

/-- By induction on the first bound: each round leaves fewer tokens. -/
theorem Loosely.rounds (hpaced : Paced step) (hdeclines : Declines step)
    (hdeclines' : Declines step') (h : ∀ a, X.Loose n (step a) (step' a)) :
    ∀ {b b' : Nat} {s : State} (a : α), X.Fits s → s.rest.length ≤ n →
      X.Bounds s.rest.length b b' →
      X.Loosely (rounds step b a s) (rounds step' b' a (X.state s)) := by
  intro b
  induction b with
  | zero =>
      intro b' s a _ _ hb
      have hrest : s.rest = [] := List.length_eq_zero_iff.mp (Nat.le_zero.mp hb.alone)
      exact .rounds_atEnd hdeclines hdeclines' hrest a 0 b'
  | succ b ih =>
      intro b' s a hs hn hb
      by_cases hrest : s.rest = []
      · exact .rounds_atEnd hdeclines hdeclines' hrest a (b + 1) b'
      have hpos : 0 < s.rest.length := List.length_pos_iff.mpr hrest
      cases b' with
      | zero => exact absurd hb.within (by omega)
      | succ b' =>
          have hproceeds : ∀ o, Proceeds (match o with
              | some a' => Parser.rounds step b a'
              | none => pure a) := by
            intro o
            cases o with
            | none => exact .pure a
            | some a' => exact .rounds (fun a => (h a).proceeds) b a'
          refine Loosely.bind ((h a).follows s hs hn) hproceeds fun o s₁ h₁ => ?_
          cases o with
          | none => exact .inr (.inr rfl)
          | some a' =>
              have hprecedes := (h a).proceeds.ok h₁
              have hlt := hpaced a a' s s₁ h₁
              refine ih a' (hs.later hprecedes) (Nat.le_trans hprecedes.length_le hn) ⟨?_, ?_⟩
              · have := hb.alone
                omega
              · have := hb.within
                omega

theorem Loose.rounds (hb : X.Bounds n b b') (hpaced : Paced step) (hdeclines : Declines step)
    (hdeclines' : Declines step') (h : ∀ a, X.Loose n (step a) (step' a)) (a : α) :
    X.Loose n (Parser.rounds step b a) (Parser.rounds step' b' a) where
  proceeds := .rounds (fun a => (h a).proceeds) b a
  follows _ hs hn := .rounds hpaced hdeclines hdeclines' h a hs hn (hb.mono hn)

end

/-! ## Items with commas between them -/

section

variable {item item' : Parser α} {excess : SyntaxFault}

theorem separated_loose (hb : X.Bounds n b b') (h : X.Loose n item item') :
    X.Loose n (separated b item excess) (separated b' item' excess) := by
  refine h.bind fun a => (Loose.rounds hb (.accept (fun _ => ?_) .done)
    (.accept .done) (.accept .done) (fun taken => ?_) [a]).bind fun _ => .pure _
  · exact reportExcess_proceeds.bind fun _ => h.proceeds.bind fun _ => .pure _
  · exact accept_loose.bind fun _ => .ite (reportExcess_loose.bind fun _ => h.bind fun _ => .pure _)
      (.pure _)

theorem parenthesized_loose (hb : X.Bounds n b b') (h : X.Loose n item item') :
    X.Loose n (parenthesized b item excess) (parenthesized b' item' excess) :=
  nextIs_loose.bind fun _ => .ite (.pure _) (separated_loose hb h)

end

/-! ## Expressions -/

section

variable {expression expression' : Parser Expr}

theorem afterFirst_loose (h : X.Loose n expression expression') (t : Token) :
    (∃ p p', afterFirst expression t = some p ∧ afterFirst expression' t = some p' ∧
      X.Loose n p p') ∨ afterFirst expression t = none ∧ afterFirst expression' t = none := by
  obtain ⟨kind, lexeme, line⟩ := t
  cases kind with
  | symbol symbol =>
      cases symbol with
      | leftParen =>
          exact .inl ⟨_, _, rfl, rfl, h.bind fun _ => expect_closed.loose.bind fun _ => .pure _⟩
      | _ => exact .inr ⟨rfl, rfl⟩
  | keyword keyword =>
      cases keyword with
      | falseWord => exact .inl ⟨_, _, rfl, rfl, .pure _⟩
      | trueWord => exact .inl ⟨_, _, rfl, rfl, .pure _⟩
      | nilWord => exact .inl ⟨_, _, rfl, rfl, .pure _⟩
      | superWord =>
          exact .inl ⟨_, _, rfl, rfl, expect_closed.loose.bind fun _ =>
            expectName_closed.loose.bind fun _ => reference_tight.loose.bind fun _ => .pure _⟩
      | thisWord => exact .inl ⟨_, _, rfl, rfl, reference_tight.loose.bind fun _ => .pure _⟩
      | _ => exact .inr ⟨rfl, rfl⟩
  | identifier => exact .inl ⟨_, _, rfl, rfl, reference_tight.loose.bind fun _ => .pure _⟩
  | string contents => exact .inl ⟨_, _, rfl, rfl, .pure _⟩
  | number value => exact .inl ⟨_, _, rfl, rfl, .pure _⟩
  | eof => exact .inr ⟨rfl, rfl⟩

theorem primary_loose (h : X.Loose n expression expression') :
    X.Loose (n + 1) (primary expression) (primary expression') := by
  refine .of_inside (Progresses.of_next fun s => ?_).toProceeds fun s hs hn hin => ?_
  · cases hrest : s.rest with
    | nil => exact .inl ⟨_, primary_nil hrest⟩
    | cons t ts =>
        rw [primary_cons hrest]
        rcases afterFirst_loose h t with ⟨p, p', hp, -, hloose⟩ | ⟨hp, -⟩
        · rw [hp]
          exact .inr ⟨t, ts, p, rfl, hloose.proceeds, rfl⟩
        · rw [hp]
          exact .inl ⟨_, rfl⟩
  · cases hrest : s.rest with
    | nil =>
        have hrest' : (X.state s).rest = [] := by
          rw [state, hrest, hin hrest]
          rfl
        rw [primary_nil hrest, primary_nil hrest']
        exact fail_closed.loose.follows s hs hn
    | cons t ts =>
        have hrest' : (X.state s).rest = t :: (ts ++ X.more) := by
          rw [state, hrest]
          rfl
        rw [primary_cons hrest, primary_cons hrest']
        rcases afterFirst_loose h t with ⟨p, p', hp, hp', hloose⟩ | ⟨hp, hp'⟩
        · rw [hp, hp']
          rw [hrest, List.length_cons] at hn
          exact hloose.follows { s with rest := ts } (hs.later (.next hrest))
            (Nat.le_of_succ_le_succ hn)
        · rw [hp, hp']
          exact fail_closed.loose.follows s hs hn

theorem callSuffix_loose (hb : X.Bounds n b b') (h : X.Loose n expression expression')
    (callee : Expr) :
    X.Loose (n + 1) (callSuffix b expression callee) (callSuffix b' expression' callee) := by
  refine .accepting ?_ (accept_loose.bind fun _ => .ite ?_ (.pure _))
  · exact (parenthesized_loose hb h).bind fun _ => expect_closed.loose.bind fun _ => .pure _
  · exact expectName_closed.loose.bind fun _ => .pure _

theorem call_loose (hb : X.Bounds (n + 1) b b') (h : X.Loose n expression expression') :
    X.Loose (n + 1) (call b expression) (call b' expression') := by
  have hsuffix := callSuffix_loose (hb.mono (Nat.le_succ n)) h
  refine (primary_loose h).bind (Loose.rounds hb (.accept (fun _ => ?_) (.accept (fun _ => ?_)
    .done)) (.accept (.accept .done))
    (.accept (.accept .done)) hsuffix)
  · exact (parenthesized_loose (hb.mono (Nat.le_succ n)) h).proceeds.bind fun _ =>
      expect_progresses.toProceeds.bind fun _ => .pure _
  · exact expectName_progresses.toProceeds.bind fun _ => .pure _

theorem unary_loose (hb : X.Bounds (n + 1) b b') (h : X.Loose n expression expression') :
    X.Loose (n + 1) (unary b expression) (unary b' expression') := by
  refine (Loose.rounds hb ?_ ?_ ?_ (fun _ => ?_) []).bind fun _ => (call_loose hb h).bind fun _ =>
    .pure _
  · exact .take? (fun _ _ => .pure _) fun _ => rfl
  · exact .take? fun _ => rfl
  · exact .take? fun _ => rfl
  · exact take?_loose.bind fun _ => .pure _

theorem leftChain_loose {accepts : Token.Kind → Bool} {join : Expr → Token → Expr → Expr}
    {operand operand' : Parser Expr} (hb : X.Bounds n b b') (h : X.Loose n operand operand') :
    X.Loose n (leftChain b accepts join operand) (leftChain b' accepts join operand') := by
  refine h.bind (Loose.rounds hb (.take? (fun _ _ => h.proceeds.bind fun _ => .pure _) fun _ => rfl)
    (.take? fun _ => rfl) (.take? fun _ => rfl) fun left => take?_loose.bind fun o => ?_)
  cases o with
  | none => exact .pure _
  | some operator => exact h.bind fun _ => .pure _

theorem disjunction_loose (hb : X.Bounds (n + 1) b b') (h : X.Loose n expression expression') :
    X.Loose (n + 1) (disjunction b expression) (disjunction b' expression') :=
  leftChain_loose hb (leftChain_loose hb (leftChain_loose hb (leftChain_loose hb
    (leftChain_loose hb (leftChain_loose hb (unary_loose hb h))))))

theorem assignTo_tight {target value : Expr} {equals : Token} :
    X.Tight n (assignTo target equals value) (assignTo target equals value) := by
  cases target with
  | ident use => exact reference_tight.bind fun _ => .pure _
  | get object name => exact .pure _
  | _ => exact report_tight.bind fun _ => .pure _

theorem assignment_loose (hb : X.Bounds (n + 1) b b') (h : X.Loose n expression expression') :
    X.Loose (n + 1) (assignment b expression) (assignment b' expression') :=
  (disjunction_loose hb h).bind fun _ => .take? (fun _ => h.bind fun _ => assignTo_tight.loose)
    (.pure _) (Nat.le_refl _)

end

theorem expression_atEnd (b : Nat) {s : State} (hs : s.rest = []) :
    expression b s = fail .expectExpression s := by
  obtain ⟨rest, endLine, nextId, faults⟩ := s
  subst hs
  cases b <;> rfl

/-- Readers that fail in the same way at the end of the tokens agree there. -/
theorem Tightly.of_fail {p p' : Parser α} {fault : SyntaxFault}
    (hp : ∀ s, s.rest = [] → p s = fail fault s) (hp' : ∀ s, s.rest = [] → p' s = fail fault s)
    {s : State} (hs : X.Fits s) (hrest : s.rest = []) (hin : X.Inside s) :
    X.Tightly (p s) (p' (X.state s)) := by
  have hrest' : (X.state s).rest = [] := by
    rw [state, hrest, hin hrest]
    rfl
  rw [hp s hrest, hp' _ hrest']
  exact fail_closed.follows s hs (Nat.le_refl _)

theorem expression_loose_zero (hp : Proceeds (expression b)) :
    X.Loose 0 (expression b) (expression b') :=
  .of_inside hp fun _ hs hn hin => .inr (.of_fail (fun _ => expression_atEnd b)
    (fun _ => expression_atEnd b') hs (List.length_eq_zero_iff.mp (Nat.le_zero.mp hn)) hin)

theorem Bounds.pred (h : X.Bounds (n + 1) (b + 1) (b' + 1)) : X.Bounds n b b' :=
  ⟨Nat.le_of_succ_le_succ h.alone, by have := h.within; omega⟩

/-- The bound that is just enough for the larger reading. -/
theorem Bounds.exact (X : Sequel) (b : Nat) : X.Bounds b b (b + X.more.length) :=
  ⟨Nat.le_refl _, Nat.le_refl _⟩

theorem expression_loose : ∀ {b b' n : Nat}, X.Bounds n b b' →
    X.Loose n (expression b) (expression b') := by
  intro b
  induction b with
  | zero =>
      intro b' n hb
      rw [Nat.le_zero.mp hb.alone]
      exact expression_loose_zero fail_progresses.toProceeds
  | succ b ih =>
      intro b' n hb
      have hproceeds : Proceeds (expression (b + 1)) :=
        (assignment_loose (.exact X (b + 1)) (ih (.exact X b))).proceeds
      match n, b', hb with
      | 0, b', _ => exact expression_loose_zero hproceeds
      | n + 1, 0, hb => exact absurd hb.within (by omega)
      | n + 1, b' + 1, hb => exact assignment_loose hb (ih hb.pred)

/-! ## Statements -/

section

variable {statement statement' : Parser Stmt} {declaration declaration' : Parser (Option Stmt)}

/-- Declarations that are read in both readings alike take a token if there is one. -/
structure Lasting (X : Sequel) (n : Nat) (declaration declaration' : Parser (Option Stmt)) :
    Prop extends X.Tight n declaration declaration' where
  shorter : ∀ o s s', declaration s = .ok o s' → s.rest ≠ [] → s'.rest.length < s.rest.length

theorem block_closed (hb : X.Bounds n b b') (hd : X.Lasting n declaration declaration') :
    X.Closed n (block b declaration) (block b' declaration') := by
  refine (Loose.rounds hb (.untilBrace fun taken taken' s s' h hs => ?_) .untilBrace .untilBrace
    (fun taken => ?_) []).close fun _ => expect_closed.bind fun _ => .pure _
  · obtain ⟨o, s₁, h₁, h₂⟩ := bind_eq_ok.mp h
    obtain ⟨-, rfl⟩ := pure_eq_ok.mp h₂
    exact hd.shorter o s s₁ h₁ hs
  · exact nextIs_loose.bind fun _ => atEnd_loose.bind fun _ => .ite (.pure _)
      (hd.toTight.loose.bind fun _ => .pure _)

theorem expressionStatement_closed (hb : X.Bounds n b b') :
    X.Closed n (expressionStatement b) (expressionStatement b') :=
  (expression_loose hb).close fun _ => expect_closed.bind fun _ => .pure _

theorem printStatement_closed (hb : X.Bounds n b b') :
    X.Closed n (printStatement b) (printStatement b') :=
  (expression_loose hb).close fun _ => expect_closed.bind fun _ => .pure _

theorem initialValue_loose (hb : X.Bounds n b b') : X.Loose n (initialValue b) (initialValue b') :=
  accept_loose.bind fun _ => .ite ((expression_loose hb).bind fun _ => .pure _) (.pure _)

theorem variableDeclaration_closed (hb : X.Bounds n b b') :
    X.Closed n (variableDeclaration b) (variableDeclaration b') :=
  expectName_closed.bind fun _ => ((initialValue_loose hb).close fun _ =>
    expect_closed.bind fun _ => .pure _).tight

theorem expressionUnless_loose (hb : X.Bounds n b b') {symbol : Symbol} :
    X.Loose n (expressionUnless b symbol) (expressionUnless b' symbol) :=
  nextIs_loose.bind fun _ => .ite (.pure _) ((expression_loose hb).bind fun _ => .pure _)

theorem returnStatement_closed (hb : X.Bounds n b b') {keyword : Token} :
    X.Closed n (returnStatement b keyword) (returnStatement b' keyword) :=
  (expressionUnless_loose hb).close fun _ => expect_closed.bind fun _ => .pure _

/-- What is behind the tokens does not begin with `else`, so both readings see no `else` at their end. -/
theorem acceptElse_tight : X.Tight n (acceptWord .elseWord) (acceptWord .elseWord) := by
  refine ⟨acceptWord_proceeds, fun s hs hn => ?_⟩
  by_cases hrest : s.rest = []
  · have htake : Parser.take? (· = .keyword .elseWord) (X.state s) = .ok none (X.state s) := by
      rw [Parser.take?, state, hrest, List.nil_append]
      split
      · next t ts hmore =>
        have hmore' : X.more = t :: ts := hmore
        have hkind := X.noElse t (by rw [hmore']; rfl)
        rw [if_neg (by simpa using hkind)]
      · rfl
    have haccept : acceptWord .elseWord s = .ok false s := bind_ok (take?_atEnd hrest)
    rw [haccept]
    exact .inr (bind_ok htake)
  · have hin : X.Inside s := fun hnil => absurd hnil hrest
    exact Tightly.bind (.inr hin.take?) (fun _ => .pure _) fun _ _ _ => .inr rfl

theorem elseBranch_tight (hs : X.Tight n statement statement') :
    X.Tight n (elseBranch statement) (elseBranch statement') :=
  acceptElse_tight.bind fun _ => .ite (hs.bind fun _ => .pure _) (.pure _)

theorem ifStatement_closed (hb : X.Bounds n b b') (hs : X.Tight n statement statement') :
    X.Closed n (ifStatement b statement) (ifStatement b' statement') :=
  expect_closed.bind fun _ => ((expression_loose hb).close fun _ => expect_closed.bind fun _ =>
    hs.bind fun _ => (elseBranch_tight hs).bind fun _ => .pure _).tight

theorem whileStatement_closed (hb : X.Bounds n b b') (hs : X.Tight n statement statement') :
    X.Closed n (whileStatement b statement) (whileStatement b' statement') :=
  expect_closed.bind fun _ => ((expression_loose hb).close fun _ => expect_closed.bind fun _ =>
    hs.bind fun _ => .pure _).tight

theorem startClause_loose (hb : X.Bounds n b b') : X.Loose n (startClause b) (startClause b') :=
  accept_loose.bind fun _ => .ite (.pure _) (acceptWord_loose.bind fun _ =>
    .ite ((variableDeclaration_closed hb).loose.bind fun _ => .pure _)
      ((expressionStatement_closed hb).loose.bind fun _ => .pure _))

theorem forStatement_closed (hb : X.Bounds n b b') (hs : X.Tight n statement statement') :
    X.Closed n (forStatement b statement) (forStatement b' statement') :=
  expect_closed.bind fun _ => ((startClause_loose hb).close fun _ =>
    (expressionUnless_loose hb).close fun _ => expect_closed.bind fun _ =>
      ((expressionUnless_loose hb).close fun _ => expect_closed.bind fun _ =>
        hs.bind fun _ => .pure _).tight).tight

theorem statementRule_closed (hb : X.Bounds (n + 1) b b') (hs : X.Tight n statement statement')
    (hd : X.Lasting n declaration declaration') :
    X.Closed (n + 1) (statementRule b statement declaration)
      (statementRule b' statement' declaration') := by
  have hb₀ : X.Bounds n b b' := hb.mono (Nat.le_succ n)
  refine .accepting (forStatement_closed hb₀ hs).tight ?_
  refine .accepting (ifStatement_closed hb₀ hs).tight ?_
  refine .accepting (printStatement_closed hb₀).tight ?_
  refine .take? (fun keyword => (returnStatement_closed hb₀).tight) ?_ (Nat.le_refl _)
  refine .accepting (whileStatement_closed hb₀ hs).tight ?_
  exact .accepting ((block_closed hb₀ hd).bind fun _ => .pure _).tight
    (expressionStatement_closed hb)

/-! ## Declarations -/

theorem function_closed (hb : X.Bounds n b b') {kind : CallableKind}
    (hd : X.Lasting n declaration declaration') :
    X.Closed n (function b kind declaration) (function b' kind declaration') :=
  expectName_closed.bind fun _ => expect_closed.tight.bind fun _ =>
    ((parenthesized_loose hb expectName_closed.loose).close fun _ => expect_closed.bind fun _ =>
      expect_closed.tight.bind fun _ => (block_closed hb hd).tight.bind fun _ => .pure _).tight

theorem superclassClause_loose : X.Loose n superclassClause superclassClause :=
  accept_loose.bind fun _ => .ite (expectName_closed.loose.bind fun _ =>
    reference_tight.loose.bind fun _ => .pure _) (.pure _)

theorem classDeclaration_closed (hb : X.Bounds n b b') (hd : X.Lasting n declaration declaration') :
    X.Closed n (classDeclaration b declaration) (classDeclaration b' declaration') := by
  have hmethod : X.Closed n (function b .method declaration) (function b' .method declaration') :=
    function_closed hb hd
  refine expectName_closed.bind fun _ => (superclassClause_loose.close fun _ =>
    expect_closed.bind fun _ => ((Loose.rounds hb (.untilBrace fun taken taken' s s' h _ => ?_)
      .untilBrace .untilBrace (fun taken => ?_) []).close fun _ => expect_closed.bind fun _ =>
        .pure _).tight).tight
  · exact (hmethod.progresses.bind fun _ => .pure _).shorter h
  · exact nextIs_loose.bind fun _ => atEnd_loose.bind fun _ => .ite (.pure _)
      (hmethod.loose.bind fun _ => .pure _)

theorem declarationRule_closed (hb : X.Bounds (n + 1) b b') (hs : X.Tight n statement statement')
    (hd : X.Lasting n declaration declaration') :
    X.Closed (n + 1) (declarationRule b statement declaration)
      (declarationRule b' statement' declaration') := by
  have hb₀ : X.Bounds n b b' := hb.mono (Nat.le_succ n)
  refine .accepting (classDeclaration_closed hb₀ hd).tight ?_
  refine .accepting ((function_closed hb₀ hd).bind fun _ => .pure _).tight ?_
  exact .accepting (variableDeclaration_closed hb₀).tight (statementRule_closed hb hs hd)

/-- Tokens are not dropped past a last semicolon. -/
theorem skipToBoundary_append (more : List Token) : ∀ {last : Token} {ts : List Token},
    (∀ t ∈ (last :: ts).getLast?, t.kind = .symbol .semicolon) →
      skipToBoundary last (ts ++ more) = skipToBoundary last ts ++ more
  | last, [], h => by
      have hlast : last.kind = .symbol .semicolon := h last rfl
      cases more with
      | nil => rfl
      | cons t ts => simp [skipToBoundary, hlast]
  | last, t :: ts, h => by
      rw [List.cons_append, skipToBoundary, skipToBoundary,
        skipToBoundary_append more fun t' ht' => h t' (by rwa [List.getLast?_cons_cons])]
      split <;> rfl

theorem state_synchronize {s : State} (hs : X.Fits s) (hin : X.Inside s)
    (hnot : X.more ≠ [] → ¬ ∀ d, X.Lost d) : (X.state s).synchronize = X.state s.synchronize := by
  obtain ⟨rest, endLine, nextId, faults⟩ := s
  cases rest with
  | nil => simp [state, State.synchronize, hin rfl]
  | cons t ts =>
      have hskip : skipToBoundary t (ts ++ X.more) = skipToBoundary t ts ++ X.more := by
        by_cases hmore : X.more = []
        · rw [hmore, List.append_nil, List.append_nil]
        · exact skipToBoundary_append X.more ((hs.boundary hmore).resolve_left (hnot hmore))
      simp only [state, State.synchronize, List.cons_append, hskip]

theorem recovering_lasting {rule rule' : Parser Stmt} (h : X.Closed n rule rule') :
    X.Lasting n (recovering rule) (recovering rule') where
  proceeds := recovering_proceeds h.progresses.toProceeds
  shorter o s s' hok hs := recovering_shorter h.progresses hok hs
  follows s hs hn := by
    have hfollows := h.follows s hs hn
    unfold recovering
    cases hrule : rule s with
    | ok stmt s₁ =>
        rw [hrule] at hfollows
        rcases hfollows with hspoilt | hsame
        · exact .inl hspoilt
        · rw [hsame]
          exact .inr rfl
    | error d s₁ =>
        have hkept : ∀ d' ∈ s₁.faults.push d,
            d' ∈ ({ s₁ with faults := s₁.faults.push d } : State).synchronize.faults :=
          (synchronize_precedes { s₁ with faults := s₁.faults.push d }).faults
        by_cases hlost : X.Lost d
        · exact .inl ⟨d, hkept d Array.mem_push_self, hlost⟩
        rw [hrule] at hfollows
        rcases hfollows with (hlost' | ⟨d', hd', hlost'⟩) | hsame
        · exact absurd hlost' hlost
        · exact .inl ⟨d', hkept d' (Array.mem_push_of_mem d hd'), hlost'⟩
        · -- the fault is at a token, since one at the end would be lost
          have hin : X.Inside s₁ := fun hrest => Classical.byContradiction fun hmore =>
            hlost (lost_of_rest h.progresses.toProceeds hrule hrest hmore)
          have hfits : X.Fits { s₁ with faults := s₁.faults.push d } :=
            hs.later ((h.progresses.error hrule).1.trans (.push s₁ d))
          have hpush : ({ X.state s₁ with faults := (X.state s₁).faults.push d } : State)
              = X.state { s₁ with faults := s₁.faults.push d } := by
            simp [state]
          rw [hsame]
          dsimp only [result]
          rw [hpush, state_synchronize hfits hin fun _ hall => hlost (hall d)]
          exact .inr rfl

end

end Sequel

theorem statement_atEnd (b : Nat) {s : State} (hs : s.rest = []) :
    statement b s = fail .expectExpression s := by
  obtain ⟨rest, endLine, nextId, faults⟩ := s
  subst hs
  cases b <;> rfl

/-- What a declaration is, but for recovery. -/
def declarationAt : (bound : Nat) → Parser Stmt
  | 0 => fail .expectExpression
  | bound + 1 => declarationRule (bound + 1) (statement bound) (declaration bound)

theorem declaration_eq (b : Nat) : declaration b = recovering (declarationAt b) := by
  cases b <;> rfl

theorem declarationAt_atEnd (b : Nat) {s : State} (hs : s.rest = []) :
    declarationAt b s = fail .expectExpression s := by
  obtain ⟨rest, endLine, nextId, faults⟩ := s
  subst hs
  cases b <;> rfl

namespace Sequel

variable {X : Sequel} {n b b' : Nat}

/-- Both a statement and a declaration are read alike, but for recovery. -/
structure Rules (X : Sequel) (n b b' : Nat) : Prop where
  statement : X.Closed n (statement b) (statement b')
  declaration : X.Closed n (declarationAt b) (declarationAt b')

theorem Rules.lasting (h : X.Rules n b b') :
    X.Lasting n (Parser.declaration b) (Parser.declaration b') := by
  rw [declaration_eq, declaration_eq]
  exact recovering_lasting h.declaration

theorem Rules.zero (hs : Progresses (Parser.statement b)) (hd : Progresses (declarationAt b)) :
    X.Rules 0 b b' where
  statement := .of_inside hs fun _ hfits hn hin => .of_fail (fun _ => statement_atEnd b)
    (fun _ => statement_atEnd b') hfits (List.length_eq_zero_iff.mp (Nat.le_zero.mp hn)) hin
  declaration := .of_inside hd fun _ hfits hn hin => .of_fail (fun _ => declarationAt_atEnd b)
    (fun _ => declarationAt_atEnd b') hfits (List.length_eq_zero_iff.mp (Nat.le_zero.mp hn)) hin

theorem Rules.succ (hb : X.Bounds (n + 1) (b + 1) (b' + 1)) (h : X.Rules n b b') :
    X.Rules (n + 1) (b + 1) (b' + 1) where
  statement := statementRule_closed hb h.statement.tight h.lasting
  declaration := declarationRule_closed hb h.statement.tight h.lasting

theorem rules : ∀ {b b' n : Nat}, X.Bounds n b b' → X.Rules n b b' := by
  intro b
  induction b with
  | zero =>
      intro b' n hb
      rw [Nat.le_zero.mp hb.alone]
      exact .zero fail_progresses fail_progresses
  | succ b ih =>
      intro b' n hb
      match n, b', hb with
      | 0, b', _ =>
          have hexact : X.Rules (b + 1) (b + 1) (b + X.more.length + 1) :=
            .succ ⟨Nat.le_refl _, by omega⟩ (ih (.exact X b))
          exact .zero hexact.statement.progresses hexact.declaration.progresses
      | n + 1, 0, hb => exact absurd hb.within (by omega)
      | n + 1, b' + 1, hb => exact .succ hb (ih hb.pred)

end Sequel

end Lox.Parser
