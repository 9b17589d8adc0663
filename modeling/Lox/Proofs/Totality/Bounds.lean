import Mathlib.Logic.Function.Iterate
import Lox.Proofs.Totality.Readers

/-!
# Reading comes to an end

The rules of the grammar call each other, and some of them before a token is taken. But between an expression
and another one inside of it a token is taken, and so it is with statements and declarations. So the depth of
the calls is at most the number of tokens that are left, and what a reader does at greater depths does not
matter. In the same way each round of a loop takes a token, if it does not leave the loop.
-/

namespace Lox.Parser

variable {α : Type}

/-! ## Loops -/

/-- What a loop comes to: each round ends it, fails, or takes at least one token. -/
inductive Loops (step : α → Parser (Option α)) :
    α → State → EStateM.Result Diagnostic State α → Prop
  | leaves {a : α} {s s' : State} (h : step a s = .ok none s') : Loops step a s (.ok a s')
  | fails {a : α} {d : Diagnostic} {s s' : State} (h : step a s = .error d s') :
      Loops step a s (.error d s')
  | goesOn {a b : α} {s s' : State} {r : EStateM.Result Diagnostic State α}
      (h : step a s = .ok (some b) s') (hlt : s'.rest.length < s.rest.length)
      (hr : Loops step b s' r) : Loops step a s r

/-- A bound on the tokens that are left does not cut the loop short. -/
theorem Loops.of_paced {step : α → Parser (Option α)} (hpaced : Paced step)
    (hdeclines : Declines step) : ∀ (bound : Nat) (a : α) {s : State}, s.rest.length ≤ bound →
      Loops step a s (rounds step bound a s)
  | 0, a, s, hs => .leaves (hdeclines a s (List.length_eq_zero_iff.mp (Nat.le_zero.mp hs)))
  | bound + 1, a, s, hs => by
      cases h : step a s with
      | error d s' =>
          rw [rounds, bind_error h]
          exact .fails h
      | ok o s' =>
          rw [rounds, bind_ok h]
          cases o with
          | none => exact .leaves h
          | some b =>
              have hlt := hpaced a b s s' h
              exact .goesOn h hlt (of_paced hpaced hdeclines bound b (by omega))

/-! ## Nothing behind

Two readings of the same tokens are a reading with nothing behind. -/

namespace Sequel

variable {n l : Nat} {p p' : Parser α} {s : State}

theorem last_state (hs : s.endLine = l) : (last l #[]).state s = s := by
  obtain ⟨rest, endLine, nextId, faults⟩ := s
  subst hs
  simp [state, last]

theorem last_result (hp : Proceeds p) (hs : s.endLine = l) : (last l #[]).result (p s) = p s := by
  cases h : p s with
  | ok a s' => rw [result, last_state ((hp.ok h).endLine.trans hs)]
  | error d s' => rw [result, last_state ((hp.error h).1.endLine.trans hs)]

/-- Readers that do the same with at most `n` tokens left. -/
theorem last_tight (hp : Proceeds p) (h : ∀ s, s.rest.length ≤ n → p' s = p s) :
    (last l #[]).Tight n p p' where
  proceeds := hp
  follows s hs hn := by
    have hline : s.endLine = l := hs.endLine rfl
    rw [last_state hline, h s hn]
    exact .inr (last_result hp hline).symm

theorem Loose.same (h : ∀ l, (last l #[]).Loose n p p') (hn : s.rest.length ≤ n) :
    p' s = p s := by
  have hstate : (last s.endLine #[]).state s = s := last_state rfl
  have hfollows := (h s.endLine).follows s ⟨fun _ => rfl, fun hmore => absurd rfl hmore⟩ hn
  rw [hstate] at hfollows
  -- nothing is lost, and nothing is behind
  rcases hfollows with hopen | hspoilt | hsame
  · cases hp : p s with
    | ok a s' => exact absurd rfl (hp ▸ hopen : Open _ (.ok a s')).2
    | error d s' => exact (hp ▸ hopen : Open _ (.error d s')).elim
  · cases hp : p s with
    | ok a s' =>
        obtain ⟨d, -, hlost⟩ := (hp ▸ hspoilt : Spoilt _ (.ok a s'))
        exact hlost.elim
    | error d s' =>
        rcases (hp ▸ hspoilt : Spoilt _ (.error (α := α) d s')) with hlost | ⟨d', -, hlost⟩
        · exact hlost.elim
        · exact hlost.elim
  · rw [hsame, last_result (h 0).proceeds rfl]

end Sequel

/-! ## Expressions -/

theorem primary_progresses {expression : Parser Expr} (h : Built expression) :
    Progresses (primary expression) := by
  refine .of_next fun s => ?_
  cases hrest : s.rest with
  | nil => exact .inl ⟨_, primary_nil hrest⟩
  | cons t ts =>
      have hloose : (Sequel.last 0 #[]).Loose 0 expression expression :=
        (Sequel.last_tight h.proceeds fun _ _ => rfl).loose
      rw [primary_cons hrest]
      rcases Sequel.afterFirst_loose hloose t with ⟨p, _, hp, -, hafter⟩ | ⟨hp, -⟩
      · rw [hp]
        exact .inr ⟨t, ts, p, rfl, hafter.proceeds, rfl⟩
      · rw [hp]
        exact .inl ⟨_, rfl⟩

theorem leftChain_progresses {bound : Nat} {accepts : Token.Kind → Bool}
    {join : Expr → Token → Expr → Expr} {operand : Parser Expr} (h : Progresses operand) :
    Progresses (leftChain bound accepts join operand) :=
  h.bind fun _ => .rounds (fun _ => take?_proceeds.bind fun o => by
    cases o with
    | none => exact .pure _
    | some operator => exact h.toProceeds.bind fun _ => .pure _) bound _

/-- An expression takes at least one token. -/
theorem expression_progresses (bound : Nat) : Progresses (expression bound) := by
  cases bound with
  | zero => exact fail_progresses
  | succ bound =>
      have hcall : Progresses (call (bound + 1) (expression bound)) :=
        (primary_progresses (.expression bound)).bind fun _ =>
          .rounds (fun _ => (Built.callSuffix (.expression bound)).proceeds) _ _
      have hunary : Progresses (unary (bound + 1) (expression bound)) :=
        .after (.rounds (fun _ => take?_proceeds.bind fun _ => .pure _) _ _) fun _ =>
          hcall.bind fun _ => .pure _
      have hdisjunction : Progresses (disjunction (bound + 1) (expression bound)) :=
        leftChain_progresses (leftChain_progresses (leftChain_progresses (leftChain_progresses
          (leftChain_progresses (leftChain_progresses hunary)))))
      exact hdisjunction.bind fun target =>
        (Built.afterTarget (.expression bound) target).proceeds

/-- An expression, where `expression` reads those inside of it. -/
def expressionOver (expression : Parser Expr) : Parser Expr := fun s =>
  assignment s.rest.length expression s

theorem assignment_atEnd {expression : Parser Expr} (bound : Nat) {s : State} (hs : s.rest = []) :
    assignment bound expression s = fail .expectExpression s := by
  obtain ⟨rest, endLine, nextId, faults⟩ := s
  subst hs
  cases bound <;> rfl

/-- With tokens left, there is room for one more rule inside of this one. -/
theorem exists_bounds {s : State} {b : Nat} (hrest : s.rest ≠ []) (hb : s.rest.length ≤ b) :
    ∃ m b', s.rest.length = m + 1 ∧ b = b' + 1 ∧
      ∀ l, (Sequel.last l #[]).Bounds (m + 1) (b' + 1) s.rest.length := by
  have hpos : 0 < s.rest.length := List.length_pos_iff.mpr hrest
  obtain ⟨m, hm⟩ : ∃ m, s.rest.length = m + 1 := ⟨_, (Nat.succ_pred hpos.ne').symm⟩
  obtain ⟨b', rfl⟩ : ∃ b', b = b' + 1 := ⟨b - 1, by omega⟩
  exact ⟨m, b', hm, rfl, fun l => ⟨by omega, Nat.le_of_eq (by rw [hm]; rfl)⟩⟩

/-- It is enough that `inner` is right for fewer tokens. -/
theorem expressionOver_eq {inner : Parser Expr} {s : State} {b : Nat} (hb : s.rest.length ≤ b)
    (hinner : ∀ s' b', s'.rest.length < s.rest.length → s'.rest.length ≤ b' →
      inner s' = expression b' s') : expressionOver inner s = expression b s := by
  unfold expressionOver
  by_cases hrest : s.rest = []
  · rw [assignment_atEnd _ hrest, Sequel.expression_atEnd b hrest]
  obtain ⟨m, b, hm, rfl, hbounds⟩ := exists_bounds hrest hb
  have hexpression : ∀ l, (Sequel.last l #[]).Tight m (expression b) inner := fun l =>
    Sequel.last_tight (Built.expression b).proceeds fun s' hs' =>
      hinner s' b (by omega) (by omega)
  exact Sequel.Loose.same (fun l => Sequel.assignment_loose (hbounds l) (hexpression l).loose)
    (Nat.le_of_eq hm)

/-- Expressions inside of each other are at most as deep as there are tokens, so it does not matter how they
would be read at greater depths. -/
theorem expression_of_iterate (deeper : Parser Expr) : ∀ (n : Nat) {s : State} {b : Nat},
    s.rest.length < n → s.rest.length ≤ b → expressionOver^[n] deeper s = expression b s
  | 0, _, _, hn, _ => absurd hn (Nat.not_lt_zero _)
  | n + 1, s, b, hn, hb => by
      rw [Function.iterate_succ_apply']
      exact expressionOver_eq hb fun s' b' hs' hb' => expression_of_iterate deeper n (by omega) hb'

/-! ## Statements and declarations -/

/-- Readers of statements and of declarations. -/
structure Statements where
  statement : Parser Stmt
  declaration : Parser (Option Stmt)

/-- A statement and a declaration, where `inner` reads those inside of it. -/
def statementsOver (inner : Statements) : Statements where
  statement s := statementRule s.rest.length inner.statement inner.declaration s
  declaration s :=
    recovering (declarationRule s.rest.length inner.statement inner.declaration) s

theorem statementRule_atEnd {statement : Parser Stmt} {declaration : Parser (Option Stmt)}
    (bound : Nat) {s : State} (hs : s.rest = []) :
    statementRule bound statement declaration s = fail .expectExpression s := by
  obtain ⟨rest, endLine, nextId, faults⟩ := s
  subst hs
  cases bound <;> rfl

theorem declarationRule_atEnd {statement : Parser Stmt} {declaration : Parser (Option Stmt)}
    (bound : Nat) {s : State} (hs : s.rest = []) :
    declarationRule bound statement declaration s = fail .expectExpression s := by
  obtain ⟨rest, endLine, nextId, faults⟩ := s
  subst hs
  cases bound <;> rfl

theorem recovering_congr {rule rule' : Parser Stmt} {s : State} (h : rule s = rule' s) :
    recovering rule s = recovering rule' s := by
  unfold recovering
  rw [h]

/-- A declaration takes at least one token if there is one. -/
theorem declaration_shorter (b : Nat) {o : Option Stmt} {s s' : State}
    (h : declaration b s = .ok o s') (hs : s.rest ≠ []) : s'.rest.length < s.rest.length :=
  (Sequel.rules (.exact (.last 0 #[]) b)).lasting.shorter o s s' h hs

/-- It is enough that `inner` is right for fewer tokens. -/
theorem statementsOver_eq {inner : Statements} {s : State} {b : Nat} (hb : s.rest.length ≤ b)
    (hinner : ∀ s' b', s'.rest.length < s.rest.length → s'.rest.length ≤ b' →
      inner.statement s' = statement b' s' ∧ inner.declaration s' = declaration b' s') :
    (statementsOver inner).statement s = statement b s ∧
      (statementsOver inner).declaration s = declaration b s := by
  show statementRule _ inner.statement inner.declaration s = _ ∧
    recovering (declarationRule _ inner.statement inner.declaration) s = _
  rw [declaration_eq]
  by_cases hrest : s.rest = []
  · refine ⟨?_, recovering_congr ?_⟩
    · rw [statementRule_atEnd _ hrest, statement_atEnd b hrest]
    · rw [declarationRule_atEnd _ hrest, declarationAt_atEnd b hrest]
  -- what is inside has at least one token less
  obtain ⟨m, b, hm, rfl, hbounds⟩ := exists_bounds hrest hb
  have hstatement : ∀ l, (Sequel.last l #[]).Tight m (statement b) inner.statement := fun l =>
    Sequel.last_tight (Built.statements b).1.proceeds fun s' hs' =>
      (hinner s' b (by omega) (by omega)).1
  have hdeclaration : ∀ l, (Sequel.last l #[]).Lasting m (declaration b) inner.declaration :=
    fun l =>
      { toTight := Sequel.last_tight (Built.statements b).2.proceeds fun s' hs' =>
          (hinner s' b (by omega) (by omega)).2
        shorter := fun _ _ _ => declaration_shorter b }
  refine ⟨?_, recovering_congr ?_⟩
  · exact Sequel.Loose.same (fun l => (Sequel.statementRule_closed (hbounds l) (hstatement l)
      (hdeclaration l)).loose) (Nat.le_of_eq hm)
  · exact Sequel.Loose.same (fun l => (Sequel.declarationRule_closed (hbounds l) (hstatement l)
      (hdeclaration l)).loose) (Nat.le_of_eq hm)

/-- Statements and declarations inside of each other are at most as deep as there are tokens, so it does not
matter how they would be read at greater depths. -/
theorem statements_of_iterate (deeper : Statements) : ∀ (n : Nat) {s : State} {b : Nat},
    s.rest.length < n → s.rest.length ≤ b →
      (statementsOver^[n] deeper).statement s = statement b s ∧
      (statementsOver^[n] deeper).declaration s = declaration b s
  | 0, _, _, hn, _ => absurd hn (Nat.not_lt_zero _)
  | n + 1, s, b, hn, hb => by
      rw [Function.iterate_succ_apply']
      exact statementsOver_eq hb fun s' b' hs' hb' =>
        statements_of_iterate deeper n (by omega) hb'

/-! ## The loops of the parser -/

theorem nextDeclaration_paced (m : Nat) : Paced (nextDeclaration (declaration m)) := by
  intro a b s s' h
  obtain ⟨stops, s₁, hend, h⟩ := bind_eq_ok.mp h
  cases hend
  cases hrest : s.rest with
  | nil =>
      rw [hrest] at h
      cases h
  | cons t ts =>
      rw [hrest] at h
      obtain ⟨o, s₂, hread, h⟩ := bind_eq_ok.mp h
      obtain ⟨-, rfl⟩ := pure_eq_ok.mp h
      rw [← hrest]
      exact declaration_shorter m hread (by simp [hrest])

theorem loops_declarations (m : Nat) {bound : Nat} (taken : List Stmt) {s : State}
    (hs : s.rest.length ≤ bound) :
    Loops (nextDeclaration (declaration m)) taken s
      (rounds (nextDeclaration (declaration m)) bound taken s) :=
  .of_paced (nextDeclaration_paced m) nextDeclaration_declines bound taken hs

theorem loops_block (m : Nat) {bound : Nat} (taken : List Stmt) {s : State}
    (hs : s.rest.length ≤ bound) :
    Loops (nextInBlock (declaration m)) taken s
      (rounds (nextInBlock (declaration m)) bound taken s) := by
  refine .of_paced (.untilBrace fun a b s s' h hrest => ?_) .untilBrace bound taken hs
  obtain ⟨o, s₁, hread, h⟩ := bind_eq_ok.mp h
  obtain ⟨-, rfl⟩ := pure_eq_ok.mp h
  exact declaration_shorter m hread hrest

theorem loops_methods (m m' : Nat) {bound : Nat} (taken : List Function) {s : State}
    (hs : s.rest.length ≤ bound) :
    Loops (nextMethod m (declaration m')) taken s
      (rounds (nextMethod m (declaration m')) bound taken s) := by
  refine .of_paced (.untilBrace fun a b s s' h _ => ?_) .untilBrace bound taken hs
  have hmethod : Progresses (function m .method (declaration m')) :=
    expectName_progresses.bind fun _ => (Built.afterName (Built.statements m').2).proceeds
  exact (hmethod.bind fun _ => .pure _).shorter h

theorem loops_items {item : Parser α} (h : Proceeds item) (excess : SyntaxFault) {bound : Nat}
    (taken : List α) {s : State} (hs : s.rest.length ≤ bound) :
    Loops (nextItem item excess) taken s (rounds (nextItem item excess) bound taken s) := by
  refine .of_paced (.accept (fun _ => ?_) .done) (.accept .done) bound taken hs
  exact reportExcess_proceeds.bind fun _ => h.bind fun _ => .pure _

end Lox.Parser
