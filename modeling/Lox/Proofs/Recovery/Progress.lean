import Lox.Proofs.Grammar.Sound

/-!
# Reading goes forward

Whatever a reader does, the tokens that it leaves are a tail of those that it found, and no fault that was
recorded is taken back. A fault that it throws is at the next token. These three facts hold whether it ends
well or not.

Most readers take a token before they end well, so they fail where no token is left. The others leave it to
what follows to notice that.
-/

namespace Lox.Parser

variable {α β : Type}

/-! ## Readers that go forward -/

/-- What is left later is a tail of what is left now, and the faults of now are still there. -/
structure State.Precedes (s s' : State) : Prop where
  rest : s'.rest <:+ s.rest
  faults : ∀ d ∈ s.faults, d ∈ s'.faults
  endLine : s'.endLine = s.endLine

namespace State.Precedes

variable {s s' s'' : State}

theorem refl (s : State) : s.Precedes s := ⟨List.suffix_refl _, fun _ h => h, rfl⟩

theorem trans (h : s.Precedes s') (h' : s'.Precedes s'') : s.Precedes s'' :=
  ⟨h'.rest.trans h.rest, fun d hd => h'.faults d (h.faults d hd), h'.endLine.trans h.endLine⟩

theorem length_le (h : s.Precedes s') : s'.rest.length ≤ s.rest.length := h.rest.length_le

theorem next {t : Token} {ts : List Token} (h : s.rest = t :: ts) :
    s.Precedes { s with rest := ts } :=
  ⟨h ▸ List.suffix_cons t ts, fun _ h => h, rfl⟩

theorem push (s : State) (d : Diagnostic) : s.Precedes { s with faults := s.faults.push d } :=
  ⟨List.suffix_refl _, fun _ h => Array.mem_push_of_mem _ h, rfl⟩

end State.Precedes

/-- The reader goes forward, and what it throws is a fault at the next token. -/
structure Proceeds (p : Parser α) : Prop where
  ok : ∀ {s a s'}, p s = .ok a s' → s.Precedes s'
  error : ∀ {s d s'}, p s = .error d s' →
    s.Precedes s' ∧ ∃ fault, d = s'.peek.diagnostic (.syntactic fault)

/-- The reader takes a token before it ends well. -/
structure Progresses (p : Parser α) : Prop extends Proceeds p where
  shorter : ∀ {s a s'}, p s = .ok a s' → s'.rest.length < s.rest.length

theorem bind_eq_error {p : Parser α} {f : α → Parser β} {s s' : State} {d : Diagnostic} :
    (p >>= f) s = .error d s' ↔
      p s = .error d s' ∨ ∃ a s₁, p s = .ok a s₁ ∧ f a s₁ = .error d s' := by
  show EStateM.bind p f s = _ ↔ _
  unfold EStateM.bind
  cases p s with
  | ok a s₁ =>
      constructor
      · exact fun h => .inr ⟨a, s₁, rfl, h⟩
      · rintro (h | ⟨a', s₁', h, hf⟩)
        · exact nomatch h
        · injection h with ha hs
          exact ha ▸ hs ▸ hf
  | error d' s₁ => simp

namespace Proceeds

variable {p q : Parser α} {f : α → Parser β}

theorem pure (a : α) : Proceeds (pure a) where
  ok h := by
    obtain ⟨rfl, rfl⟩ := pure_eq_ok.mp h
    exact .refl _
  error h := nomatch h

theorem bind (hp : Proceeds p) (hf : ∀ a, Proceeds (f a)) : Proceeds (p >>= f) where
  ok h := by
    obtain ⟨a, s₁, h₁, h₂⟩ := bind_eq_ok.mp h
    exact (hp.ok h₁).trans ((hf a).ok h₂)
  error h := by
    rcases bind_eq_error.mp h with h | ⟨a, s₁, h₁, h₂⟩
    · exact hp.error h
    · obtain ⟨hprecedes, hthrown⟩ := (hf a).error h₂
      exact ⟨(hp.ok h₁).trans hprecedes, hthrown⟩

theorem ite {b : Bool} (hp : Proceeds p) (hq : Proceeds q) :
    Proceeds (if b = true then p else q) := by
  cases b with
  | true => exact hp
  | false => exact hq

theorem rounds {step : α → Parser (Option α)} (h : ∀ a, Proceeds (step a)) :
    ∀ (bound : Nat) (a : α), Proceeds (rounds step bound a)
  | 0, a => pure a
  | bound + 1, a => (h a).bind fun o => by
      cases o with
      | none => exact pure a
      | some b => exact rounds h bound b

end Proceeds

namespace Progresses

variable {p q : Parser α} {f : α → Parser β}

theorem bind (hp : Progresses p) (hf : ∀ a, Proceeds (f a)) : Progresses (p >>= f) where
  toProceeds := hp.toProceeds.bind hf
  shorter h := by
    obtain ⟨a, s₁, h₁, h₂⟩ := bind_eq_ok.mp h
    exact Nat.lt_of_le_of_lt ((hf a).ok h₂).length_le (hp.shorter h₁)

/-- It is enough that a token is taken in the end. -/
theorem after (hp : Proceeds p) (hf : ∀ a, Progresses (f a)) : Progresses (p >>= f) where
  toProceeds := hp.bind fun a => (hf a).toProceeds
  shorter h := by
    obtain ⟨a, s₁, h₁, h₂⟩ := bind_eq_ok.mp h
    exact Nat.lt_of_lt_of_le ((hf a).shorter h₂) (hp.ok h₁).length_le

/-- It is enough to look at the next token: if there is one that does not make the reader fail, then it
is taken. -/
theorem of_next (h : ∀ s, (∃ fault, p s = fail fault s) ∨
    ∃ t ts q, s.rest = t :: ts ∧ Proceeds q ∧ p s = q { s with rest := ts }) : Progresses p where
  ok {s a s'} hok := by
    rcases h s with ⟨fault, hfail⟩ | ⟨t, ts, q, hrest, hq, heq⟩
    · exact nomatch hfail ▸ hok
    · exact (State.Precedes.next hrest).trans (hq.ok (heq ▸ hok))
  error {s d s'} herror := by
    rcases h s with ⟨fault, hfail⟩ | ⟨t, ts, q, hrest, hq, heq⟩
    · rw [hfail] at herror
      cases herror
      exact ⟨.refl _, fault, rfl⟩
    · obtain ⟨hprecedes, hthrown⟩ := hq.error (heq ▸ herror)
      exact ⟨(State.Precedes.next hrest).trans hprecedes, hthrown⟩
  shorter {s a s'} hok := by
    rcases h s with ⟨fault, hfail⟩ | ⟨t, ts, q, hrest, hq, heq⟩
    · exact nomatch hfail ▸ hok
    · rw [hrest]
      exact Nat.lt_succ_of_le (hq.ok (heq ▸ hok)).length_le

/-- Where no token is left, such a reader fails. -/
theorem atEnd (hp : Progresses p) {s : State} (hs : s.rest = []) :
    ∃ d s', p s = .error d s' := by
  cases h : p s with
  | ok a s' =>
      have hlt := hp.shorter h
      rw [hs] at hlt
      exact absurd hlt (Nat.not_lt_zero _)
  | error d s' => exact ⟨d, s', rfl⟩

end Progresses

/-! ## Single tokens -/

theorem atEnd_proceeds : Proceeds atEnd where
  ok h := by
    cases h
    exact .refl _
  error h := nomatch h

theorem nextIs_proceeds {symbol : Symbol} : Proceeds (nextIs symbol) where
  ok h := by
    cases h
    exact .refl _
  error h := nomatch h

theorem report_proceeds {t : Token} {fault : SyntaxFault} : Proceeds (report t fault) where
  ok h := by
    cases h
    exact .push _ _
  error h := nomatch h

theorem reference_proceeds {name : Token} : Proceeds (reference name) where
  ok h := by
    cases h
    exact ⟨List.suffix_refl _, fun _ h => h, rfl⟩
  error h := nomatch h

theorem reportExcess_proceeds {count : Nat} {fault : SyntaxFault} :
    Proceeds (reportExcess count fault) where
  ok {s a s'} h := by
    unfold reportExcess at h
    split at h
    · exact report_proceeds.ok h
    · cases h
      exact .refl _
  error {s d s'} h := by
    unfold reportExcess at h
    split at h
    · exact report_proceeds.error h
    · exact nomatch h

theorem fail_progresses {fault : SyntaxFault} : Progresses (fail fault : Parser α) where
  ok h := nomatch h
  error h := by
    cases h
    exact ⟨.refl _, fault, rfl⟩
  shorter h := nomatch h

/-- Either the next token is taken, or everything stays as it is. -/
theorem take?_cases {accepts : Token.Kind → Bool} {s s' : State} {o : Option Token}
    (h : take? accepts s = .ok o s') :
    (∃ t ts, s.rest = t :: ts ∧ o = some t ∧ s' = { s with rest := ts }) ∨ o = none ∧ s' = s := by
  unfold take? at h
  split at h
  · next t ts hrest =>
    split at h <;> cases h
    · exact .inl ⟨t, ts, hrest, rfl, rfl⟩
    · exact .inr ⟨rfl, rfl⟩
  · cases h
    exact .inr ⟨rfl, rfl⟩

theorem take?_proceeds {accepts : Token.Kind → Bool} : Proceeds (take? accepts) where
  ok h := by
    rcases take?_cases h with ⟨t, ts, hrest, -, rfl⟩ | ⟨-, rfl⟩
    · exact .next hrest
    · exact .refl _
  error {s d s'} h := by
    unfold take? at h
    split at h
    · split at h <;> exact nomatch h
    · exact nomatch h

/-- Once a token has been taken, nothing more is asked for. -/
theorem take?_progresses {accepts : Token.Kind → Bool} {f : Option Token → Parser β}
    (hsome : ∀ t, Proceeds (f (some t))) (hnone : Progresses (f none)) :
    Progresses (take? accepts >>= f) where
  toProceeds := take?_proceeds.bind fun o => by
    cases o with
    | none => exact hnone.toProceeds
    | some t => exact hsome t
  shorter {s b s'} h := by
    obtain ⟨o, s₁, h₁, h₂⟩ := bind_eq_ok.mp h
    rcases take?_cases h₁ with ⟨t, ts, hrest, rfl, rfl⟩ | ⟨rfl, rfl⟩
    · rw [hrest]
      exact Nat.lt_succ_of_le ((hsome t).ok h₂).length_le
    · exact hnone.shorter h₂

theorem acceptWord_proceeds {keyword : Keyword} : Proceeds (acceptWord keyword) :=
  take?_proceeds.bind fun _ => .pure _

theorem expect_progresses {symbol : Symbol} {spot : Spot} : Progresses (expect symbol spot) :=
  take?_progresses (fun t => .pure t) fail_progresses

theorem expectName_progresses {role : NameRole} : Progresses (expectName role) :=
  take?_progresses (fun t => .pure t) fail_progresses

/-! ## Expressions -/

/-- What is read after the first token of a primary expression, if the token starts one. -/
def afterFirst (expression : Parser Expr) (t : Token) : Option (Parser Expr) :=
  match t.kind with
  | .keyword .falseWord => some (return .literal (.bool false))
  | .keyword .trueWord => some (return .literal (.bool true))
  | .keyword .nilWord => some (return .literal .nil)
  | .number value => some (return .literal (.number value))
  | .string contents => some (return .literal (.string contents))
  | .keyword .superWord => some do
    let _ ← expect .dot .afterSuper
    let method ← expectName .superclassMethod
    return .super (← reference t) method
  | .keyword .thisWord => some do return .this (← reference t)
  | .identifier => some do return .ident (← reference t)
  | .symbol .leftParen => some do
    let inner ← expression
    let _ ← expect .rightParen .afterExpression
    return .grouping inner
  | _ => none

section

variable {expression : Parser Expr}

theorem primary_nil {s : State} (hs : s.rest = []) :
    primary expression s = fail .expectExpression s := by
  obtain ⟨rest, endLine, nextId, faults⟩ := s
  subst hs
  rfl

theorem primary_cons {s : State} {t : Token} {ts : List Token} (hs : s.rest = t :: ts) :
    primary expression s =
      match afterFirst expression t with
      | some p => p { s with rest := ts }
      | none => fail .expectExpression s := by
  obtain ⟨rest, endLine, nextId, faults⟩ := s
  obtain ⟨kind, lexeme, line⟩ := t
  subst hs
  cases kind with
  | symbol symbol => cases symbol <;> rfl
  | keyword keyword => cases keyword <;> rfl
  | _ => rfl

end

/-! ## Recovery -/

theorem skipToBoundary_suffix : ∀ (last : Token) (ts : List Token), skipToBoundary last ts <:+ ts
  | _, [] => List.suffix_refl _
  | last, t :: ts => by
      rw [skipToBoundary]
      split
      · exact List.suffix_refl _
      · exact (skipToBoundary_suffix t ts).trans (List.suffix_cons t ts)

theorem synchronize_precedes (s : State) : s.Precedes s.synchronize := by
  obtain ⟨rest, endLine, nextId, faults⟩ := s
  refine ⟨?_, fun _ h => h, rfl⟩
  cases rest with
  | nil => exact List.suffix_refl _
  | cons t ts => exact (skipToBoundary_suffix t ts).trans (List.suffix_cons t ts)

/-- Recovery drops at least the token at fault. -/
theorem synchronize_shorter {s : State} (hs : s.rest ≠ []) :
    s.synchronize.rest.length < s.rest.length := by
  obtain ⟨rest, endLine, nextId, faults⟩ := s
  cases rest with
  | nil => exact absurd rfl hs
  | cons t ts => exact Nat.lt_succ_of_le (skipToBoundary_suffix t ts).length_le

theorem recovering_proceeds {rule : Parser Stmt} (h : Proceeds rule) : Proceeds (recovering rule) where
  ok {s o s'} hok := by
    unfold recovering at hok
    cases hrule : rule s with
    | ok stmt s₁ =>
        rw [hrule] at hok
        cases hok
        exact h.ok hrule
    | error d s₁ =>
        rw [hrule] at hok
        cases hok
        exact ((h.error hrule).1.trans (.push s₁ d)).trans (synchronize_precedes _)
  error {s d s'} herror := by
    unfold recovering at herror
    cases hrule : rule s with
    | ok stmt s₁ => exact nomatch hrule ▸ herror
    | error d s₁ => exact nomatch hrule ▸ herror

/-- A declaration takes a token if there is one, even if it is at fault. -/
theorem recovering_shorter {rule : Parser Stmt} (h : Progresses rule) {s s' : State}
    {o : Option Stmt} (hok : recovering rule s = .ok o s') (hs : s.rest ≠ []) :
    s'.rest.length < s.rest.length := by
  unfold recovering at hok
  cases hrule : rule s with
  | ok stmt s₁ =>
      rw [hrule] at hok
      cases hok
      exact h.shorter hrule
  | error d s₁ =>
      rw [hrule] at hok
      cases hok
      by_cases hrest : s₁.rest = []
      · refine Nat.lt_of_le_of_lt (synchronize_precedes { s₁ with faults := s₁.faults.push d }).length_le
          ?_
        rw [hrest]
        exact List.length_pos_iff.mpr hs
      · exact Nat.lt_of_lt_of_le (synchronize_shorter
          (s := { s₁ with faults := s₁.faults.push d }) hrest) (h.error hrule).1.length_le

end Lox.Parser
