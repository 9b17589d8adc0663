import Lox.Proofs.Recovery.Progress

/-!
# Reading with more tokens behind

Tokens are read on their own, and they are read with more tokens behind them, after other tokens that left
their faults behind. Up to the end of the tokens both readings do the same. There the first one sees the end
and the second one sees what follows.

Most readers that meet the end fail there. The first reading then has a fault at the end, and nothing is said
about the second one. What is left are readers that end well with the last token. A statement or a
declaration is closed by its last token, except that an `else` could follow. An expression, and what else is
a part of a statement, is still open, but then the statement goes on to fail.

With a bound on the tokens left in each of the readings, it does not matter that the bounds differ.
-/

namespace Lox.Parser

variable {α β : Type}

/-- What a reading is set into: the tokens behind those that are read, the line of the end, and the faults
from before. If one of the faults that are `Lost` is met, then nothing is said about the larger reading. -/
structure Sequel where
  more : List Token
  endLine : Nat
  earlier : Array Diagnostic
  Lost : Diagnostic → Prop
  lost_atEnd : more ≠ [] → ∀ d : Diagnostic, d.place = .atEnd → Lost d
  noElse : ∀ t ∈ more.head?, t.kind ≠ .keyword .elseWord

namespace Sequel

variable (X : Sequel)

/-- The state in the larger reading. -/
def state (s : State) : State where
  rest := s.rest ++ X.more
  endLine := X.endLine
  nextId := s.nextId
  faults := X.earlier ++ s.faults

def result : EStateM.Result Diagnostic State α → EStateM.Result Diagnostic State α
  | .ok a s => .ok a (X.state s)
  | .error d s => .error d (X.state s)

/-- A fault that is lost has been met. -/
def Spoilt : EStateM.Result Diagnostic State α → Prop
  | .ok _ s => ∃ d ∈ s.faults, X.Lost d
  | .error d s => X.Lost d ∨ ∃ d ∈ s.faults, X.Lost d

/-- The reader has ended well with the last token, and there are more behind. -/
def Open : EStateM.Result Diagnostic State α → Prop
  | .ok _ s => s.rest = [] ∧ X.more ≠ []
  | .error _ _ => False

/-- The larger reading comes to the same. -/
def Tightly (r r' : EStateM.Result Diagnostic State α) : Prop := X.Spoilt r ∨ r' = X.result r

/-- The larger reading comes to the same, or may go on. -/
def Loosely (r r' : EStateM.Result Diagnostic State α) : Prop := X.Open r ∨ X.Tightly r r'

/-- Reading can go on from the state: the end is the same if it is in sight, and the tokens that are left
end with a boundary of statements if faults are allowed. -/
structure Fits (s : State) : Prop where
  endLine : X.more = [] → s.endLine = X.endLine
  boundary : X.more ≠ [] → (∀ d, X.Lost d) ∨ ∀ t ∈ s.rest.getLast?, t.kind = .symbol .semicolon

/-- With at most `n` tokens left, the second reader does in the larger reading what the first one does,
except that it may go on if the first one has taken the last token. -/
structure Loose (n : Nat) (p p' : Parser α) : Prop where
  proceeds : Proceeds p
  follows : ∀ s, X.Fits s → s.rest.length ≤ n → X.Loosely (p s) (p' (X.state s))

/-- Like `Loose`, except that the second reader does not go on. -/
structure Tight (n : Nat) (p p' : Parser α) : Prop where
  proceeds : Proceeds p
  follows : ∀ s, X.Fits s → s.rest.length ≤ n → X.Tightly (p s) (p' (X.state s))

/-- Like `Tight`, for readers that have to take a token. -/
structure Closed (n : Nat) (p p' : Parser α) : Prop where
  progresses : Progresses p
  follows : ∀ s, X.Fits s → s.rest.length ≤ n → X.Tightly (p s) (p' (X.state s))

end Sequel

variable {X : Sequel} {n : Nat}

theorem Sequel.Fits.later {s s' : State} (h : X.Fits s) (hs : s.Precedes s') : X.Fits s' where
  endLine hmore := hs.endLine.trans (h.endLine hmore)
  boundary hmore := by
    refine (h.boundary hmore).imp_right fun hlast t ht => hlast t ?_
    obtain ⟨before, hrest⟩ := hs.rest
    rw [← hrest, List.getLast?_append, ht]
    rfl

/-! ## One reader after the other -/

theorem bind_ok {p : Parser α} {f : α → Parser β} {s s₁ : State} {a : α} (h : p s = .ok a s₁) :
    (p >>= f) s = f a s₁ := by
  show EStateM.bind p f s = _
  rw [EStateM.bind, h]

theorem bind_error {p : Parser α} {f : α → Parser β} {s s₁ : State} {d : Diagnostic}
    (h : p s = .error d s₁) : (p >>= f) s = .error d s₁ := by
  show EStateM.bind p f s = _
  rw [EStateM.bind, h]

namespace Sequel

variable {p p' : Parser α} {f f' : α → Parser β} {s : State}

/-- At the end of the tokens, what is thrown is lost. -/
theorem lost_of_rest (hp : Proceeds p) {s' : State} {d : Diagnostic} (h : p s = .error d s')
    (hrest : s'.rest = []) (hmore : X.more ≠ []) : X.Lost d := by
  obtain ⟨-, fault, rfl⟩ := hp.error h
  refine X.lost_atEnd hmore _ ?_
  rw [State.peek, hrest]
  rfl

/-- What is spoilt stays so. -/
theorem Spoilt.bind (h : X.Spoilt (p s)) (hf : ∀ a, Proceeds (f a)) : X.Spoilt ((p >>= f) s) := by
  cases hp : p s with
  | error d s₁ =>
      rw [hp] at h
      rw [bind_error hp]
      exact h
  | ok a s₁ =>
      rw [bind_ok hp]
      rw [hp] at h
      obtain ⟨d, hd, hlost⟩ := h
      cases hfa : f a s₁ with
      | ok b s₂ => exact ⟨d, ((hf a).ok hfa).faults d hd, hlost⟩
      | error d' s₂ => exact .inr ⟨d, ((hf a).error hfa).1.faults d hd, hlost⟩

/-- At the end of the tokens, a reader takes nothing or fails. -/
theorem Loosely.atEnd (hp : Proceeds p) (hs : s.rest = []) (hmore : X.more ≠ [])
    (r' : EStateM.Result Diagnostic State α) : X.Loosely (p s) r' := by
  cases h : p s with
  | ok a s' =>
      have hrest := (hp.ok h).rest
      rw [hs] at hrest
      exact .inl ⟨List.suffix_nil.mp hrest, hmore⟩
  | error d s' =>
      have hrest := (hp.error h).1.rest
      rw [hs] at hrest
      exact .inr (.inl (.inl (lost_of_rest hp h (List.suffix_nil.mp hrest) hmore)))

/-- At the end of the tokens, a reader that has to take one fails. -/
theorem Tightly.atEnd (hp : Progresses p) (hs : s.rest = []) (hmore : X.more ≠ [])
    (r' : EStateM.Result Diagnostic State α) : X.Tightly (p s) r' := by
  obtain ⟨d, s', h⟩ := hp.atEnd hs
  rcases Loosely.atEnd hp.toProceeds hs hmore r' with hopen | htight
  · rw [h] at hopen
    exact hopen.elim
  · exact htight

theorem Tightly.bind (h : X.Tightly (p s) (p' (X.state s))) (hf : ∀ a, Proceeds (f a))
    (hnext : ∀ a s₁, p s = .ok a s₁ → X.Tightly (f a s₁) (f' a (X.state s₁))) :
    X.Tightly ((p >>= f) s) ((p' >>= f') (X.state s)) := by
  rcases h with hspoilt | hsame
  · exact .inl (hspoilt.bind hf)
  · cases hp : p s with
    | ok a s₁ =>
        rw [hp] at hsame
        rw [bind_ok hp, bind_ok hsame]
        exact hnext a s₁ hp
    | error d s₁ =>
        rw [hp] at hsame
        rw [bind_error hp, bind_error hsame]
        exact .inr rfl

theorem Loosely.bind (h : X.Loosely (p s) (p' (X.state s))) (hf : ∀ a, Proceeds (f a))
    (hnext : ∀ a s₁, p s = .ok a s₁ → X.Loosely (f a s₁) (f' a (X.state s₁))) :
    X.Loosely ((p >>= f) s) ((p' >>= f') (X.state s)) := by
  rcases h with hopen | hspoilt | hsame
  · cases hp : p s with
    | ok a s₁ =>
        rw [hp] at hopen
        rw [bind_ok hp]
        exact .atEnd (hf a) hopen.1 hopen.2 _
    | error d s₁ => exact (hp ▸ hopen : X.Open (.error d s₁)).elim
  · exact .inr (.inl (hspoilt.bind hf))
  · cases hp : p s with
    | ok a s₁ =>
        rw [hp] at hsame
        rw [bind_ok hp, bind_ok hsame]
        exact hnext a s₁ hp
    | error d s₁ =>
        rw [hp] at hsame
        rw [bind_error hp, bind_error hsame]
        exact .inr (.inr rfl)

/-- What is still open is closed by a reader that has to take a token. -/
theorem Loosely.close (h : X.Loosely (p s) (p' (X.state s))) (hf : ∀ a, Progresses (f a))
    (hnext : ∀ a s₁, p s = .ok a s₁ → X.Tightly (f a s₁) (f' a (X.state s₁))) :
    X.Tightly ((p >>= f) s) ((p' >>= f') (X.state s)) := by
  rcases h with hopen | htight
  · cases hp : p s with
    | ok a s₁ =>
        rw [hp] at hopen
        rw [bind_ok hp]
        exact .atEnd (hf a) hopen.1 hopen.2 _
    | error d s₁ => exact (hp ▸ hopen : X.Open (.error d s₁)).elim
  · exact htight.bind (fun a => (hf a).toProceeds) hnext

theorem Tight.loose (h : X.Tight n p p') : X.Loose n p p' :=
  ⟨h.proceeds, fun s hs hn => .inr (h.follows s hs hn)⟩

theorem Closed.tight (h : X.Closed n p p') : X.Tight n p p' := ⟨h.progresses.toProceeds, h.follows⟩

theorem Closed.loose (h : X.Closed n p p') : X.Loose n p p' := h.tight.loose

theorem Tight.pure (a : α) : X.Tight n (pure a) (pure a) := ⟨.pure a, fun _ _ _ => .inr rfl⟩

theorem Loose.pure (a : α) : X.Loose n (Pure.pure a) (Pure.pure a) := (Tight.pure a).loose

theorem Loose.bind (h : X.Loose n p p') (hf : ∀ a, X.Loose n (f a) (f' a)) :
    X.Loose n (p >>= f) (p' >>= f') where
  proceeds := h.proceeds.bind fun a => (hf a).proceeds
  follows s hs hn := (h.follows s hs hn).bind (fun a => (hf a).proceeds) fun a s₁ h₁ =>
    have hprecedes := h.proceeds.ok h₁
    (hf a).follows s₁ (hs.later hprecedes) (Nat.le_trans hprecedes.length_le hn)

theorem Tight.bind (h : X.Tight n p p') (hf : ∀ a, X.Tight n (f a) (f' a)) :
    X.Tight n (p >>= f) (p' >>= f') where
  proceeds := h.proceeds.bind fun a => (hf a).proceeds
  follows s hs hn := (h.follows s hs hn).bind (fun a => (hf a).proceeds) fun a s₁ h₁ =>
    have hprecedes := h.proceeds.ok h₁
    (hf a).follows s₁ (hs.later hprecedes) (Nat.le_trans hprecedes.length_le hn)

theorem Closed.bind (h : X.Closed n p p') (hf : ∀ a, X.Tight n (f a) (f' a)) :
    X.Closed n (p >>= f) (p' >>= f') where
  progresses := h.progresses.bind fun a => (hf a).proceeds
  follows := (h.tight.bind hf).follows

/-- What is still open is closed by what follows. -/
theorem Loose.close (h : X.Loose n p p') (hf : ∀ a, X.Closed n (f a) (f' a)) :
    X.Closed n (p >>= f) (p' >>= f') where
  progresses := .after h.proceeds fun a => (hf a).progresses
  follows s hs hn := (h.follows s hs hn).close (fun a => (hf a).progresses) fun a s₁ h₁ =>
    have hprecedes := h.proceeds.ok h₁
    (hf a).follows s₁ (hs.later hprecedes) (Nat.le_trans hprecedes.length_le hn)

section

variable {b : Bool} {q q' : Parser α}

theorem Loose.ite (hp : X.Loose n p p') (hq : X.Loose n q q') :
    X.Loose n (if b = true then p else q) (if b = true then p' else q') := by
  cases b with
  | true => exact hp
  | false => exact hq

theorem Tight.ite (hp : X.Tight n p p') (hq : X.Tight n q q') :
    X.Tight n (if b = true then p else q) (if b = true then p' else q') := by
  cases b with
  | true => exact hp
  | false => exact hq

end

/-! ## Single tokens

Where the end is not in sight of the first reading alone, both see the same next token. -/

/-- The first reading is at its end only if the second one is at its end as well. -/
def Inside (X : Sequel) (s : State) : Prop := s.rest = [] → X.more = []

theorem inside_or_atEnd (X : Sequel) (s : State) : X.Inside s ∨ s.rest = [] ∧ X.more ≠ [] := by
  by_cases hrest : s.rest = []
  · by_cases hmore : X.more = []
    · exact .inl fun _ => hmore
    · exact .inr ⟨hrest, hmore⟩
  · exact .inl fun hnil => absurd hnil hrest

theorem Loose.of_inside (hp : Proceeds p)
    (h : ∀ s, X.Fits s → s.rest.length ≤ n → X.Inside s → X.Loosely (p s) (p' (X.state s))) :
    X.Loose n p p' where
  proceeds := hp
  follows s hs hn := by
    rcases X.inside_or_atEnd s with hin | ⟨hrest, hmore⟩
    · exact h s hs hn hin
    · exact .atEnd hp hrest hmore _

theorem Closed.of_inside (hp : Progresses p)
    (h : ∀ s, X.Fits s → s.rest.length ≤ n → X.Inside s → X.Tightly (p s) (p' (X.state s))) :
    X.Closed n p p' where
  progresses := hp
  follows s hs hn := by
    rcases X.inside_or_atEnd s with hin | ⟨hrest, hmore⟩
    · exact h s hs hn hin
    · exact .atEnd hp hrest hmore _

theorem Inside.peek (hs : X.Fits s) (h : X.Inside s) : (X.state s).peek = s.peek := by
  unfold State.peek Sequel.state
  cases hrest : s.rest with
  | nil => simp [h hrest, hs.endLine (h hrest)]
  | cons t ts => rfl

theorem Inside.head? (h : X.Inside s) : (X.state s).rest.head? = s.rest.head? := by
  cases hrest : s.rest with
  | nil => simp [Sequel.state, hrest, h hrest]
  | cons t ts => simp [Sequel.state, hrest]

theorem fail_closed {fault : SyntaxFault} : X.Closed n (fail fault : Parser α) (fail fault) :=
  .of_inside fail_progresses fun s hs _ hin => by
    rw [fail, fail, hin.peek hs]
    exact .inr rfl

theorem nextIs_loose {symbol : Symbol} : X.Loose n (nextIs symbol) (nextIs symbol) :=
  .of_inside nextIs_proceeds fun s _ _ hin => by
    rw [nextIs, nextIs, hin.head?]
    exact .inr (.inr rfl)

theorem atEnd_loose : X.Loose n atEnd atEnd :=
  .of_inside atEnd_proceeds fun s _ _ hin => by
    have hempty : (X.state s).rest.isEmpty = s.rest.isEmpty := by
      cases hrest : s.rest with
      | nil => simp [Sequel.state, hrest, hin hrest]
      | cons t ts => simp [Sequel.state, hrest]
    rw [Parser.atEnd, Parser.atEnd, hempty]
    exact .inr (.inr rfl)

theorem report_tight {t : Token} {fault : SyntaxFault} :
    X.Tight n (report t fault) (report t fault) :=
  ⟨report_proceeds, fun s _ _ => .inr (by simp [report, Sequel.state, Sequel.result])⟩

theorem reference_tight {name : Token} : X.Tight n (reference name) (reference name) :=
  ⟨reference_proceeds, fun _ _ _ => .inr rfl⟩

theorem reportExcess_loose {count : Nat} {fault : SyntaxFault} :
    X.Loose n (reportExcess count fault) (reportExcess count fault) :=
  .of_inside reportExcess_proceeds fun s hs hn hin => by
    unfold reportExcess
    rw [hin.peek hs]
    split
    · exact report_tight.loose.follows s hs hn
    · exact .inr (.inr rfl)

/-- Inside of the tokens, both readings take the same token or none. -/
theorem Inside.take? {accepts : Token.Kind → Bool} (h : X.Inside s) :
    Parser.take? accepts (X.state s) = X.result (Parser.take? accepts s) := by
  unfold Parser.take?
  cases hrest : s.rest with
  | nil => simp [Sequel.state, Sequel.result, hrest, h hrest]
  | cons t ts =>
      simp only [Sequel.state, hrest, List.cons_append]
      split <;> simp [Sequel.result, Sequel.state, hrest]

theorem take?_loose {accepts : Token.Kind → Bool} :
    X.Loose n (Parser.take? accepts) (Parser.take? accepts) :=
  .of_inside take?_proceeds fun _ _ _ hin => .inr (.inr hin.take?)

section

variable {m : Nat} {accepts : Token.Kind → Bool} {g g' : Option Token → Parser β}

/-- Once a token is taken, there are fewer left. -/
theorem Loose.take? (hsome : ∀ t, X.Loose m (g (some t)) (g' (some t)))
    (hnone : X.Loose n (g none) (g' none)) (hm : n ≤ m + 1) :
    X.Loose n (Parser.take? accepts >>= g) (Parser.take? accepts >>= g') := by
  have hproceeds : ∀ o, Proceeds (g o) :=
    Option.forall.mpr ⟨hnone.proceeds, fun t => (hsome t).proceeds⟩
  refine .of_inside (take?_proceeds.bind hproceeds) fun s hs hn hin => ?_
  refine Loosely.bind (.inr (.inr hin.take?)) hproceeds fun o s₁ h₁ => ?_
  have hs₁ := hs.later (take?_proceeds.ok h₁)
  rcases take?_cases h₁ with ⟨t, ts, hrest, rfl, rfl⟩ | ⟨rfl, rfl⟩
  · rw [hrest, List.length_cons] at hn
    exact (hsome t).follows _ hs₁ (Nat.le_of_succ_le_succ (Nat.le_trans hn hm))
  · exact hnone.follows _ hs₁ hn

theorem Closed.take? (hsome : ∀ t, X.Tight m (g (some t)) (g' (some t)))
    (hnone : X.Closed n (g none) (g' none)) (hm : n ≤ m + 1) :
    X.Closed n (Parser.take? accepts >>= g) (Parser.take? accepts >>= g') := by
  have hproceeds : ∀ o, Proceeds (g o) :=
    Option.forall.mpr ⟨hnone.tight.proceeds, fun t => (hsome t).proceeds⟩
  refine .of_inside (take?_progresses (fun t => (hsome t).proceeds) hnone.progresses)
    fun s hs hn hin => ?_
  refine Tightly.bind (.inr hin.take?) hproceeds fun o s₁ h₁ => ?_
  have hs₁ := hs.later (take?_proceeds.ok h₁)
  rcases take?_cases h₁ with ⟨t, ts, hrest, rfl, rfl⟩ | ⟨rfl, rfl⟩
  · rw [hrest, List.length_cons] at hn
    exact (hsome t).follows _ hs₁ (Nat.le_of_succ_le_succ (Nat.le_trans hn hm))
  · exact hnone.follows _ hs₁ hn

end

theorem expect_closed {symbol : Symbol} {spot : Spot} :
    X.Closed n (expect symbol spot) (expect symbol spot) :=
  .take? (fun t => .pure t) fail_closed (Nat.le_succ n)

theorem expectName_closed {role : NameRole} : X.Closed n (expectName role) (expectName role) :=
  .take? (fun t => .pure t) fail_closed (Nat.le_succ n)

theorem accept_loose {symbol : Symbol} : X.Loose n (accept symbol) (accept symbol) :=
  take?_loose.bind fun _ => .pure _

theorem acceptWord_loose {keyword : Keyword} :
    X.Loose n (acceptWord keyword) (acceptWord keyword) :=
  take?_loose.bind fun _ => .pure _

section

variable {accepts : Token.Kind → Bool} {q q' : Parser α}

theorem accepting_eq (p q : Parser α) :
    ((do return (← Parser.take? accepts).isSome) >>= fun b => if b = true then p else q)
      = Parser.take? accepts >>= fun o => if o.isSome = true then p else q := by
  rw [bind_assoc]
  rfl

/-- A reader that asks whether a token is there. -/
theorem Loose.accepting (hp : X.Loose n p p') (hq : X.Loose (n + 1) q q') :
    X.Loose (n + 1) ((do return (← Parser.take? accepts).isSome) >>= fun b => if b = true then p else q)
      ((do return (← Parser.take? accepts).isSome) >>= fun b => if b = true then p' else q') := by
  rw [accepting_eq, accepting_eq]
  exact .take? (fun _ => hp) hq (Nat.le_refl _)

theorem Closed.accepting (hp : X.Tight n p p') (hq : X.Closed (n + 1) q q') :
    X.Closed (n + 1) ((do return (← Parser.take? accepts).isSome) >>= fun b => if b = true then p else q)
      ((do return (← Parser.take? accepts).isSome) >>= fun b => if b = true then p' else q') := by
  rw [accepting_eq, accepting_eq]
  exact .take? (fun _ => hp) hq (Nat.le_refl _)

end

end Sequel

end Lox.Parser
