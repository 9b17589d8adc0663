import Lox.Proofs.Parsing
import Lox.Proofs.Recovery.Rules
import Mathlib.Data.List.TakeWhile

/-!
# What follows a fault is read as if nothing had happened

Two inputs are put one after the other. If the first one is read well, or if it is closed by a semicolon and
no fault is at its end, then the whole is read as the first input and then as the second one. The faults are
those of both, and so are the statements and the numbers of references. The only token that could change
how the first input ends is `else`.

The reading of the whole is compared twice. As long as tokens of the first input are left, it is the reading
of the first input with more tokens behind. After that it is the reading of the second input, with the faults
of the first one recorded before.
-/

namespace Lox

namespace Parser

/-! ## Outcomes one after the other -/

section

variable {α : Type}

def Outcome.faults (o : Outcome α) : List Diagnostic :=
  match o.result with
  | .ok _ => []
  | .error ds => ds

/-- The trees of two inputs if there are no faults, and else the faults of both. -/
def Outcome.followedBy (first second : Outcome (List α)) : Outcome (List α) where
  result :=
    match first.result, second.result with
    | .ok P, .ok Q => .ok (P ++ Q)
    | .ok _, .error ds => .error ds
    | .error ds, .ok _ => .error ds
    | .error ds, .error es => .error (ds ++ es)
  nextId := second.nextId

theorem Outcome.followedBy_nil (o : Outcome (List α)) : o.followedBy ⟨.ok [], o.nextId⟩ = o := by
  obtain ⟨result, nextId⟩ := o
  cases result with
  | ok P => simp [followedBy]
  | error ds => rfl

theorem faults_outcome (tree : α) (s : State) :
    (outcome (.ok tree s)).faults = s.faults.toList := by
  obtain ⟨rest, endLine, nextId, faults⟩ := s
  by_cases h : faults = #[] <;> simp [outcome, Outcome.faults, h]

theorem outcome_followedBy (P Q : List α) (s : State) {s₁ s₂ : State}
    (hid : s.nextId = s₂.nextId) (hfaults : s.faults = s₁.faults ++ s₂.faults) :
    outcome (.ok (P ++ Q) s) = (outcome (.ok P s₁)).followedBy (outcome (.ok Q s₂)) := by
  by_cases h₁ : s₁.faults = #[] <;> by_cases h₂ : s₂.faults = #[] <;>
    simp [outcome, Outcome.followedBy, hid, hfaults, h₁, h₂]

end

/-! ## Declarations up to the end -/

section

variable {declaration : Parser (Option Stmt)} {s s₁ : State}

theorem nextDeclaration_declines : Declines (nextDeclaration declaration) := by
  intro taken s hs
  have hatEnd : atEnd s = .ok true s := by
    rw [atEnd, hs]
    rfl
  exact bind_ok hatEnd

theorem nextDeclaration_ok {o : Option Stmt} (hs : s.rest ≠ []) (h : declaration s = .ok o s₁)
    (taken : List Stmt) :
    nextDeclaration declaration taken s = .ok (some (o.toList ++ taken)) s₁ := by
  have hatEnd : atEnd s = .ok false s := by
    rw [atEnd, List.isEmpty_eq_false_iff.mpr hs]
  exact (bind_ok hatEnd).trans (bind_ok h)

theorem nextDeclaration_proceeds (h : Proceeds declaration) (taken : List Stmt) :
    Proceeds (nextDeclaration declaration taken) :=
  atEnd_proceeds.bind fun _ => .ite (.pure _) (h.bind fun _ => .pure _)

theorem rounds_next {o : Option Stmt} (hs : s.rest ≠ []) (h : declaration s = .ok o s₁)
    (b : Nat) (taken : List Stmt) :
    rounds (nextDeclaration declaration) (b + 1) taken s
      = rounds (nextDeclaration declaration) b (o.toList ++ taken) s₁ :=
  bind_ok (nextDeclaration_ok hs h taken)

end

/-- Faults do not leave a declaration. -/
theorem declaration_ok (b : Nat) (s : State) : ∃ o s₁, declaration b s = .ok o s₁ := by
  rw [declaration_eq]
  unfold recovering
  cases declarationAt b s with
  | ok stmt s₁ => exact ⟨_, _, rfl⟩
  | error d s₁ => exact ⟨_, _, rfl⟩

namespace Sequel

variable {X : Sequel} {n : Nat} {declaration declaration' : Parser (Option Stmt)}

/-- The tokens are read up to their end, and then the larger reading goes on with what is behind them, unless
a fault is lost. By induction on the first bound: each declaration leaves fewer tokens. -/
theorem Lasting.declarations (h : X.Lasting n declaration declaration')
    (hok : ∀ s, ∃ o s₁, declaration s = .ok o s₁) (base : List Stmt) :
    ∀ {b b' : Nat} {s : State} (taken : List Stmt), X.Fits s → s.rest.length ≤ n →
      X.Bounds s.rest.length b b' →
      ∃ taken' s', rounds (nextDeclaration declaration) b taken s = .ok taken' s' ∧ s'.rest = [] ∧
        ((∃ d ∈ s'.faults, X.Lost d) ∨ ∃ b'', X.more.length ≤ b'' ∧
          rounds (nextDeclaration declaration') b' (taken ++ base) (X.state s)
            = rounds (nextDeclaration declaration') b'' (taken' ++ base) (X.state s')) := by
  have hend : ∀ {b b' : Nat} {s : State} (taken : List Stmt), s.rest = [] →
      X.Bounds s.rest.length b b' →
      ∃ taken' s', rounds (nextDeclaration declaration) b taken s = .ok taken' s' ∧ s'.rest = [] ∧
        ((∃ d ∈ s'.faults, X.Lost d) ∨ ∃ b'', X.more.length ≤ b'' ∧
          rounds (nextDeclaration declaration') b' (taken ++ base) (X.state s)
            = rounds (nextDeclaration declaration') b'' (taken' ++ base) (X.state s')) := by
    intro b b' s taken hs hb
    refine ⟨taken, s, nextDeclaration_declines.rounds hs taken b, hs, .inr ⟨b', ?_, rfl⟩⟩
    exact Nat.le_trans (Nat.le_add_left _ _) hb.within
  intro b
  induction b with
  | zero =>
      intro b' s taken _ _ hb
      exact hend taken (List.length_eq_zero_iff.mp (Nat.le_zero.mp hb.alone)) hb
  | succ b ih =>
      intro b' s taken hs hn hb
      by_cases hrest : s.rest = []
      · exact hend taken hrest hb
      obtain ⟨o, s₁, h₁⟩ := hok s
      have hlt := h.shorter o s s₁ h₁ hrest
      have hbounds : X.Bounds s₁.rest.length b (b' - 1) := by
        obtain ⟨halone, hwithin⟩ := hb
        exact ⟨by omega, by omega⟩
      obtain ⟨taken', s', hrun, hrest', hfollows⟩ := ih (o.toList ++ taken)
        (hs.later (h.proceeds.ok h₁)) (Nat.le_trans (Nat.le_of_lt hlt) hn) hbounds
      refine ⟨taken', s', (rounds_next hrest h₁ b taken).trans hrun, hrest', ?_⟩
      rcases h.follows s hs hn with hspoilt | hsame
      · rw [h₁] at hspoilt
        obtain ⟨d, hd, hlost⟩ := hspoilt
        have hprecedes := (Proceeds.rounds (nextDeclaration_proceeds h.proceeds) b _).ok hrun
        exact .inl ⟨d, hprecedes.faults d hd, hlost⟩
      · refine hfollows.imp_right fun ⟨b'', hb'', hgoes⟩ => ⟨b'', hb'', ?_⟩
        rw [h₁] at hsame
        have hrest₁ : (X.state s).rest ≠ [] := List.append_ne_nil_of_left_ne_nil hrest _
        have hb' : b' = b' - 1 + 1 := by
          have := hb.within
          have := List.length_pos_iff.mpr hrest
          omega
        rw [hb', rounds_next hrest₁ hsame, ← List.append_assoc, hgoes]

end Sequel

/-! ## Whole programs -/

/-- What becomes of tokens that are read as a program. -/
def outcomeOf (tokens : List Token) (endLine k : Nat) : Outcome (List Stmt) :=
  outcome (program tokens.length ⟨tokens, endLine, k, #[]⟩)

/-- Nothing is behind the tokens, and they are read after others that left these faults. -/
def Sequel.last (endLine : Nat) (earlier : Array Diagnostic) : Sequel where
  more := []
  endLine := endLine
  earlier := earlier
  Lost _ := False
  lost_atEnd h := absurd rfl h
  noElse := by simp

/-- Reading goes on after other tokens as it starts. -/
theorem program_after (tokens : List Token) (endLine k : Nat) (earlier : Array Diagnostic)
    (base : List Stmt) {m b : Nat} (hm : tokens.length ≤ m) (hb : tokens.length ≤ b) :
    ∃ taken s,
      program tokens.length ⟨tokens, endLine, k, #[]⟩ = .ok taken.reverse s ∧
      rounds (nextDeclaration (declaration m)) b base ⟨tokens, endLine, k, earlier⟩
        = .ok (taken ++ base) ((Sequel.last endLine earlier).state s) := by
  let X := Sequel.last endLine earlier
  let start : State := ⟨tokens, endLine, k, #[]⟩
  have hfits : X.Fits start := ⟨fun _ => rfl, fun h => absurd rfl h⟩
  have hlasting := (Sequel.rules (X := X) ⟨Nat.le_refl _, hm⟩).lasting
  have hbounds : X.Bounds tokens.length tokens.length b := ⟨Nat.le_refl _, hb⟩
  obtain ⟨taken, s, hrun, hrest, ⟨d, -, hlost⟩ | ⟨b'', -, hgoes⟩⟩ :=
    hlasting.declarations (declaration_ok _) base [] hfits (Nat.le_refl _) hbounds
  · exact hlost.elim
  refine ⟨taken, s, ?_, ?_⟩
  · rw [program_eq]
    exact bind_ok hrun
  · have hstart : X.state start = ⟨tokens, endLine, k, earlier⟩ := by
      simp [X, start, Sequel.state, Sequel.last]
    have hnone : (X.state s).rest = [] := by
      simp [X, Sequel.state, Sequel.last, hrest]
    rw [hstart, nextDeclaration_declines.rounds hnone] at hgoes
    exact hgoes

/-- The tokens are read on their own, and so are those behind them, unless a fault is lost. -/
theorem Sequel.outcomeOf_append (X : Sequel) (hfirst : X.earlier = #[]) {tokens : List Token}
    {endLine k : Nat} (hfits : X.Fits ⟨tokens, endLine, k, #[]⟩)
    (hkept : ∀ d ∈ (outcomeOf tokens endLine k).faults, ¬ X.Lost d) :
    outcomeOf (tokens ++ X.more) X.endLine k = (outcomeOf tokens endLine k).followedBy
      (outcomeOf X.more X.endLine (outcomeOf tokens endLine k).nextId) := by
  let start : State := ⟨tokens, endLine, k, #[]⟩
  have hwithin : tokens.length + X.more.length ≤ (tokens ++ X.more).length :=
    Nat.le_of_eq List.length_append.symm
  have hlasting := (rules (X := X) ⟨Nat.le_refl tokens.length, hwithin⟩).lasting
  obtain ⟨taken₁, s₁, hrun₁, hrest₁, hfollows⟩ :=
    hlasting.declarations (declaration_ok _) [] [] hfits (Nat.le_refl _) ⟨Nat.le_refl _, hwithin⟩
  have hread₁ : outcomeOf tokens endLine k = outcome (.ok taken₁.reverse s₁) := by
    rw [outcomeOf, program_eq]
    exact congrArg outcome (bind_ok hrun₁)
  rw [hread₁, faults_outcome] at hkept
  obtain ⟨b, hb, hgoes⟩ := hfollows.resolve_left fun ⟨d, hd, hlost⟩ =>
    hkept d (Array.mem_toList_iff.mpr hd) hlost
  -- there the larger reading goes on with what is behind the tokens
  have hstart : X.state start = ⟨tokens ++ X.more, X.endLine, k, #[]⟩ := by
    simp [start, state, hfirst]
  have hbehind : X.state s₁ = ⟨X.more, X.endLine, s₁.nextId, s₁.faults⟩ := by
    simp [state, hfirst, hrest₁]
  obtain ⟨taken₂, s₂, hrun₂, hwhole⟩ := program_after X.more X.endLine s₁.nextId s₁.faults taken₁
    (Nat.le_trans (Nat.le_add_left _ _) hwithin) hb
  have hread : outcomeOf (tokens ++ X.more) X.endLine k = outcome
      (.ok (taken₁.reverse ++ taken₂.reverse) ((Sequel.last X.endLine s₁.faults).state s₂)) := by
    rw [outcomeOf, program_eq, ← hstart, ← List.reverse_append]
    refine congrArg outcome (bind_ok ?_)
    rw [← hwhole, ← hbehind]
    simpa using hgoes
  have hread₂ : outcomeOf X.more X.endLine s₁.nextId = outcome (.ok taken₂.reverse s₂) := by
    rw [outcomeOf, hrun₂]
  have hid : (outcome (.ok taken₁.reverse s₁)).nextId = s₁.nextId := rfl
  rw [hread₁, hid, hread₂, hread]
  exact outcome_followedBy _ _ _ rfl rfl

/-- The tokens are read well, or a semicolon closes them and no fault is at their end. -/
def Outcome.Settles (o : Outcome (List Stmt)) (tokens : List Token) : Prop :=
  (∃ P, o.result = .ok P) ∨
    (∃ t, tokens.getLast? = some t ∧ t.kind = .symbol .semicolon) ∧ ∀ d ∈ o.faults, d.place ≠ .atEnd

theorem outcomeOf_append {S₁ S₂ : List Token} {l₁ l₂ k : Nat}
    (helse : ∀ t ∈ S₂.head?, t.kind ≠ .keyword .elseWord)
    (hsettles : (outcomeOf S₁ l₁ k).Settles S₁) (hnil : S₂ ≠ []) :
    outcomeOf (S₁ ++ S₂) l₂ k = (outcomeOf S₁ l₁ k).followedBy
      (outcomeOf S₂ l₂ (outcomeOf S₁ l₁ k).nextId) := by
  rcases hsettles with ⟨P, hP⟩ | ⟨⟨t, hlast, ht⟩, hinside⟩
  · -- no fault is met, so any fault may be taken for lost
    refine Sequel.outcomeOf_append
      { more := S₂, endLine := l₂, earlier := #[], Lost := fun _ => True
        lost_atEnd := fun _ _ _ => trivial, noElse := helse }
      rfl ⟨fun h => absurd h hnil, fun _ => .inl fun _ => trivial⟩ ?_
    simp [Outcome.faults, hP]
  · refine Sequel.outcomeOf_append
      { more := S₂, endLine := l₂, earlier := #[], Lost := fun d => d.place = .atEnd
        lost_atEnd := fun _ _ h => h, noElse := helse }
      rfl ⟨fun h => absurd h hnil, fun _ => .inr fun t' ht' => ?_⟩ hinside
    cases hlast.symm.trans ht'
    exact ht

/-- The line on which tokens without an end token end. -/
def lastLine (tokens : List Token) : Nat :=
  match tokens.getLast? with
  | some last => last.line
  | none => 1

theorem lastLine_append {S₂ : List Token} (hnil : S₂ ≠ []) (S₁ : List Token) :
    lastLine (S₁ ++ S₂) = lastLine S₂ := by
  rw [lastLine, lastLine, List.getLast?_append, List.getLast?_eq_some_getLast hnil]
  rfl

theorem outcomeOf_nil (endLine k : Nat) : outcomeOf [] endLine k = ⟨.ok [], k⟩ := rfl

theorem ofTokens_of_none {tokens : List Token} (h : ∀ t ∈ tokens, t.kind ≠ .eof) (k : Nat) :
    State.ofTokens tokens k = ⟨tokens, lastLine tokens, k, #[]⟩ := by
  have htake : tokens.takeWhile (fun t => decide (t.kind ≠ .eof)) = tokens :=
    List.takeWhile_eq_self_iff.mpr fun t ht => decide_eq_true (h t ht)
  have hfind : tokens.find? (fun t => decide (t.kind = .eof)) = none :=
    List.find?_eq_none.mpr fun t ht => by simpa using h t ht
  unfold State.ofTokens lastLine
  rw [htake, hfind]
  cases tokens.getLast? <;> rfl

theorem parseProgram_eq {tokens : List Token} (h : ∀ t ∈ tokens, t.kind ≠ .eof) (k : Nat) :
    parseProgram tokens k = outcomeOf tokens (lastLine tokens) k := by
  unfold parseProgram Parser.run
  rw [ofTokens_of_none h]
  rfl

end Parser

/-- **Recovery is compositional.** Let the first tokens be read well, or be closed by a semicolon without a
fault at their end. If tokens follow that do not start with `else`, then both are read as they are read on
their own, the second ones with the numbers of references that the first ones leave. The faults are those
of the first tokens and then those of the second ones. If there are none, the statements are those of the
first tokens and then those of the second ones. -/
theorem parseProgram_followedBy {S₁ S₂ : List Token} (h₁ : ∀ t ∈ S₁, t.kind ≠ .eof)
    (h₂ : ∀ t ∈ S₂, t.kind ≠ .eof) (helse : ∀ t ∈ S₂.head?, t.kind ≠ .keyword .elseWord) {k : Nat}
    (hsettles : (parseProgram S₁ k).Settles S₁) :
    parseProgram (S₁ ++ S₂) k = (parseProgram S₁ k).followedBy
      (parseProgram S₂ (parseProgram S₁ k).nextId) := by
  by_cases hnil : S₂ = []
  · subst hnil
    rw [List.append_nil, Parser.parseProgram_eq h₂, Parser.outcomeOf_nil,
      Parser.Outcome.followedBy_nil]
  have hwhole : ∀ t ∈ S₁ ++ S₂, t.kind ≠ .eof := fun t ht =>
    (List.mem_append.mp ht).elim (h₁ t) (h₂ t)
  rw [Parser.parseProgram_eq h₁] at hsettles
  rw [Parser.parseProgram_eq h₁, Parser.parseProgram_eq h₂, Parser.parseProgram_eq hwhole,
    Parser.lastLine_append hnil]
  exact Parser.outcomeOf_append helse hsettles hnil

/-- In `{ print a + ; } ;` two faults are found, and none of them hides the one in `print b = ;`. -/
theorem parseProgram_followedBy_nested :
    let word (k : Keyword) (line : Nat) : Token := ⟨.keyword k, k.spelling, line⟩
    let symbol (s : Symbol) (line : Nat) : Token := ⟨.symbol s, s.spelling, line⟩
    let name (lexeme : String) (line : Nat) : Token := ⟨.identifier, lexeme, line⟩
    let fault (line : Nat) : Diagnostic := ⟨line, .atLexeme ";", .syntactic .expectExpression⟩
    parseProgram
      ([symbol .leftBrace 1, word .printWord 2, name "a" 2, symbol .plus 2, symbol .semicolon 2,
        symbol .rightBrace 3, symbol .semicolon 3] ++
        [word .printWord 4, name "b" 4, symbol .equal 4, symbol .semicolon 4]) 0
      = ⟨.error [fault 2, fault 3, fault 4], 2⟩ := by
  intro word symbol name fault
  refine (parseProgram_followedBy (by simp [word, symbol, name]) (by simp [word, symbol, name])
    (by simp [word]) (.inr ⟨⟨_, rfl, rfl⟩, ?_⟩)).trans (by cbv)
  have hfaults : (parseProgram [symbol .leftBrace 1, word .printWord 2, name "a" 2,
      symbol .plus 2, symbol .semicolon 2, symbol .rightBrace 3, symbol .semicolon 3] 0).faults
      = [fault 2, fault 3] := by
    cbv
  rw [hfaults]
  simp [fault]

end Lox
