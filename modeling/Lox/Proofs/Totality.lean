import Lox.Proofs.Totality.Bounds

/-!
# The parser answers to any tokens

Nothing is asked of the tokens here: there may be no end token, or one with others behind it, and a token may
have a text that does not go with its kind. Whatever they are, reading comes to an end within them, and what
it comes to is a tree or else the faults that were recorded on the way.
-/

namespace Lox

namespace Parser

variable {α : Type}

/-! ## Faults that are recorded -/

section

variable {p : Parser α} {s s' : State}

/-- What was recorded on the way is what is recorded in the end. -/
theorem records_of_ok (hp : Built p) {a : α} (h : p s = .ok a s') (d : Diagnostic) :
    Records p s d ↔ d ∈ s'.faults := by
  have hfinal : final (p s) = s' := by rw [h, final]
  constructor
  · rintro (⟨v, hv, hd⟩ | ⟨s₁, herror⟩)
    · exact hfinal ▸ (hv.between hp).2.faults d hd
    · exact nomatch h.symm.trans herror
  · exact fun hd => .inl ⟨s', hfinal ▸ .last p s, hd⟩

theorem records_of_error (hp : Built p) {d' : Diagnostic} (h : p s = .error d' s')
    (d : Diagnostic) : Records p s d ↔ d ∈ s'.faults ∨ d = d' := by
  have hfinal : final (p s) = s' := by rw [h, final]
  constructor
  · rintro (⟨v, hv, hd⟩ | ⟨s₁, herror⟩)
    · exact .inl (hfinal ▸ (hv.between hp).2.faults d hd)
    · cases h.symm.trans herror
      exact .inr rfl
  · rintro (hd | rfl)
    · exact .inl ⟨s', hfinal ▸ .last p s, hd⟩
    · exact .inr ⟨s', h⟩

/-- There is a tree exactly if no fault was recorded, and else the faults are those that were. -/
theorem outcome_of_records (hp : Built p) :
    ((∃ tree, (outcome (p s)).result = .ok tree) ↔ ∀ d, ¬ Records p s d) ∧
    ∀ ds, (outcome (p s)).result = .error ds → ∀ d, d ∈ ds ↔ Records p s d := by
  cases h : p s with
  | error d' s' =>
      refine ⟨⟨?_, fun hnone => ?_⟩, fun ds hds d => ?_⟩
      · rintro ⟨tree, htree⟩
        cases htree
      · exact absurd (.inr ⟨s', h⟩) (hnone d')
      · cases hds
        rw [records_of_error hp h, Array.mem_toList_iff, Array.mem_push]
  | ok tree s' =>
      by_cases hno : s'.faults = #[]
      · have hresult : (outcome (.ok tree s')).result = .ok tree := by simp [outcome, hno]
        refine ⟨⟨fun _ d hd => ?_, fun _ => ⟨tree, hresult⟩⟩, fun ds hds => ?_⟩
        · rw [records_of_ok hp h, hno] at hd
          exact absurd hd (Array.not_mem_empty d)
        · rw [hresult] at hds
          cases hds
      · -- what was read is given up for the faults on the way
        have hresult : (outcome (.ok tree s')).result = .error s'.faults.toList := by
          simp [outcome, hno]
        rw [hresult]
        refine ⟨⟨?_, fun hnone => ?_⟩, fun ds hds d => ?_⟩
        · rintro ⟨tree, htree⟩
          cases htree
        · obtain ⟨d, hd⟩ := Array.exists_mem_of_ne_empty _ hno
          exact absurd ((records_of_ok hp h d).mpr hd) (hnone d)
        · cases hds
          rw [records_of_ok hp h, Array.mem_toList_iff]

end

/-! ## Bounds -/

section

variable {b : Nat} {s : State}

/-- With more rounds and calls allowed, nothing else is read. -/
theorem program_bound (hb : s.rest.length ≤ b) : program b s = program s.rest.length s := by
  refine Sequel.Loose.same (n := s.rest.length) (fun l => ?_) (Nat.le_refl _)
  have hbounds : (Sequel.last l #[]).Bounds s.rest.length s.rest.length b := ⟨Nat.le_refl _, hb⟩
  have hdeclaration := (Sequel.rules hbounds).lasting.toTight.loose
  refine (Sequel.Loose.rounds hbounds (nextDeclaration_paced _) nextDeclaration_declines
    nextDeclaration_declines (fun taken => ?_) []).bind fun _ => .pure _
  exact Sequel.atEnd_loose.bind fun _ => .ite (.pure _) (hdeclaration.bind fun _ => .pure _)

theorem wholeExpression_bound (hb : s.rest.length ≤ b) :
    wholeExpression b s = wholeExpression s.rest.length s := by
  refine Sequel.Loose.same (n := s.rest.length) (fun l => ?_) (Nat.le_refl _)
  have hbounds : (Sequel.last l #[]).Bounds s.rest.length s.rest.length b := ⟨Nat.le_refl _, hb⟩
  exact (Sequel.expression_loose hbounds).bind fun _ => Sequel.atEnd_loose.bind fun _ =>
    .ite (.pure _) Sequel.fail_closed.loose

end

/-! ## Whole inputs -/

/-- Calls inside of each other and loops come to an end. Whatever is read `deeper` than there are tokens, the
rules of the grammar do the same, and so they do with more rounds allowed. Each round of a loop ends it,
fails, or takes a token. -/
structure Halts : Prop where
  expressions : ∀ (deeper : Parser Expr) (n b : Nat) (s : State), s.rest.length < n →
    s.rest.length ≤ b → expressionOver^[n] deeper s = expression b s
  statements : ∀ (deeper : Statements) (n b : Nat) (s : State), s.rest.length < n →
    s.rest.length ≤ b → (statementsOver^[n] deeper).statement s = statement b s ∧
      (statementsOver^[n] deeper).declaration s = declaration b s
  topLevel : ∀ b, program b = (do
      let reversed ← rounds (nextDeclaration (declaration b)) b []
      return reversed.reverse) ∧
    ∀ m taken s, s.rest.length ≤ b →
      Loops (nextDeclaration (declaration m)) taken s
        (rounds (nextDeclaration (declaration m)) b taken s)
  blocks : ∀ b m, block b (declaration m) = (do
      let reversed ← rounds (nextInBlock (declaration m)) b []
      let _ ← expect .rightBrace .afterBlock
      return reversed.reverse) ∧
    ∀ taken s, s.rest.length ≤ b →
      Loops (nextInBlock (declaration m)) taken s (rounds (nextInBlock (declaration m)) b taken s)
  classBodies : ∀ b m, classDeclaration b (declaration m) = (do
      let name ← expectName .classDeclared
      let superclass ← superclassClause
      let _ ← expect .leftBrace .beforeClassBody
      let reversed ← rounds (nextMethod b (declaration m)) b []
      let _ ← expect .rightBrace .afterClassBody
      return .classDecl name superclass reversed.reverse) ∧
    ∀ taken s, s.rest.length ≤ b →
      Loops (nextMethod b (declaration m)) taken s (rounds (nextMethod b (declaration m)) b taken s)
  parameters : ∀ b, separated b (expectName .parameter) .tooManyParameters = (do
      let first ← expectName .parameter
      let reversed ← rounds (nextItem (expectName .parameter) .tooManyParameters) b [first]
      return reversed.reverse) ∧
    Progresses (expectName .parameter) ∧
    ∀ taken s, s.rest.length ≤ b →
      Loops (nextItem (expectName .parameter) .tooManyParameters) taken s
        (rounds (nextItem (expectName .parameter) .tooManyParameters) b taken s)
  arguments : ∀ b m, separated b (expression m) .tooManyArguments = (do
      let first ← expression m
      let reversed ← rounds (nextItem (expression m) .tooManyArguments) b [first]
      return reversed.reverse) ∧
    Progresses (expression m) ∧
    ∀ taken s, s.rest.length ≤ b →
      Loops (nextItem (expression m) .tooManyArguments) taken s
        (rounds (nextItem (expression m) .tooManyArguments) b taken s)

theorem halts : Halts where
  expressions deeper n _ _ := expression_of_iterate deeper n
  statements deeper n _ _ := statements_of_iterate deeper n
  topLevel b := ⟨program_eq b, fun m taken _ hs => loops_declarations m taken hs⟩
  blocks b m := ⟨block_eq b (declaration m), fun taken _ hs => loops_block m taken hs⟩
  classBodies _ m := ⟨rfl, fun taken _ hs => loops_methods _ m taken hs⟩
  parameters _ := ⟨rfl, expectName_progresses, fun taken _ hs =>
    loops_items expectName_progresses.toProceeds _ taken hs⟩
  arguments _ m := ⟨rfl, expression_progresses m, fun taken _ hs =>
    loops_items (expression_progresses m).toProceeds _ taken hs⟩

/-- What a rule makes of any tokens, numbering references from `k`. -/
structure Total (rule : Nat → Parser α) (tokens : List Token) (k : Nat) : Prop where
  /-- The rule is put together from readers of single tokens. -/
  built : ∀ b, Built (rule b)
  /-- The bound on rounds and calls is large enough. -/
  bound : ∀ b, (State.ofTokens tokens k).rest.length ≤ b →
    rule b (State.ofTokens tokens k)
      = rule (State.ofTokens tokens k).rest.length (State.ofTokens tokens k)
  /-- Reading starts where the cursor does. -/
  start : (Cursor.start : Cursor tokens).Serves (State.ofTokens tokens k)
  /-- Each state on the way is at a place that the cursor gets to. None is behind the first end token, and
  no index is out of range. -/
  places : ∀ b v, Visits (rule b) (State.ofTokens tokens k) v →
    ∃ c : Cursor tokens, Cursor.start.Leads c ∧ c.current ≤ stop tokens ∧ c.Serves v
  /-- Tokens behind the first end token change nothing. -/
  upToEnd : ∀ tokens', upToEnd tokens' = upToEnd tokens → run rule tokens' k = run rule tokens k
  /-- There is a tree exactly if no fault was recorded. -/
  tree : (∃ tree, (run rule tokens k).result = .ok tree) ↔
    ∀ d, ¬ Records (rule (State.ofTokens tokens k).rest.length) (State.ofTokens tokens k) d
  /-- If there is none, then the faults are those that were recorded. -/
  faults : ∀ ds, (run rule tokens k).result = .error ds → ds ≠ [] ∧
    ∀ d, d ∈ ds ↔
      Records (rule (State.ofTokens tokens k).rest.length) (State.ofTokens tokens k) d

theorem run_eq (rule : Nat → Parser α) (tokens : List Token) (k : Nat) : run rule tokens k =
    outcome (rule (State.ofTokens tokens k).rest.length (State.ofTokens tokens k)) :=
  rfl

theorem total_of_built {rule : Nat → Parser α} (hbuilt : ∀ b, Built (rule b))
    (hbound : ∀ {b : Nat} {s : State}, s.rest.length ≤ b → rule b s = rule s.rest.length s)
    (tokens : List Token) (k : Nat) : Total rule tokens k where
  built := hbuilt
  bound _ hb := hbound hb
  start := Cursor.serves (State.at_start tokens k)
  places b v hv := by
    obtain ⟨i, -, hi⟩ := hv.exists_place (hbuilt b) (State.at_start tokens k)
    exact ⟨⟨i⟩, Cursor.leads_iff.mpr hi.le, hi.le, Cursor.serves hi⟩
  upToEnd tokens' h := by
    rw [run_eq, run_eq, ofTokens_of_upToEnd h]
  tree := (outcome_of_records (hbuilt _)).1
  faults ds hds := by
    have hrecorded := (outcome_of_records (hbuilt _)).2 ds hds
    refine ⟨?_, hrecorded⟩
    rintro rfl
    have hnone : ∀ d, ¬ Records (rule (State.ofTokens tokens k).rest.length)
        (State.ofTokens tokens k) d := fun d hd => List.not_mem_nil ((hrecorded d).mpr hd)
    obtain ⟨tree, htree⟩ := (outcome_of_records (hbuilt _)).1.mpr hnone
    cases htree.symm.trans hds

end Parser

/-- **The parser is total.** Its calls and its loops come to an end for any tokens. Whatever the tokens are,
and from whichever number references are counted, the cursor is never behind the first end token: it finds
all tokens that it looks at, and those behind that token have no influence. What is read is a tree exactly if
no fault was recorded, and else the faults that were. -/
theorem parser_total (tokens : List Token) (k : Nat) :
    Parser.Halts ∧ Parser.Total Parser.program tokens k ∧
      Parser.Total Parser.wholeExpression tokens k :=
  ⟨Parser.halts, Parser.total_of_built .program Parser.program_bound tokens k,
    Parser.total_of_built .wholeExpression Parser.wholeExpression_bound tokens k⟩

end Lox
