import Lox.Proofs.Recovery

/-!
# Statements without their semicolon

If the semicolon of a statement is missing, the fault is found at the token behind the statement. Recovery
drops this token, whatever it is, and looks for a boundary only behind it. Where the token is the first word
of the next statement, this word is lost, and the rest of that statement is dropped up to its semicolon, or up
to a word in it that starts a statement. What is wrong with the dropped tokens is not reported. The tokens
behind them are read as they are read on their own.
-/

namespace Lox

/-- The fault where a statement lacks its semicolon, for those statements that end in one. -/
def Stmt.unclosedFault? : Stmt → Option SyntaxFault
  | .expression _ => some (.expectSymbol .semicolon .afterExpression)
  | .print _ => some (.expectSymbol .semicolon .afterPrinted)
  | .variableDecl _ _ => some (.expectSymbol .semicolon .afterVariable)
  | .giveBack _ (some _) => some (.expectSymbol .semicolon .afterReturned)
  -- without a semicolon there has to be a value
  | .giveBack _ none => some .expectExpression
  | _ => none

/-! ## What is left of a statement -/

namespace Grammar

/-- `Unclosed k ts fault k'`: the tokens are a statement but for its semicolon, and the fault is the one at
what stands in its place. -/
inductive Unclosed : Nat → List Token → SyntaxFault → Nat → Prop where
  | expression {k k' : Nat} {ts : List Token} {e : Expr} :
      Expression .assignment k ts e k' →
      Unclosed k ts (.expectSymbol .semicolon .afterExpression) k'
  | print {word : Token} {k k' : Nat} {ts : List Token} {e : Expr} :
      word.kind = .keyword .printWord → Expression .assignment k ts e k' →
      Unclosed k (word :: ts) (.expectSymbol .semicolon .afterPrinted) k'
  | varDecl {word name : Token} {k k' : Nat} {ts : List Token} {value : Option Expr} :
      word.kind = .keyword .varWord → name.kind = .identifier → Initializer k ts value k' →
      Unclosed k (word :: name :: ts) (.expectSymbol .semicolon .afterVariable) k'
  | giveBack {word : Token} {k k' : Nat} {ts : List Token} {e : Expr} :
      word.kind = .keyword .returnWord → Expression .assignment k ts e k' →
      Unclosed k (word :: ts) (.expectSymbol .semicolon .afterReturned) k'
  | giveNothingBack {word : Token} {k : Nat} :
      word.kind = .keyword .returnWord → Unclosed k [word] .expectExpression k

section

variable {k k' : Nat} {ts : List Token} {semicolon : Token} {s : Stmt} {fault : SyntaxFault}

theorem Statement.unclosed {isOpen : Bool} (h : Statement isOpen k (ts ++ [semicolon]) s k')
    (hfault : s.unclosedFault? = some fault) : Unclosed k ts fault k' := by
  generalize hts : ts ++ [semicolon] = all at h
  cases h with
  | expression h =>
      obtain ⟨he, -⟩ := h
      obtain ⟨rfl, -⟩ := List.append_inj' hts rfl
      cases hfault
      exact .expression he
  | @print word close _ _ ts' _ hword he =>
      have hcut : ts ++ [semicolon] = word :: ts' ++ [close] := hts
      obtain ⟨rfl, -⟩ := List.append_inj' hcut rfl
      cases hfault
      exact .print hword he
  | @giveBack word close _ _ ts' _ hword hvalue =>
      have hcut : ts ++ [semicolon] = word :: ts' ++ [close] := hts
      obtain ⟨rfl, -⟩ := List.append_inj' hcut rfl
      cases hvalue with
      | absent =>
          cases hfault
          exact .giveNothingBack hword
      | present he =>
          cases hfault
          exact .giveBack hword he
  | @forLoop _ _ _ _ _ _ _ _ _ _ _ _ _ _ start =>
      cases start <;> exact nomatch hfault
  | _ => exact nomatch hfault

theorem Declaration.unclosed (h : Declaration k (ts ++ [semicolon]) s k')
    (hfault : s.unclosedFault? = some fault) : Unclosed k ts fault k' := by
  generalize hts : ts ++ [semicolon] = all at h
  cases h with
  | classDecl => exact nomatch hfault
  | functionDecl => exact nomatch hfault
  | varDecl h =>
      cases h with
      | @mk word name close _ _ ts' _ hword hname hvalue =>
          have hcut : ts ++ [semicolon] = word :: name :: ts' ++ [close] := hts
          obtain ⟨rfl, -⟩ := List.append_inj' hcut rfl
          cases hfault
          exact .varDecl hword hname hvalue
  | statement h =>
      subst hts
      exact h.unclosed hfault

end

end Grammar

/-! ## The word behind it -/

namespace Parser

open Grammar

section

variable {α β : Type} {k k' : Nat} {input rest : List Token} {fault : SyntaxFault}

/-- Nothing is read after a fault. -/
theorem Leads.fail {p : Parser α} {f : α → Parser β} (h : Leads p k input (fail fault) k' rest) :
    Leads (p >>= f) k input (Parser.fail fault) k' rest :=
  h.bind_left

theorem expect_fails {symbol : Symbol} {spot : Spot}
    (h : ∀ t ∈ input.head?, t.kind ≠ .symbol symbol) :
    Leads (expect symbol spot) k input (fail (.expectSymbol symbol spot)) k input :=
  (take?_leaves (by simpa using h)).bind .refl

/-- Where the symbol is not here, there has to be an expression. -/
theorem expressionUnless_leads {symbol : Symbol} (h : ∀ t ∈ input.head?, t.kind ≠ .symbol symbol)
    (bound : Nat) : Leads (expressionUnless bound symbol) k input
      (expression bound >>= fun e => pure (some e)) k input := by
  refine nextIs_reads.bind ?_
  have hnot : (input.head?.any fun t => decide (t.kind = .symbol symbol)) = false := by
    cases hinput : input.head? with
    | none => rfl
    | some t => exact decide_eq_false (h t hinput)
  rw [hnot]
  exact .refl

variable {r : Token} (hr : Parser.startsStatement r = true)
include hr

theorem exists_word_of_startsStatement : ∃ word : Keyword, r.kind = .keyword word ∧
    word ∈ [.classWord, .funWord, .varWord, .forWord, .ifWord, .whileWord, .printWord, .returnWord] := by
  unfold Parser.startsStatement at hr
  split at hr
  case h_9 => exact nomatch hr
  all_goals next hkind => exact ⟨_, hkind, by decide⟩

/-- A word that starts a statement goes on with no expression. -/
theorem binding_of_startsStatement : binding r.kind = 0 := by
  obtain ⟨word, hkind, hword⟩ := exists_word_of_startsStatement hr
  rw [hkind]
  cases word <;> first | rfl | exact absurd hword (by decide)

theorem not_symbol_of_startsStatement (symbol : Symbol) :
    ∀ t ∈ (r :: rest).head?, t.kind ≠ .symbol symbol := by
  obtain ⟨word, hkind, -⟩ := exists_word_of_startsStatement hr
  intro t ht
  cases ht
  simp [hkind]

/-- A word that starts a statement starts no expression. -/
theorem expression_fails (bound : Nat) :
    Leads (expression bound) k (r :: rest) (fail .expectExpression) k (r :: rest) := by
  cases bound with
  | zero => exact .refl
  | succ bound =>
      obtain ⟨word, hkind, hword⟩ := exists_word_of_startsStatement hr
      have hnone : afterFirst (expression bound) r = none := by
        rw [afterFirst, hkind]
        cases word <;> first | rfl | exact absurd hword (by decide)
      have hprimary : Leads (primary (expression bound)) k (r :: rest) (fail .expectExpression) k
          (r :: rest) := by
        intro line faults
        rw [primary_cons rfl, hnone]
      have hcall : Leads (call (bound + 1) (expression bound)) k (r :: rest)
          (fail .expectExpression) k (r :: rest) := hprimary.fail
      have hoperator : Reads (nextOperator []) k (r :: rest) none k (r :: rest) := by
        refine (take?_leaves fun t ht => ?_).bind .refl
        cases ht
        simp [hkind, isUnaryOperator]
      have hunary : Leads (unary (bound + 1) (expression bound)) k (r :: rest)
          (fail .expectExpression) k (r :: rest) :=
        (rounds_stop hoperator).bind hcall.fail
      -- six chains of operators and then an assignment would go on behind it
      exact hunary.fail.fail.fail.fail.fail.fail.fail

end

section

variable {n k k' : Nat} {ts rest : List Token} {fault : SyntaxFault} {r : Token}
  {statement : Parser Stmt} {declaration : Parser (Option Stmt)}

/-- The fault is found at the word behind the statement. -/
theorem declarationRule_unclosed (h : Unclosed k ts fault k')
    (hr : Parser.startsStatement r = true) (hlen : (ts ++ r :: rest).length ≤ n + 1) :
    Leads (declarationRule (n + 1) statement declaration) k (ts ++ r :: rest) (fail fault) k'
      (r :: rest) := by
  have hstop : Stops .assignment (r :: rest) := .of_binding (binding_of_startsStatement hr)
  have hnot (symbol : Symbol) : ∀ t ∈ (r :: rest).head?, t.kind ≠ .symbol symbol :=
    not_symbol_of_startsStatement hr symbol
  cases h with
  | expression he =>
      have hread := expression_reads (n + 1) he hlen hstop
      have hrule : Leads (expressionStatement (n + 1)) k (ts ++ r :: rest) _ k' (r :: rest) :=
        hread.bind (expect_fails (hnot .semicolon)).fail
      obtain ⟨t, ts', rfl, ht⟩ := he.first
      have hstarts : Grammar.startsStatement t.kind = true := by
        simp [Grammar.startsStatement, startsExpression_of_starts ht]
      exact (declarationRule_statement hstarts).trans ((statementRule_expression ht).trans hrule)
  | print hword he =>
      have hread := expression_reads (n + 1) he (Nat.le_of_succ_le hlen) hstop
      refine (declarationRule_statement (by simp [Grammar.startsStatement, hword])).trans
        ((statementRule_print hword).trans ?_)
      exact hread.bind (expect_fails (hnot .semicolon)).fail
  | @varDecl _ _ _ _ ts value hword hname hvalue =>
      have hinitial : Reads (initialValue (n + 1)) k (ts ++ r :: rest) value k' (r :: rest) := by
        cases hvalue with
        | absent => exact unlessSymbol (hnot .equal) .refl
        | present hequals he =>
            simp only [List.cons_append, List.length_cons] at hlen
            exact onSymbol hequals ((expression_reads (n + 1) he (by omega) hstop).bind .refl)
      refine unlessWord (by simp [hword]) (unlessWord (by simp [hword])
        (onWord hword ((expectName_reads hname).bind ?_)))
      exact hinitial.bind (expect_fails (hnot .semicolon)).fail
  | giveBack hword he =>
      have hread := expression_reads (n + 1) he (Nat.le_of_succ_le hlen) hstop
      obtain ⟨t, ts', rfl, ht⟩ := he.first
      have hsome : ∀ t' ∈ (t :: (ts' ++ r :: rest)).head?, t'.kind ≠ .symbol .semicolon := by
        intro t' ht' hkind
        cases ht'
        rw [hkind] at ht
        exact absurd ht (by decide)
      have hvalue := (expressionUnless_leads hsome (n + 1)).trans (hread.bind .refl)
      refine (declarationRule_statement (by simp [Grammar.startsStatement, hword])).trans
        ((statementRule_return hword).trans ?_)
      exact hvalue.bind (expect_fails (hnot .semicolon)).fail
  | giveNothingBack hword =>
      have hvalue : Leads (expressionUnless (n + 1) .semicolon) k (r :: rest)
          (fail .expectExpression) k (r :: rest) :=
        (expressionUnless_leads (hnot .semicolon) (n + 1)).trans (expression_fails hr (n + 1)).fail
      refine (declarationRule_statement (by simp [Grammar.startsStatement, hword])).trans
        ((statementRule_return hword).trans ?_)
      exact hvalue.fail

/-- From its first token on, a statement is dropped as far as its semicolon. -/
theorem skipToBoundary_statement {semicolon : Token} (hsemicolon : semicolon.kind = .symbol .semicolon) :
    ∀ {last : Token} {body : List Token}, last.kind ≠ .symbol .semicolon →
      (∀ t ∈ body, t.kind ≠ .symbol .semicolon ∧ Parser.startsStatement t = false) →
      skipToBoundary last (body ++ semicolon :: rest) = rest
  | last, [], hlast, _ => by
      have hstarts : Parser.startsStatement semicolon = false := by
        unfold Parser.startsStatement
        rw [hsemicolon]
      cases rest with
      | nil => simp [skipToBoundary, hlast, hstarts]
      | cons t ts => simp [skipToBoundary, hlast, hstarts, hsemicolon]
  | last, t :: body, hlast, hbody => by
      obtain ⟨ht, hstarts⟩ := hbody t (List.mem_cons_self ..)
      have hrest := skipToBoundary_statement hsemicolon ht fun t' ht' =>
        hbody t' (List.mem_cons_of_mem _ ht')
      simpa [skipToBoundary, hlast, hstarts] using hrest

/-- The word behind the statement is dropped before a boundary is looked for. -/
theorem recovering_fails {rule : Parser Stmt} {input : List Token}
    (h : Leads rule k input (fail fault) k' (r :: rest)) (line : Nat) (faults : Array Diagnostic) :
    recovering rule ⟨input, line, k, faults⟩
      = .ok none ⟨skipToBoundary r rest, line, k', faults.push (r.diagnostic (.syntactic fault))⟩ := by
  unfold recovering
  rw [h line faults]
  rfl

end

section

variable {X R : List Token} {r : Token} {k next : Nat} {fault : SyntaxFault}
  (h : Unclosed k X fault next) (hr : Parser.startsStatement r = true)
include h hr

/-- After a statement without its semicolon and a word, reading goes on at the next boundary. -/
theorem outcomeOf_unclosed (line : Nat) : outcomeOf (X ++ r :: R) line k
    = ⟨.error (r.diagnostic (.syntactic fault) :: (outcomeOf (skipToBoundary r R) line next).faults),
      (outcomeOf (skipToBoundary r R) line next).nextId⟩ := by
  let d := r.diagnostic (.syntactic fault)
  have hlen : (X ++ r :: R).length = (X ++ R).length + 1 := by simp; omega
  have hskip := (skipToBoundary_suffix r R).length_le
  have hfirst : Parser.declaration ((X ++ R).length + 1) ⟨X ++ r :: R, line, k, #[]⟩
      = .ok none ⟨skipToBoundary r R, line, next, #[d]⟩ := by
    rw [declaration_eq]
    exact recovering_fails (declarationRule_unclosed h hr (Nat.le_of_eq hlen)) line #[]
  have hbound : (skipToBoundary r R).length ≤ (X ++ R).length := by simp; omega
  obtain ⟨taken, s, halone, hgoes⟩ := program_after (skipToBoundary r R) line next #[d] []
    (Nat.le_succ_of_le hbound) hbound
  have hread : outcomeOf (X ++ r :: R) line k
      = outcome (.ok (taken ++ []).reverse ((Sequel.last line #[d]).state s)) := by
    rw [outcomeOf, program_eq, hlen]
    refine congrArg outcome (bind_ok ?_)
    rw [rounds_next (by simp) hfirst]
    exact hgoes
  have hrest : outcomeOf (skipToBoundary r R) line next = outcome (.ok taken.reverse s) := by
    rw [outcomeOf, halone]
  rw [hread, hrest, faults_outcome]
  simp [outcome, Sequel.state, Sequel.last, d]

end

end Parser

section

variable {X R : List Token} {semicolon r : Token} {s : Stmt} {k next : Nat} {fault : SyntaxFault}
  (hX : ∀ t ∈ X, t.kind ≠ .eof) (hsemicolon : semicolon.kind = .symbol .semicolon)
  (hread : parseProgram (X ++ [semicolon]) k = ⟨.ok [s], next⟩)
  (hfault : s.unclosedFault? = some fault)
include hX hsemicolon hread hfault

/-- What is read well with its semicolon is a statement without it. -/
theorem unclosed_of_parseProgram : Grammar.Unclosed k X fault next := by
  have hall : ∀ t ∈ X ++ [semicolon], decide (t.kind ≠ .eof) = true := by
    intro t ht
    rcases List.mem_append.mp ht with ht | ht
    · exact decide_eq_true (hX t ht)
    · rw [List.mem_singleton.mp ht, hsemicolon]
      rfl
  have hprogram := program_of_tokens hread
  rw [List.takeWhile_eq_self_iff.mpr hall] at hprogram
  generalize hts : X ++ [semicolon] = ts at hprogram
  obtain _ | ⟨hfirst, hnone⟩ := hprogram
  cases hnone
  rw [List.append_nil] at hts
  rw [← hts] at hfirst
  exact hfirst.unclosed hfault

/-- **A missing semicolon costs the statement behind it.** Let tokens be read as one statement if a semicolon
closes them. If a word that starts a statement follows instead, there is a fault at this word. The word and
what is behind it are dropped up to the next boundary, and the other faults are those of the tokens from there
on, read on their own. So if the word starts a statement that has its semicolon, and no other semicolon and no
other such word is in it, then all of this statement is dropped. -/
theorem parseProgram_unclosed (hr : Parser.startsStatement r = true) (hR : ∀ t ∈ R, t.kind ≠ .eof) :
    parseProgram (X ++ r :: R) k
      = ⟨.error (r.diagnostic (.syntactic fault) ::
            (parseProgram (Parser.skipToBoundary r R) next).faults),
          (parseProgram (Parser.skipToBoundary r R) next).nextId⟩ ∧
    ∀ (body rest : List Token) (close : Token), R = body ++ close :: rest →
      close.kind = .symbol .semicolon →
      (∀ t ∈ body, t.kind ≠ .symbol .semicolon ∧ Parser.startsStatement t = false) →
      Parser.skipToBoundary r R = rest := by
  have h := unclosed_of_parseProgram hX hsemicolon hread hfault
  have hsuffix := Parser.skipToBoundary_suffix r R
  obtain ⟨word, hkind, -⟩ := Parser.exists_word_of_startsStatement hr
  have hword : r.kind ≠ .eof := by simp [hkind]
  have hall : ∀ t ∈ X ++ r :: R, t.kind ≠ .eof := by
    simpa [or_imp, forall_and, hword] using ⟨hX, hR⟩
  -- the end is on the line on which it is without the tokens before the boundary
  have hrest : Parser.outcomeOf (Parser.skipToBoundary r R) (Parser.lastLine (X ++ r :: R)) next
      = parseProgram (Parser.skipToBoundary r R) next := by
    rw [Parser.parseProgram_eq fun t ht => hR t (hsuffix.subset ht)]
    by_cases hnil : Parser.skipToBoundary r R = []
    · rw [hnil, Parser.outcomeOf_nil, Parser.outcomeOf_nil]
    · obtain ⟨dropped, hdropped⟩ := hsuffix
      have hline := Parser.lastLine_append hnil (X ++ r :: dropped)
      rw [List.append_assoc, List.cons_append, hdropped] at hline
      rw [hline]
  refine ⟨?_, ?_⟩
  · rw [Parser.parseProgram_eq hall, Parser.outcomeOf_unclosed h hr, hrest]
  · rintro body rest close rfl hclose hbody
    exact Parser.skipToBoundary_statement hclose (by simp [hkind]) hbody

end

/-- In `print true var = nil;` the name that is missing behind `var` is not reported. -/
theorem parseProgram_unclosed_variable :
    let word (k : Keyword) : Token := ⟨.keyword k, k.spelling, 1⟩
    let symbol (s : Symbol) : Token := ⟨.symbol s, s.spelling, 1⟩
    parseProgram [word .printWord, word .trueWord, word .varWord, symbol .equal, word .nilWord,
        symbol .semicolon] 0
      = ⟨.error [⟨1, .atLexeme "var", .syntactic (.expectSymbol .semicolon .afterPrinted)⟩], 0⟩ := by
  intro word symbol
  have hread : parseProgram ([word .printWord, word .trueWord] ++ [symbol .semicolon]) 0
      = ⟨.ok [.print (.literal (.bool true))], 0⟩ := by
    cbv
  have hunclosed := parseProgram_unclosed (by simp [word]) rfl hread rfl
    (rfl : Parser.startsStatement (word .varWord) = true)
    (by simp [word, symbol] : ∀ t ∈ [symbol .equal, word .nilWord, symbol .semicolon], t.kind ≠ .eof)
  exact hunclosed.1.trans (by cbv)

/-- On its own, `var = nil;` is at fault. Behind a statement without its semicolon this fault is hidden. -/
theorem missing_semicolon_hides_a_fault :
    let word (k : Keyword) : Token := ⟨.keyword k, k.spelling, 1⟩
    let symbol (s : Symbol) : Token := ⟨.symbol s, s.spelling, 1⟩
    let unclosed := [word .printWord, word .trueWord]
    let behind := [word .varWord, symbol .equal, word .nilWord, symbol .semicolon]
    (parseProgram (unclosed ++ [symbol .semicolon]) 0).result = .ok [.print (.literal (.bool true))] ∧
    (parseProgram behind 0).faults = [⟨1, .atLexeme "=", .syntactic (.expectName .variableDeclared)⟩] ∧
    ¬ ∃ d, (parseProgram (unclosed ++ behind) 0).faults = d :: (parseProgram behind 0).faults := by
  intro word symbol unclosed behind
  have hfaults : (parseProgram behind 0).faults
      = [⟨1, .atLexeme "=", .syntactic (.expectName .variableDeclared)⟩] := by
    cbv
  have hwhole : (parseProgram (unclosed ++ behind) 0).faults
      = [⟨1, .atLexeme "var", .syntactic (.expectSymbol .semicolon .afterPrinted)⟩] := by
    cbv
  refine ⟨by cbv, hfaults, ?_⟩
  rw [hfaults, hwhole]
  rintro ⟨d, hd⟩
  cases hd

end Lox
