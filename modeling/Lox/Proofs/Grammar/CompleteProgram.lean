import Lox.Proofs.Grammar.Complete

/-!
# A derivation of a program is what is read

Statements are read in one pass without loops of their own, so each derivation is followed clause by
clause. An open statement can only be read where no `else` follows, since the parser would take it.
Where a list of declarations goes on, its next declaration starts with another token than `else`.
-/

namespace Lox.Parser

open Grammar

variable {α : Type} {k k₁ k' : Nat} {input mid rest : List Token}

/-! ## Choosing between rules -/

section

variable {keyword : Keyword} {symbol : Symbol} {p q r : Parser α} {t : Token}

theorem onWord (h : t.kind = .keyword keyword) (hp : Leads p k mid r k' rest) :
    Leads (acceptWord keyword >>= fun b => if b = true then p else q) k (t :: mid) r k' rest :=
  (acceptWord_reads h).bind hp

theorem unlessWord (h : ∀ t ∈ input.head?, t.kind ≠ .keyword keyword)
    (hq : Leads q k input r k' rest) :
    Leads (acceptWord keyword >>= fun b => if b = true then p else q) k input r k' rest :=
  (acceptWord_leaves h).bind hq

theorem onSymbol (h : t.kind = .symbol symbol) (hp : Leads p k mid r k' rest) :
    Leads (accept symbol >>= fun b => if b = true then p else q) k (t :: mid) r k' rest :=
  (accept_reads h).bind hp

theorem unlessSymbol (h : ∀ t ∈ input.head?, t.kind ≠ .symbol symbol)
    (hq : Leads q k input r k' rest) :
    Leads (accept symbol >>= fun b => if b = true then p else q) k input r k' rest :=
  (accept_leaves h).bind hq

end

/-! ## Clauses of statements -/

section

variable {bound : Nat} {ts : List Token}

theorem expressionUnless_reads {symbol : Symbol} {stop : Token} {o : Option Expr}
    (h : OptionalExpression k ts o k') (hstop : stop.kind = .symbol symbol)
    (hstarts : startsExpression (.symbol symbol) = false) (hbinding : binding (.symbol symbol) = 0)
    (hlen : (ts ++ stop :: rest).length ≤ bound) :
    Reads (expressionUnless bound symbol) k (ts ++ stop :: rest) o k' (stop :: rest) := by
  refine nextIs_reads.bind ?_
  cases h with
  | absent =>
      simp only [List.nil_append, List.head?_cons, Option.any_some, hstop, decide_true, if_true]
      exact .refl
  | present he =>
      obtain ⟨t, ts', rfl, ht⟩ := he.first
      have hkind : t.kind ≠ .symbol symbol := fun hkind => by
        rw [startsExpression_of_starts (hkind ▸ ht)] at hstarts
        exact Bool.noConfusion hstarts
      simp only [List.cons_append, List.head?_cons, Option.any_some, hkind, decide_false]
      exact (expression_reads bound he hlen (.of_binding (hstop ▸ hbinding))).bind .refl

theorem expressionStatement_reads {s : Stmt} (h : ExpressionStatement k ts s k')
    (hlen : (ts ++ rest).length ≤ bound) :
    Reads (expressionStatement bound) k (ts ++ rest) s k' rest := by
  cases h with
  | mk he hs =>
      rw [List.append_assoc] at hlen ⊢
      exact (expression_reads bound he hlen (.of_binding (by simp [hs, binding]))).bind
        ((expect_reads hs).bind .refl)

theorem printStatement_reads {semicolon : Token} {e : Expr} (he : Expression .assignment k ts e k')
    (hs : semicolon.kind = .symbol .semicolon) (hlen : (ts ++ semicolon :: rest).length ≤ bound) :
    Reads (printStatement bound) k (ts ++ semicolon :: rest) (.print e) k' rest :=
  (expression_reads bound he hlen (.of_binding (by simp [hs, binding]))).bind
    ((expect_reads hs).bind .refl)

theorem returnStatement_reads {word semicolon : Token} {value : Option Expr}
    (h : OptionalExpression k ts value k') (hs : semicolon.kind = .symbol .semicolon)
    (hlen : (ts ++ semicolon :: rest).length ≤ bound) :
    Reads (returnStatement bound word) k (ts ++ semicolon :: rest) (.giveBack word value) k'
      rest :=
  (expressionUnless_reads h hs rfl rfl hlen).bind ((expect_reads hs).bind .refl)

theorem initialValue_reads {stop : Token} {value : Option Expr} (h : Initializer k ts value k')
    (hstop : stop.kind = .symbol .semicolon) (hlen : (ts ++ stop :: rest).length ≤ bound) :
    Reads (initialValue bound) k (ts ++ stop :: rest) value k' (stop :: rest) := by
  cases h with
  | absent => exact unlessSymbol (by simp [hstop]) .refl
  | present hequals he =>
      exact onSymbol hequals ((expression_reads bound he (Nat.le_of_succ_le hlen)
        (.of_binding (by simp [hstop, binding]))).bind .refl)

theorem variableDeclaration_reads {s : Stmt} (h : Variable k ts s k')
    (hlen : (ts ++ rest).length ≤ bound) : ∃ word ts', ts = word :: ts' ∧
      word.kind = .keyword .varWord ∧
      Reads (variableDeclaration bound) k (ts' ++ rest) s k' rest := by
  cases h with
  | mk hword hname hvalue hs =>
      refine ⟨_, _, rfl, hword, ?_⟩
      simp only [List.cons_append, List.append_assoc, List.nil_append, List.length_cons]
        at hlen ⊢
      exact (expectName_reads hname).bind ((initialValue_reads hvalue hs (by omega)).bind
        ((expect_reads hs).bind .refl))

theorem startClause_reads {o : Option Stmt} (h : Start k ts o k')
    (hlen : (ts ++ rest).length ≤ bound) :
    Reads (startClause bound) k (ts ++ rest) o k' rest := by
  cases h with
  | absent hs => exact onSymbol hs .refl
  | varDecl h =>
      obtain ⟨word, ts', rfl, hword, hreads⟩ := variableDeclaration_reads h hlen
      exact unlessSymbol (by simp [hword]) (onWord hword (hreads.bind .refl))
  | expression h =>
      obtain ⟨t, ts', rfl, ht⟩ := h.first
      refine unlessSymbol (fun t' ht' hkind => ?_) (unlessWord (fun t' ht' hkind => ?_)
        ((expressionStatement_reads h hlen).bind .refl))
      · cases ht'
        rw [hkind] at ht
        exact absurd ht (by decide)
      · cases ht'
        rw [hkind] at ht
        exact absurd ht (by decide)

end

/-! ## Lists of declarations -/

/-- The reader reads every statement of at most `n` tokens, counting those that are left after it,
where no `else` follows that belongs to the statement. -/
def ReadsStatements (n : Nat) (statement : Parser Stmt) : Prop :=
  ∀ {isOpen : Bool} {k k' : Nat} {ts rest : List Token} {s : Stmt}, Statement isOpen k ts s k' →
    (ts ++ rest).length ≤ n → (isOpen = true → NoElse rest) →
    Reads statement k (ts ++ rest) s k' rest

/-- The reader reads every declaration of at most `n` tokens, counting those that are left after
it. -/
def ReadsDeclarations (n : Nat) (declaration : Parser (Option Stmt)) : Prop :=
  ∀ {k k' : Nat} {ts rest : List Token} {s : Stmt}, Declaration k ts s k' →
    (ts ++ rest).length ≤ n → NoElse rest → Reads declaration k (ts ++ rest) (some s) k' rest

theorem NoElse.declarations {ts : List Token} {ss : List Stmt} (h : Declarations k ts ss k')
    (hrest : NoElse rest) : NoElse (ts ++ rest) := by
  cases h with
  | nil => exact hrest
  | cons h _ =>
      obtain ⟨t, ts', rfl, ht⟩ := h.first
      intro t' ht' hkind
      cases ht'
      rw [hkind] at ht
      exact absurd ht (by decide)

/-- Declarations up to where a loop stops, each of which is read in one round. -/
theorem declarations_read {n : Nat} {step : List Stmt → Parser (Option (List Stmt))}
    (hstep : ∀ {k k' ts rest s taken}, Declaration k ts s k' → (ts ++ rest).length ≤ n →
      NoElse rest → Reads (step taken) k (ts ++ rest) (some (s :: taken)) k' rest)
    (hstop : ∀ {k taken}, Reads (step taken) k rest none k rest) (hno : NoElse rest) :
    ∀ {k k' : Nat} {ts : List Token} {ss : List Stmt}, Declarations k ts ss k' →
      ∀ (m : Nat) (taken : List Stmt), (ts ++ rest).length ≤ n → ts.length ≤ m →
        Reads (rounds step m taken) k (ts ++ rest) (ss.reverse ++ taken) k' rest
  | _, _, _, _, .nil, _, _, _, _ => rounds_stop hstop
  | k, k', _, _, @Declarations.cons _ k₁ _ ts ts' s ss h hs, m, taken, hlen, hm => by
      obtain ⟨t, ts'', rfl, -⟩ := h.first
      cases m with
      | zero => simp at hm
      | succ m =>
          have hone : Reads (step taken) k (t :: ts'' ++ (ts' ++ rest)) (some (s :: taken)) k₁
              (ts' ++ rest) :=
            hstep h (by rwa [← List.append_assoc]) (hno.declarations hs)
          have hothers := declarations_read hstep hstop hno hs m (s :: taken)
            (by simp at hlen ⊢; omega) (by simp at hm; omega)
          rw [List.append_assoc, List.reverse_cons, List.append_assoc]
          exact (rounds_succ hone).trans hothers

theorem nextDeclaration_read {n : Nat} {declaration : Parser (Option Stmt)} {ts : List Token}
    {s : Stmt} {taken : List Stmt} (hd : ReadsDeclarations n declaration)
    (h : Declaration k ts s k') (hlen : (ts ++ rest).length ≤ n) (hno : NoElse rest) :
    Reads (nextDeclaration declaration taken) k (ts ++ rest) (some (s :: taken)) k' rest := by
  have hread := hd h hlen hno
  obtain ⟨t, ts', rfl, -⟩ := h.first
  exact atEnd_reads.bind (hread.bind .refl)

section

variable {n : Nat} {statement : Parser Stmt} {declaration : Parser (Option Stmt)}
  {ts : List Token} {right : Token}

theorem noElse_of_kind {t : Token} {kind : Token.Kind} (h : t.kind = kind)
    (hkind : kind ≠ .keyword .elseWord) : NoElse (t :: rest) := by
  intro t' ht' hc
  cases ht'
  exact hkind (h.symm.trans hc)

/-- One round of reading a block. -/
def nextInBlock (declaration : Parser (Option Stmt)) (taken : List Stmt) :
    Parser (Option (List Stmt)) := do
  if (← nextIs .rightBrace) || (← atEnd) then
    return none
  return some ((← declaration).toList ++ taken)

theorem block_eq (bound : Nat) (declaration : Parser (Option Stmt)) : block bound declaration = (do
    let reversed ← rounds (nextInBlock declaration) bound []
    let _ ← expect .rightBrace .afterBlock
    return reversed.reverse) :=
  rfl

theorem block_reads {body : List Stmt} (hd : ReadsDeclarations n declaration)
    (h : Declarations k ts body k') (hright : right.kind = .symbol .rightBrace)
    (hlen : (ts ++ right :: rest).length ≤ n) :
    Reads (block (n + 1) declaration) k (ts ++ right :: rest) body k' rest := by
  have hstop {k : Nat} {taken : List Stmt} :
      Reads (nextInBlock declaration taken) k (right :: rest) none k (right :: rest) := by
    refine nextIs_reads.bind (atEnd_reads.bind ?_)
    simp only [List.head?_cons, Option.any_some, hright, decide_true, Bool.true_or, if_true]
    exact .refl
  have hstep {k k' : Nat} {ts rest : List Token} {s : Stmt} {taken : List Stmt}
      (h : Declaration k ts s k') (hlen : (ts ++ rest).length ≤ n) (hno : NoElse rest) :
      Reads (nextInBlock declaration taken) k (ts ++ rest) (some (s :: taken)) k' rest := by
    have hread := hd h hlen hno
    obtain ⟨t, ts', rfl, ht⟩ := h.first
    have hkind : t.kind ≠ .symbol .rightBrace := fun hkind => by
      rw [hkind] at ht
      exact absurd ht (by decide)
    refine nextIs_reads.bind (atEnd_reads.bind ?_)
    simp only [List.cons_append, List.head?_cons, Option.any_some, hkind, decide_false,
      List.isEmpty_cons, Bool.or_false]
    exact hread.bind .refl
  have hloop := declarations_read hstep hstop (noElse_of_kind hright (by decide)) h (n + 1) []
    hlen (by simp at hlen; omega)
  rw [block_eq]
  rw [List.append_nil] at hloop
  refine hloop.bind ((expect_reads hright).bind ?_)
  rw [List.reverse_reverse]
  exact .refl

/-! ## Functions and classes -/

theorem parameters_inLoop {bound : Nat} : ∀ {ts params : List Token}, Parameters ts params →
    params ≠ [] → params.length ≤ maxItems → ∀ {k rest}, (ts ++ rest).length ≤ bound →
      InLoop (itemsLoop bound (expectName .parameter) .tooManyParameters) k (ts ++ rest)
        (nextItem (expectName .parameter) .tooManyParameters) params.reverse k rest
  | _, _, .none, hne, _, _, _, _ => absurd rfl hne
  | _, _, .first h, _, _, _, _, hlen =>
      items_first (expectName_reads h) (Nat.le_of_succ_le hlen)
  | _, _, @Parameters.next comma name ts names h hne hcomma hname, _, hcount, k, rest, hlen => by
      rw [List.length_append, List.length_singleton] at hcount
      rw [List.append_assoc] at hlen ⊢
      have hcount' : names.reverse.length < maxItems := by rwa [List.length_reverse]
      rw [List.reverse_append]
      exact items_next (parameters_inLoop h hne (Nat.le_of_succ_le hcount) hlen) hcomma hcount'
        (expectName_reads hname) (Nat.le_succ _)

theorem parameters_reads {bound : Nat} {params : List Token} (h : Parameters ts params)
    (hcount : params.length ≤ maxItems) (hright : right.kind = .symbol .rightParen)
    (hlen : (ts ++ right :: rest).length ≤ bound) :
    Reads (parameters bound) k (ts ++ right :: rest) params k (right :: rest) := by
  rcases h.first_or_none with ⟨rfl, rfl⟩ | ⟨hne, t, ts', rfl, ht⟩
  · exact parenthesized_none hright
  · have hloop := items_stop (k := k) (parameters_inLoop h hne hcount hlen) (by simp [hright])
    rw [List.reverse_reverse] at hloop
    refine parenthesized_some hloop fun t' ht' hkind => ?_
    cases ht'
    exact absurd (ht.symm.trans hkind) (by decide)

theorem function_reads {kind : CallableKind} {f : Function}
    (hd : ReadsDeclarations n declaration) (h : Callable k ts f k')
    (hlen : (ts ++ rest).length ≤ n) :
    Reads (function (n + 1) kind declaration) k (ts ++ rest) f k' rest := by
  cases h with
  | mk hname hleft hparams hcount hright hleftBrace hbody hrightBrace =>
      simp only [List.cons_append, List.append_assoc, List.nil_append, List.length_append,
        List.length_cons] at hlen ⊢
      exact (expectName_reads hname).bind ((expect_reads hleft).bind
        ((parameters_reads hparams hcount hright (by simp; omega)).bind
          ((expect_reads hright).bind ((expect_reads hleftBrace).bind
            ((block_reads hd hbody hrightBrace (by simp; omega)).bind .refl)))))

theorem superclassClause_reads {superclass : Option Reference} {left : Token}
    (h : Superclass k ts superclass k') (hleft : left.kind = .symbol .leftBrace) :
    Reads superclassClause k (ts ++ left :: rest) superclass k' (left :: rest) := by
  cases h with
  | absent => exact unlessSymbol (by simp [hleft]) .refl
  | present hless hname =>
      exact onSymbol hless ((expectName_reads hname).bind (reference_reads.bind .refl))

/-- One round of reading the methods of a class. -/
def nextMethod (bound : Nat) (declaration : Parser (Option Stmt)) (taken : List Function) :
    Parser (Option (List Function)) := do
  if (← nextIs .rightBrace) || (← atEnd) then
    return none
  return some ((← function bound .method declaration) :: taken)

theorem methods_read (hd : ReadsDeclarations n declaration)
    (hright : right.kind = .symbol .rightBrace) : ∀ {k k' : Nat} {ts : List Token}
    {fs : List Function}, Callables k ts fs k' → ∀ (m : Nat) (taken : List Function),
      (ts ++ right :: rest).length ≤ n → ts.length ≤ m →
        Reads (rounds (nextMethod (n + 1) declaration) m taken) k (ts ++ right :: rest)
          (fs.reverse ++ taken) k' (right :: rest)
  | _, _, _, _, .nil, _, _, _, _ => by
      refine rounds_stop (nextIs_reads.bind (atEnd_reads.bind ?_))
      simp only [List.nil_append, List.head?_cons, Option.any_some, hright, decide_true,
        Bool.true_or, if_true]
      exact .refl
  | _, _, _, _, @Callables.cons k k₁ _ ts ts' f fs h hs, m, taken, hlen, hm => by
      have hread : Reads (function (n + 1) .method declaration) k (ts ++ (ts' ++ right :: rest)) f
          k₁ (ts' ++ right :: rest) :=
        function_reads hd h (by rwa [← List.append_assoc])
      obtain ⟨t, ts'', rfl, ht⟩ := h.first
      cases m with
      | zero => simp at hm
      | succ m =>
          have hone : Reads (nextMethod (n + 1) declaration taken) k
              (t :: ts'' ++ (ts' ++ right :: rest)) (some (f :: taken)) k₁
              (ts' ++ right :: rest) := by
            refine nextIs_reads.bind (atEnd_reads.bind ?_)
            simp only [List.cons_append, List.head?_cons, Option.any_some, ht, reduceCtorEq,
              decide_false, List.isEmpty_cons, Bool.or_false]
            exact hread.bind .refl
          have hothers := methods_read hd hright hs m (f :: taken)
            (by simp at hlen ⊢; omega) (by simp at hm; omega)
          rw [List.append_assoc, List.reverse_cons, List.append_assoc]
          exact (rounds_succ hone).trans hothers

theorem classDeclaration_reads {word name left : Token} {ts₁ ts₂ : List Token}
    {superclass : Option Reference} {methods : List Function} (hd : ReadsDeclarations n declaration)
    (hname : name.kind = .identifier) (hsuperclass : Superclass k ts₁ superclass k₁)
    (hleft : left.kind = .symbol .leftBrace) (hmethods : Callables k₁ ts₂ methods k')
    (hright : right.kind = .symbol .rightBrace)
    (hlen : (word :: name :: (ts₁ ++ left :: (ts₂ ++ [right])) ++ rest).length ≤ n + 1) :
    Reads (classDeclaration (n + 1) declaration) k
      (name :: (ts₁ ++ left :: (ts₂ ++ right :: rest))) (.classDecl name superclass methods) k'
      rest := by
  simp only [List.cons_append, List.append_assoc, List.nil_append, List.length_append,
    List.length_cons] at hlen
  have hlen' : (ts₂ ++ right :: rest).length ≤ n := by simp; omega
  have hloop := methods_read hd hright hmethods (n + 1) [] hlen' (by omega)
  rw [List.append_nil] at hloop
  refine (expectName_reads hname).bind ((superclassClause_reads hsuperclass hleft).bind
    ((expect_reads hleft).bind (hloop.bind ((expect_reads hright).bind ?_))))
  rw [List.reverse_reverse]
  exact .refl

/-! ## Statements -/

theorem ifThen_reads {isOpen : Bool} {left : Token} {ts' : List Token} {condition : Expr}
    {yes : Stmt} (hs : ReadsStatements n statement) (hleft : left.kind = .symbol .leftParen)
    (hcondition : Expression .assignment k ts condition k₁)
    (hright : right.kind = .symbol .rightParen) (hyes : Statement isOpen k₁ ts' yes k')
    (hlen : (left :: (ts ++ right :: (ts' ++ rest))).length ≤ n) (hno : NoElse rest) :
    Reads (ifStatement (n + 1) statement) k (left :: (ts ++ right :: (ts' ++ rest)))
      (.conditional condition yes none) k' rest := by
  simp only [List.length_append, List.length_cons] at hlen
  have hbranch : Reads (elseBranch statement) k' rest none k' rest := unlessWord hno .refl
  exact (expect_reads hleft).bind ((expression_reads _ hcondition (by simp; omega)
    (.of_binding (by simp [hright, binding]))).bind ((expect_reads hright).bind
      ((hs hyes (by simp; omega) fun _ => hno).bind (hbranch.bind .refl))))

theorem ifElse_reads {isOpen : Bool} {left otherwise : Token} {k₂ : Nat} {ts' ts'' : List Token}
    {condition : Expr} {yes no : Stmt} (hs : ReadsStatements n statement)
    (hleft : left.kind = .symbol .leftParen)
    (hcondition : Expression .assignment k ts condition k₁)
    (hright : right.kind = .symbol .rightParen) (hyes : Statement false k₁ ts' yes k₂)
    (hotherwise : otherwise.kind = .keyword .elseWord) (hno : Statement isOpen k₂ ts'' no k')
    (hlen : (left :: (ts ++ right :: (ts' ++ otherwise :: (ts'' ++ rest)))).length ≤ n)
    (hrest : isOpen = true → NoElse rest) :
    Reads (ifStatement (n + 1) statement) k
      (left :: (ts ++ right :: (ts' ++ otherwise :: (ts'' ++ rest))))
      (.conditional condition yes (some no)) k' rest := by
  simp only [List.length_append, List.length_cons] at hlen
  have hbranch : Reads (elseBranch statement) k₂ (otherwise :: (ts'' ++ rest)) (some no) k' rest :=
    onWord hotherwise ((hs hno (by simp; omega) hrest).bind .refl)
  exact (expect_reads hleft).bind ((expression_reads _ hcondition (by simp; omega)
    (.of_binding (by simp [hright, binding]))).bind ((expect_reads hright).bind
      ((hs hyes (by simp; omega) fun h => Bool.noConfusion h).bind (hbranch.bind .refl))))

theorem whileStatement_reads {isOpen : Bool} {left : Token} {ts' : List Token} {condition : Expr}
    {body : Stmt} (hs : ReadsStatements n statement) (hleft : left.kind = .symbol .leftParen)
    (hcondition : Expression .assignment k ts condition k₁)
    (hright : right.kind = .symbol .rightParen) (hbody : Statement isOpen k₁ ts' body k')
    (hlen : (left :: (ts ++ right :: (ts' ++ rest))).length ≤ n)
    (hrest : isOpen = true → NoElse rest) :
    Reads (whileStatement (n + 1) statement) k (left :: (ts ++ right :: (ts' ++ rest)))
      (.loop condition body) k' rest := by
  simp only [List.length_append, List.length_cons] at hlen
  exact (expect_reads hleft).bind ((expression_reads _ hcondition (by simp; omega)
    (.of_binding (by simp [hright, binding]))).bind ((expect_reads hright).bind
      ((hs hbody (by simp; omega) hrest).bind .refl)))

theorem forStatement_reads {isOpen : Bool} {left semicolon : Token} {k₂ k₃ : Nat}
    {ts₁ ts₂ ts₃ ts₄ : List Token} {start : Option Stmt} {condition increment : Option Expr}
    {body : Stmt} (hs : ReadsStatements n statement) (hleft : left.kind = .symbol .leftParen)
    (hstart : Start k ts₁ start k₁) (hcondition : OptionalExpression k₁ ts₂ condition k₂)
    (hsemicolon : semicolon.kind = .symbol .semicolon)
    (hincrement : OptionalExpression k₂ ts₃ increment k₃)
    (hright : right.kind = .symbol .rightParen) (hbody : Statement isOpen k₃ ts₄ body k')
    (hlen : (left :: (ts₁ ++ (ts₂ ++ semicolon :: (ts₃ ++ right :: (ts₄ ++ rest))))).length ≤ n)
    (hrest : isOpen = true → NoElse rest) :
    Reads (forStatement (n + 1) statement) k
      (left :: (ts₁ ++ (ts₂ ++ semicolon :: (ts₃ ++ right :: (ts₄ ++ rest)))))
      (Grammar.countingLoop start condition increment body) k' rest := by
  simp only [List.length_append, List.length_cons] at hlen
  rw [← countingLoop_eq]
  exact (expect_reads hleft).bind ((startClause_reads hstart (by simp; omega)).bind
    ((expressionUnless_reads hcondition hsemicolon rfl rfl (by simp; omega)).bind
      ((expect_reads hsemicolon).bind
        ((expressionUnless_reads hincrement hright rfl rfl (by simp; omega)).bind
          ((expect_reads hright).bind ((hs hbody (by simp; omega) hrest).bind .refl))))))

/-- An expression statement is none of the statements that start with a word or a brace. -/
theorem statementRule_expression {t : Token} (h : startsExpression t.kind = true) :
    Leads (statementRule (n + 1) statement declaration) k (t :: rest)
      (expressionStatement (n + 1)) k (t :: rest) := by
  have word (keyword : Keyword) (hkeyword : startsExpression (.keyword keyword) = false) :
      ∀ t' ∈ (t :: rest).head?, t'.kind ≠ .keyword keyword := by
    intro t' ht' hkind
    cases ht'
    rw [hkind, hkeyword] at h
    exact Bool.noConfusion h
  refine unlessWord (word _ rfl) (unlessWord (word _ rfl) (unlessWord (word _ rfl) ?_))
  refine Leads.bind (take?_leaves fun t' ht' => decide_eq_false (word .returnWord rfl t' ht')) ?_
  refine unlessWord (word _ rfl) (unlessSymbol (fun t' ht' hkind => ?_) .refl)
  cases ht'
  rw [hkind] at h
  exact absurd h (by decide)

theorem statementRule_print {word : Token} (hword : word.kind = .keyword .printWord) :
    Leads (statementRule (n + 1) statement declaration) k (word :: rest) (printStatement (n + 1)) k
      rest :=
  unlessWord (by simp [hword]) (unlessWord (by simp [hword]) (onWord hword .refl))

theorem statementRule_return {word : Token} (hword : word.kind = .keyword .returnWord) :
    Leads (statementRule (n + 1) statement declaration) k (word :: rest)
      (returnStatement (n + 1) word) k rest :=
  unlessWord (by simp [hword]) (unlessWord (by simp [hword])
    (unlessWord (by simp [hword]) ((take?_reads (decide_eq_true hword)).bind .refl)))

theorem statementRule_reads {isOpen : Bool} {s : Stmt} (hs : ReadsStatements n statement)
    (hd : ReadsDeclarations n declaration) (h : Statement isOpen k ts s k')
    (hlen : (ts ++ rest).length ≤ n + 1) (hrest : isOpen = true → NoElse rest) :
    Reads (statementRule (n + 1) statement declaration) k (ts ++ rest) s k' rest := by
  have noReturn {t : Token} {ts : List Token} (hkind : t.kind ≠ .keyword .returnWord) :
      Reads (keyword? .returnWord) k (t :: ts) none k (t :: ts) :=
    take?_leaves fun t' ht' => by
      cases ht'
      exact decide_eq_false hkind
  cases h with
  | expression h =>
      have hread := expressionStatement_reads h hlen
      obtain ⟨t, ts', rfl, ht⟩ := h.first
      exact (statementRule_expression ht).trans hread
  | print hword he hsemicolon =>
      simp only [List.cons_append, List.append_assoc, List.nil_append, List.length_cons] at hlen ⊢
      exact (statementRule_print hword).trans
        (printStatement_reads he hsemicolon (Nat.le_of_succ_le hlen))
  | giveBack hword he hsemicolon =>
      simp only [List.cons_append, List.append_assoc, List.nil_append, List.length_cons] at hlen ⊢
      exact (statementRule_return hword).trans
        (returnStatement_reads he hsemicolon (Nat.le_of_succ_le hlen))
  | block hleft hbody hright =>
      simp only [List.cons_append, List.append_assoc, List.nil_append, List.length_cons] at hlen ⊢
      refine unlessWord (by simp [hleft]) (unlessWord (by simp [hleft])
        (unlessWord (by simp [hleft]) ((noReturn (by simp [hleft])).bind
          (unlessWord (by simp [hleft]) (onSymbol hleft ?_)))))
      exact (block_reads hd hbody hright (Nat.le_of_succ_le_succ hlen)).bind .refl
  | ifThen hword hleft hcondition hright hyes =>
      simp only [List.cons_append, List.append_assoc, List.length_cons] at hlen ⊢
      refine unlessWord (by simp [hword]) (onWord hword ?_)
      exact ifThen_reads hs hleft hcondition hright hyes (Nat.le_of_succ_le_succ hlen) (hrest rfl)
  | ifElse hword hleft hcondition hright hyes hotherwise hno =>
      simp only [List.cons_append, List.append_assoc, List.length_cons] at hlen ⊢
      refine unlessWord (by simp [hword]) (onWord hword ?_)
      exact ifElse_reads hs hleft hcondition hright hyes hotherwise hno (Nat.le_of_succ_le_succ hlen) hrest
  | whileLoop hword hleft hcondition hright hbody =>
      simp only [List.cons_append, List.append_assoc, List.length_cons] at hlen ⊢
      refine unlessWord (by simp [hword]) (unlessWord (by simp [hword])
        (unlessWord (by simp [hword]) ((noReturn (by simp [hword])).bind (onWord hword ?_))))
      exact whileStatement_reads hs hleft hcondition hright hbody (Nat.le_of_succ_le_succ hlen) hrest
  | forLoop hword hleft hstart hcondition hsemicolon hincrement hright hbody =>
      simp only [List.cons_append, List.append_assoc, List.length_cons] at hlen ⊢
      refine onWord hword ?_
      exact forStatement_reads hs hleft hstart hcondition hsemicolon hincrement hright hbody
        (Nat.le_of_succ_le_succ hlen) hrest

/-! ## Declarations -/

theorem Leads.recovering {rule : Parser Stmt} {s : Stmt} (h : Reads rule k input s k' rest) :
    Reads (recovering rule) k input (some s) k' rest := by
  intro line faults
  unfold Parser.recovering
  rw [h line faults]
  rfl

/-- A statement is none of the declarations that start with a word. -/
theorem declarationRule_statement {t : Token} (h : Grammar.startsStatement t.kind = true) :
    Leads (declarationRule (n + 1) statement declaration) k (t :: rest)
      (statementRule (n + 1) statement declaration) k (t :: rest) := by
  have word (keyword : Keyword) (hkeyword : Grammar.startsStatement (.keyword keyword) = false) :
      ∀ t' ∈ (t :: rest).head?, t'.kind ≠ .keyword keyword := by
    intro t' ht' hkind
    cases ht'
    rw [hkind, hkeyword] at h
    exact Bool.noConfusion h
  exact unlessWord (word _ rfl) (unlessWord (word _ rfl) (unlessWord (word _ rfl) .refl))

theorem declarationRule_reads {s : Stmt} (hs : ReadsStatements n statement)
    (hd : ReadsDeclarations n declaration) (h : Declaration k ts s k')
    (hlen : (ts ++ rest).length ≤ n + 1) (hno : NoElse rest) :
    Reads (declarationRule (n + 1) statement declaration) k (ts ++ rest) s k' rest := by
  cases h with
  | classDecl hword hname hsuperclass hleft hmethods hright =>
      have hread := classDeclaration_reads hd hname hsuperclass hleft hmethods hright hlen
      simp only [List.cons_append, List.append_assoc, List.nil_append]
      exact onWord hword hread
  | functionDecl hword h =>
      exact unlessWord (by simp [hword])
        (onWord hword ((function_reads hd h (Nat.le_of_succ_le_succ hlen)).bind .refl))
  | varDecl h =>
      obtain ⟨word, ts', rfl, hword, hread⟩ := variableDeclaration_reads h hlen
      exact unlessWord (by simp [hword]) (unlessWord (by simp [hword]) (onWord hword hread))
  | statement h =>
      have hread := statementRule_reads hs hd h hlen fun _ => hno
      obtain ⟨t, ts', rfl, ht⟩ := h.first
      exact (declarationRule_statement ht).trans hread

end

mutual

theorem statement_reads : ∀ (bound : Nat), ReadsStatements bound (statement bound)
  | 0 => fun h hlen _ => by
      obtain ⟨t, ts', rfl, -⟩ := h.first
      simp at hlen
  | bound + 1 => fun h hlen hrest =>
      statementRule_reads (statement_reads bound) (declaration_reads bound) h hlen hrest

theorem declaration_reads : ∀ (bound : Nat), ReadsDeclarations bound (declaration bound)
  | 0 => fun h hlen _ => by
      obtain ⟨t, ts', rfl, -⟩ := h.first
      simp at hlen
  | bound + 1 => fun h hlen hno =>
      Leads.recovering
        (declarationRule_reads (statement_reads bound) (declaration_reads bound) h hlen hno)

end

/-! ## Whole programs -/

theorem program_reads {ts : List Token} {P : List Stmt} (h : Program k ts P k') :
    Reads (program ts.length) k ts P k' [] := by
  have hno : NoElse [] := fun t ht => nomatch ht
  have hlen : (ts ++ []).length ≤ ts.length := by simp
  have hloop := declarations_read (nextDeclaration_read (declaration_reads ts.length))
    (atEnd_reads.bind .refl) hno h ts.length [] hlen (Nat.le_refl _)
  rw [List.append_nil, List.append_nil] at hloop
  rw [program_eq]
  refine hloop.bind ?_
  rw [List.reverse_reverse]
  exact .refl

end Lox.Parser
