import Lox.Proofs.Written.Trees

/-!
# The written form of a program determines it

The written form drops the lines of tokens and the numbers of references, and of a constant it keeps
only the text. Nothing else is lost. The text of a legible tree determines the term that it is the
text of, and the term determines the tree: the word in front and the number of the parts behind it
say what the tree is, and the other words are read as the scanner reads them. An assignment to a name
has two parts and one to a field has three, a negation has one and a difference two, and what stands
before a superclass is no method.
-/

namespace Lox

open Written

/-! ## Trees from terms -/

namespace Written

/-- The expression that a word stands for. -/
def ofWord (text : String) : Expr :=
  if text.toList.head?.any Char.isDigit then .literal (.number (Number.ofText text))
  else match Grammar.constant? (kindOf text) with
    | some value => .literal value
    | none =>
      if kindOf text = .keyword .thisWord then .this ⟨0, tokenOf text⟩ else .ident ⟨0, tokenOf text⟩

/-- The expression with these parts behind its head, if there is one. -/
def ofParts : String → List Expr → Expr
  | "group", [inner] => .grouping inner
  | "super", [.ident use] => .super ⟨0, tokenOf "super"⟩ use.name
  | "call", callee :: given => .call callee ⟨.symbol .rightParen, ")", 0⟩ given
  | ".", [object, .ident use] => .get object use.name
  | "=", [.ident use, value] => .assign use value
  | "=", [object, .ident use, value] => .set object use.name value
  | "or", [left, right] => .logical left (tokenOf "or") right
  | "and", [left, right] => .logical left (tokenOf "and") right
  | operator, [left, right] => .binary left (tokenOf operator) right
  | operator, [operand] => .unary (tokenOf operator) operand
  | _, _ => .literal .nil

namespace Term

mutual

/-- The expression that is written down as this term, if there is one. -/
def expr : Term → Expr
  | .list (.word head :: parts) => ofParts head (exprs parts)
  | .word text => ofWord text
  | .list _ => .literal .nil

def exprs : List Term → List Expr
  | [] => []
  | t :: ts => t.expr :: exprs ts

end

/-- The token that is written down as this term, if there is one. -/
def token : Term → Token
  | .word text => tokenOf text
  | .list _ => tokenOf ""

end Term

/-- The function that a statement declares, if it declares one. -/
def declared : Stmt → Function
  | .functionDecl f => f
  | _ => .mk (tokenOf "") [] []

namespace Term

mutual

/-- The statement that is written down as this term, if there is one. -/
def stmt : Term → Stmt
  | .list [.word ";", e] => .expression e.expr
  | .list [.word "print", e] => .print e.expr
  | .list [.word "var", name] => .variableDecl name.token none
  | .list [.word "var", name, value] => .variableDecl name.token (some value.expr)
  | .list (.word "block" :: body) => .block (stmts body)
  | .list [.word "if", condition, yes] => .conditional condition.expr yes.stmt none
  | .list [.word "if", condition, yes, no] => .conditional condition.expr yes.stmt (some no.stmt)
  | .list [.word "while", condition, body] => .loop condition.expr body.stmt
  | .list (.word "fun" :: name :: .list params :: body) =>
    .functionDecl (.mk name.token (params.map token) (stmts body))
  | .list [.word "return"] => .giveBack (tokenOf "return") none
  | .list [.word "return", value] => .giveBack (tokenOf "return") (some value.expr)
  | .list (.word "class" :: name :: .word "<" :: superclass :: methods) =>
    .classDecl name.token (some ⟨0, superclass.token⟩) ((stmts methods).map declared)
  | .list (.word "class" :: name :: methods) =>
    .classDecl name.token none ((stmts methods).map declared)
  | _ => .block []

def stmts : List Term → List Stmt
  | [] => []
  | t :: ts => t.stmt :: stmts ts

end

end Term

end Written

/-! ## What is written down is found again -/

section

variable {text : String} {kind : Token.Kind} {t : Token}

theorem Token.IsOne.tokenOf_lexeme {kinds : List Token.Kind} (h : t.IsOne kinds)
    (hkinds : kinds.all isWritten = true := by decide) : tokenOf t.lexeme = t.renamed .blank :=
  Written.tokenOf_lexeme h.spelt (List.all_eq_true.1 hkinds _ h.kind)

theorem Token.IsOne.kind_eq (h : t.IsOne [kind]) : t.kind = kind := List.mem_singleton.1 h.kind

namespace Written

theorem ofWord_of_forms (h : Source.Forms text.toList kind) (hkind : isWritten kind = true) :
    ofWord text = match Grammar.constant? kind with
      | some value => .literal value
      | none =>
        if kind = .keyword .thisWord then .this ⟨0, tokenOf text⟩ else .ident ⟨0, tokenOf text⟩ := by
  obtain ⟨c, cs, hchars⟩ := h.exists_cons
  have hdigit : ¬ text.toList.head?.any Char.isDigit = true := by
    intro hdigit
    rw [hchars] at h hdigit
    obtain ⟨whole, fraction, -, -, rfl, -⟩ := h.of_digit hdigit
    cases hkind
  rw [ofWord, if_neg hdigit, kindOf_of_forms h hkind]

theorem ofWord_keyword (k : Keyword) {value : Literal}
    (hvalue : Grammar.constant? (.keyword k) = some value) : ofWord k.spelling = .literal value := by
  rw [ofWord_of_forms (.keyword k) rfl, hvalue]

theorem ofWord_literal : ∀ {value : Literal}, value.Legible → ofWord value.written = .literal value
  | .nil, _ => ofWord_keyword .nilWord rfl
  | .bool true, _ => ofWord_keyword .trueWord rfl
  | .bool false, _ => ofWord_keyword .falseWord rfl
  | .number n, ⟨_, hread⟩ => by
    obtain ⟨-, c, hc, hdigit⟩ := Number.isWord_text hread
    have hstarts : (Number.text n).toList.head?.any Char.isDigit = true := by
      rw [Option.mem_def.1 hc]
      exact hdigit
    rw [Literal.written, ofWord, if_pos hstarts, Number.ofText_text hread]

theorem ofWord_name (h : t.IsOne [.identifier]) :
    ofWord t.lexeme = .ident ⟨0, t.renamed .blank⟩ := by
  rw [ofWord_of_forms h.spelt (h.kind_eq ▸ rfl), h.kind_eq, h.tokenOf_lexeme]
  rfl

theorem ofWord_this (h : t.IsOne [.keyword .thisWord]) :
    ofWord "this" = .this ⟨0, t.renamed .blank⟩ := by
  have hlexeme : t.lexeme = "this" := lexeme_of_keyword h.spelt h.kind_eq
  rw [← hlexeme, ofWord_of_forms h.spelt (h.kind_eq ▸ rfl), h.kind_eq, h.tokenOf_lexeme]
  rfl

theorem ofParts_unary (h : t.IsOne Operator.unaryKinds) (operand : Expr) :
    ofParts t.lexeme [operand] = .unary (t.renamed .blank) operand := by
  rw [← h.tokenOf_lexeme]
  obtain ⟨hkind, hspelt⟩ := h
  simp only [Operator.unaryKinds, List.mem_cons, List.not_mem_nil, or_false] at hkind
  rcases hkind with hkind | hkind <;> (rw [lexeme_of_symbol hspelt hkind]; rfl)

theorem ofParts_logical (h : t.IsOne Operator.logicalKinds) (left right : Expr) :
    ofParts t.lexeme [left, right] = .logical left (t.renamed .blank) right := by
  rw [← h.tokenOf_lexeme]
  obtain ⟨hkind, hspelt⟩ := h
  simp only [Operator.logicalKinds, List.mem_cons, List.not_mem_nil, or_false] at hkind
  rcases hkind with hkind | hkind <;> (rw [lexeme_of_keyword hspelt hkind]; rfl)

theorem ofParts_binary (h : t.IsOne Operator.binaryKinds) (left right : Expr) :
    ofParts t.lexeme [left, right] = .binary left (t.renamed .blank) right := by
  rw [← h.tokenOf_lexeme]
  obtain ⟨hkind, hspelt⟩ := h
  simp only [Operator.binaryKinds, List.mem_cons, List.not_mem_nil, or_false] at hkind
  rcases hkind with hkind | hkind | hkind | hkind | hkind | hkind | hkind | hkind | hkind | hkind <;>
    (rw [lexeme_of_symbol hspelt hkind]; rfl)

/-- Nothing but its line distinguishes a closing parenthesis. -/
theorem renamed_paren (h : t.IsOne [.symbol .rightParen]) :
    t.renamed .blank = ⟨.symbol .rightParen, ")", 0⟩ := by
  rw [Token.renamed, h.kind_eq, lexeme_of_symbol h.spelt h.kind_eq]
  rfl

theorem tokenOf_keyword {k : Keyword} (h : t.IsOne [.keyword k]) :
    tokenOf k.spelling = t.renamed .blank := by
  rw [← lexeme_of_keyword h.spelt h.kind_eq, h.tokenOf_lexeme (by simp [isWritten])]

end Written

end

section

attribute [local simp] Term.expr Term.exprs Expr.term Expr.renamed

mutual

theorem Expr.Legible.expr_term : ∀ {e : Expr}, e.Legible → e.term.expr = e.renamed .blank
  | .literal _, h => ofWord_literal h
  | .unary _ _, ⟨hoperator, h⟩ => by simp [ofParts_unary hoperator, h.expr_term]
  | .binary _ _ _, ⟨h, hoperator, h'⟩ => by
    simp [ofParts_binary hoperator, h.expr_term, h'.expr_term]
  | .logical _ _ _, ⟨h, hoperator, h'⟩ => by
    simp [ofParts_logical hoperator, h.expr_term, h'.expr_term]
  | .grouping inner, h => by
    have hinner : inner.Legible := h
    simp [ofParts, hinner.expr_term]
  | .ident _, h => ofWord_name h
  | .assign _ _, ⟨hname, h⟩ => by
    simp [ofParts, ofWord_name hname, h.expr_term, Reference.renamed, Renaming.blank]
  | .call _ _ _, ⟨h, hparen, h'⟩ => by
    simp [ofParts, h.expr_term, Expr.AllLegible.exprs_terms h', renamed_paren hparen]
  | .get _ _, ⟨h, hname⟩ => by simp [ofParts, ofWord_name hname, h.expr_term]
  | .set _ _ _, ⟨h, hname, h'⟩ => by simp [ofParts, ofWord_name hname, h.expr_term, h'.expr_term]
  | .this _, h => ofWord_this h
  | .super _ _, ⟨hkeyword, hmethod⟩ => by
    have hsuper : tokenOf "super" = _ := tokenOf_keyword hkeyword
    simp [ofParts, ofWord_name hmethod, hsuper, Reference.renamed, Renaming.blank]

theorem Expr.AllLegible.exprs_terms : ∀ {es : List Expr},
    Expr.AllLegible es → Term.exprs (Expr.terms es) = Expr.renamedAll .blank es
  | [], _ => rfl
  | _ :: _, ⟨h, hs⟩ => by
    rw [Expr.terms, Term.exprs, Expr.renamedAll, h.expr_term, Expr.AllLegible.exprs_terms hs]

end

end

theorem token_names : ∀ {params : List Token}, (∀ param ∈ params, param.IsOne [.identifier]) →
    (params.map fun param => Term.word param.lexeme).map Term.token
      = params.map (Token.renamed .blank) := by
  intro params h
  rw [List.map_map]
  exact List.map_congr_left fun param hparam => (h param hparam).tokenOf_lexeme

theorem Function.map_declared (fs : List Function) :
    fs.map (declared ∘ Stmt.functionDecl) = fs :=
  List.map_id fs

section

attribute [local simp] Term.stmt Term.stmts Stmt.term Stmt.terms Function.term Function.terms
  Stmt.renamed Stmt.renamedAll Function.renamed Function.renamedAll Term.token

mutual

theorem Stmt.Legible.stmt_term : ∀ {s : Stmt}, s.Legible → s.term.stmt = s.renamed .blank
  | .expression e, h => by
    have he : e.Legible := h
    simp [he.expr_term]
  | .print e, h => by
    have he : e.Legible := h
    simp [he.expr_term]
  | .variableDecl _ none, ⟨hname, _⟩ => by simp [hname.tokenOf_lexeme]
  | .variableDecl _ (some value), ⟨hname, h⟩ => by
    simp [hname.tokenOf_lexeme, (h value rfl).expr_term]
  | .block body, h => by
    have hbody : Stmt.AllLegible body := h
    simp [hbody.stmts_terms]
  | .conditional _ _ none, ⟨h, h'⟩ => by simp [h.expr_term, h'.stmt_term]
  | .conditional _ _ (some _), ⟨h, h', h''⟩ => by
    simp [h.expr_term, h'.stmt_term, h''.stmt_term]
  | .loop _ _, ⟨h, h'⟩ => by simp [h.expr_term, h'.stmt_term]
  | .functionDecl f, h => by
    have hf : f.Legible := h
    simp [hf.stmt_term]
  | .giveBack _ none, ⟨hkeyword, _⟩ => by
    have hreturn : tokenOf "return" = _ := tokenOf_keyword hkeyword
    simp [hreturn]
  | .giveBack _ (some value), ⟨hkeyword, h⟩ => by
    have hreturn : tokenOf "return" = _ := tokenOf_keyword hkeyword
    simp [hreturn, (h value rfl).expr_term]
  | .classDecl name none methods, ⟨hname, _, h⟩ => by
    have hmethods := Function.AllLegible.stmts_terms h
    -- no method is written as the word that is put before a superclass
    have hnone : (Stmt.classDecl name none methods).term.stmt = .classDecl (tokenOf name.lexeme)
        none ((Term.stmts (Function.terms methods)).map declared) := by
      cases methods with
      | nil => rfl
      | cons f fs => cases f with | mk name params body => rfl
    rw [hnone, hmethods, List.map_map, Function.map_declared]
    simp [hname.tokenOf_lexeme]
  | .classDecl _ (some superclass) _, ⟨hname, hsuperclass, h⟩ => by
    simp [hname.tokenOf_lexeme, (hsuperclass superclass rfl).tokenOf_lexeme, Reference.renamed,
      Renaming.blank, Function.AllLegible.stmts_terms h, Function.map_declared]

theorem Stmt.AllLegible.stmts_terms : ∀ {ss : List Stmt},
    Stmt.AllLegible ss → Term.stmts (Stmt.terms ss) = Stmt.renamedAll .blank ss
  | [], _ => rfl
  | _ :: _, ⟨h, hs⟩ => by simp [h.stmt_term, Stmt.AllLegible.stmts_terms hs]

theorem Function.Legible.stmt_term : ∀ {f : Function},
    f.Legible → f.term.stmt = .functionDecl (f.renamed .blank)
  | .mk _ _ _, ⟨hname, hparams, h⟩ => by
    simp [hname.tokenOf_lexeme, token_names hparams, Stmt.AllLegible.stmts_terms h]

theorem Function.AllLegible.stmts_terms : ∀ {fs : List Function}, Function.AllLegible fs →
    Term.stmts (Function.terms fs) = (Function.renamedAll .blank fs).map .functionDecl
  | [], _ => rfl
  | _ :: _, ⟨h, hs⟩ => by simp [h.stmt_term, Function.AllLegible.stmts_terms hs]

end

end

/-- Legible statements are found again from their written form. -/
theorem Stmt.renamed_eq_of_written_eq : ∀ {ss ss' : List Stmt}, Stmt.AllLegible ss →
    Stmt.AllLegible ss' → ss.map Stmt.written = ss'.map Stmt.written →
    ss.map (Stmt.renamed .blank) = ss'.map (Stmt.renamed .blank)
  | [], [], _, _, _ => rfl
  | s :: ss, s' :: ss', ⟨h, hs⟩, ⟨h', hs'⟩, heq => by
    obtain ⟨hhead, htail⟩ := List.cons.inj heq
    have hterm : s.term = s'.term := h.term_eq h' hhead
    have hsame : s.renamed .blank = s'.renamed .blank := by
      rw [← h.stmt_term, hterm, h'.stmt_term]
    rw [List.map_cons, List.map_cons, hsame, Stmt.renamed_eq_of_written_eq hs hs' htail]

/-- **The written form of a program determines it.** If two sources without strings and without
numbers out of range are accepted, and the statements of one are written as those of the other, then
they are the same statements but for the numbers of references and the lines of tokens. -/
theorem written_determines {source source' : String} {k k' : Nat} {P Q : List Stmt}
    (hsource : Source.Telling source) (hsource' : Source.Telling source')
    (hread : (Source.read source k).result = .ok P)
    (hread' : (Source.read source' k').result = .ok Q)
    (heq : P.map Stmt.written = Q.map Stmt.written) :
    P.map (Stmt.renamed .blank) = Q.map (Stmt.renamed .blank) :=
  Stmt.renamed_eq_of_written_eq (hsource.legible hread) (hsource'.legible hread') heq

/-- Other lines, other numbers and another spelling of a constant make no difference. -/
theorem written_determines_spelling : ∃ P Q,
    (Source.read "var x = 1.50; print -x - f(2);" 0).result = .ok P ∧
    (Source.read "var x = 1.5;\nprint - x\n  - f(2.0); // again" 7).result = .ok Q ∧
    P.map Stmt.written = ["(var x 1.5)", "(print (- (- x) (call f 2)))"] ∧
    P.map (Stmt.renamed .blank) = Q.map (Stmt.renamed .blank) := by
  let texts := ["(var x 1.5)", "(print (- (- x) (call f 2)))"]
  have hfound {source : String} {k : Nat}
      (h : (Source.read source k).result.toOption.map (List.map Stmt.written) = some texts) :
      ∃ P, (Source.read source k).result = .ok P ∧ P.map Stmt.written = texts := by
    cases hresult : (Source.read source k).result with
    | error faults => rw [hresult] at h; cases h
    | ok P => exact ⟨P, rfl, by rw [hresult] at h; exact Option.some.inj h⟩
  obtain ⟨P, hread, hwritten⟩ :=
    @hfound "var x = 1.50; print -x - f(2);" 0 (by decide +kernel)
  obtain ⟨Q, hread', hwritten'⟩ :=
    @hfound "var x = 1.5;\nprint - x\n  - f(2.0); // again" 7 (by decide +kernel)
  have hsame := written_determines (by decide +kernel) (by decide +kernel) hread hread'
    (hwritten.trans hwritten'.symm)
  exact ⟨P, Q, hread, hread', hwritten, hsame⟩

end Lox
