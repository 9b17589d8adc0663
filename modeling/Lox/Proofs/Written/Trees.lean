import Lox.Proofs.Written.Legible

/-!
# Terms of trees

What is written down for a tree is the text of a term: a word for a name or a constant, and for all
else a word in front of the parts. In the term of a legible tree all words are words, so the term can
be read.
-/

namespace Lox

open Written

/-! ## Terms of trees -/

mutual

/-- The term that is written down for an expression. -/
def Expr.term : Expr → Term
  | .literal value => .word value.written
  | .unary operator operand => .list [.word operator.lexeme, operand.term]
  | .binary left operator right => .list [.word operator.lexeme, left.term, right.term]
  | .logical left operator right => .list [.word operator.lexeme, left.term, right.term]
  | .grouping inner => .list [.word "group", inner.term]
  | .ident use => .word use.name.lexeme
  | .assign use value => .list [.word "=", .word use.name.lexeme, value.term]
  | .call callee _ arguments => .list (.word "call" :: callee.term :: Expr.terms arguments)
  | .get object name => .list [.word ".", object.term, .word name.lexeme]
  | .set object name value => .list [.word "=", object.term, .word name.lexeme, value.term]
  | .this _ => .word "this"
  | .super _ method => .list [.word "super", .word method.lexeme]

def Expr.terms : List Expr → List Term
  | [] => []
  | e :: es => e.term :: Expr.terms es

end

mutual

/-- The term that is written down for a statement. -/
def Stmt.term : Stmt → Term
  | .expression e => .list [.word ";", e.term]
  | .print e => .list [.word "print", e.term]
  | .variableDecl name none => .list [.word "var", .word name.lexeme]
  | .variableDecl name (some value) => .list [.word "var", .word name.lexeme, value.term]
  | .block body => .list (.word "block" :: Stmt.terms body)
  | .conditional condition yes none => .list [.word "if", condition.term, yes.term]
  | .conditional condition yes (some no) =>
    .list [.word "if", condition.term, yes.term, no.term]
  | .loop condition body => .list [.word "while", condition.term, body.term]
  | .functionDecl declared => declared.term
  | .giveBack _ none => .list [.word "return"]
  | .giveBack _ (some value) => .list [.word "return", value.term]
  | .classDecl name none methods =>
    .list (.word "class" :: .word name.lexeme :: Function.terms methods)
  | .classDecl name (some superclass) methods =>
    .list (.word "class" :: .word name.lexeme :: .word "<" :: .word superclass.name.lexeme ::
      Function.terms methods)

def Stmt.terms : List Stmt → List Term
  | [] => []
  | s :: ss => s.term :: Stmt.terms ss

/-- The term that is written down for a function or a method. -/
def Function.term : Function → Term
  | .mk name params body =>
    .list (.word "fun" :: .word name.lexeme ::
      .list (params.map fun param => .word param.lexeme) :: Stmt.terms body)

def Function.terms : List Function → List Term
  | [] => []
  | f :: fs => f.term :: Function.terms fs

end

/-! ## The text of a tree is that of its term -/

section

open Term (chars charsInside charsAfter)

attribute [local simp] chars charsInside charsAfter Expr.written Expr.writtenAll Expr.term
  Expr.terms Stmt.written Stmt.writtenAll Stmt.term Stmt.terms Function.written
  Function.writtenAll Function.term Function.terms

mutual

theorem Expr.toList_written : ∀ e : Expr, e.written.toList = e.term.chars
  | .literal value => rfl
  | .unary operator operand => by simp [toList_written operand]
  | .binary left operator right => by simp [toList_written left, toList_written right]
  | .logical left operator right => by simp [toList_written left, toList_written right]
  | .grouping inner => by simp [toList_written inner]
  | .ident use => rfl
  | .assign use value => by simp [toList_written value]
  | .call callee paren arguments => by
    simp [toList_written callee, Expr.toList_writtenAll arguments]
  | .get object name => by simp [toList_written object]
  | .set object name value => by simp [toList_written object, toList_written value]
  | .this use => rfl
  | .super use method => by simp

theorem Expr.toList_writtenAll : ∀ es : List Expr,
    (Expr.writtenAll es).toList = charsAfter (Expr.terms es)
  | [] => rfl
  | e :: es => by simp [toList_written e, toList_writtenAll es]

end

theorem Function.toList_parameters : ∀ params : List Token,
    (" ".intercalate (params.map Token.lexeme)).toList
      = charsInside (params.map fun param => .word param.lexeme)
  | [] => rfl
  | [param] => by simp
  | param :: param' :: params => by
    have ih := Function.toList_parameters (param' :: params)
    rw [List.map_cons] at ih
    rw [List.map_cons, List.map_cons, String.intercalate_cons_cons, String.toList_append, ih]
    simp

mutual

theorem Stmt.toList_written : ∀ s : Stmt, s.written.toList = s.term.chars
  | .expression e => by simp [e.toList_written]
  | .print e => by simp [e.toList_written]
  | .variableDecl name none => by simp
  | .variableDecl name (some value) => by simp [value.toList_written]
  | .block body => by simp [Stmt.toList_writtenAll body]
  | .conditional condition yes none => by simp [condition.toList_written, Stmt.toList_written yes]
  | .conditional condition yes (some no) => by
    simp [condition.toList_written, Stmt.toList_written yes, Stmt.toList_written no]
  | .loop condition body => by simp [condition.toList_written, Stmt.toList_written body]
  | .functionDecl declared => by simp [Function.toList_written declared]
  | .giveBack keyword none => by simp
  | .giveBack keyword (some value) => by simp [value.toList_written]
  | .classDecl name none methods => by simp [Function.toList_writtenAll methods]
  | .classDecl name (some superclass) methods => by simp [Function.toList_writtenAll methods]

theorem Stmt.toList_writtenAll : ∀ ss : List Stmt,
    (Stmt.writtenAll ss).toList = charsAfter (Stmt.terms ss)
  | [] => rfl
  | s :: ss => by simp [Stmt.toList_written s, Stmt.toList_writtenAll ss]

theorem Function.toList_written : ∀ f : Function, f.written.toList = f.term.chars
  | .mk name params body => by
    simp [Function.toList_parameters params, Stmt.toList_writtenAll body]

theorem Function.toList_writtenAll : ∀ fs : List Function,
    (Function.writtenAll fs).toList = charsAfter (Function.terms fs)
  | [] => rfl
  | f :: fs => by simp [Function.toList_written f, Function.toList_writtenAll fs]

end

end

/-! ## Terms of legible trees can be read -/

theorem Token.IsOne.isWord {kinds : List Token.Kind} {t : Token} (h : t.IsOne kinds)
    (hkinds : kinds.all isWritten = true := by decide) : IsWord t.lexeme :=
  isWord_of_forms h.spelt (List.all_eq_true.1 hkinds _ h.kind)

theorem isWord_keyword (k : Keyword) : IsWord k.spelling := isWord_of_forms (.keyword k) rfl

theorem Literal.Legible.isWord : ∀ {value : Literal}, value.Legible → IsWord value.written
  | .nil, _ => isWord_keyword .nilWord
  | .bool true, _ => isWord_keyword .trueWord
  | .bool false, _ => isWord_keyword .falseWord
  | .number _, ⟨_, hread⟩ => (Number.isWord_text hread).1

mutual

theorem Expr.Legible.readable : ∀ {e : Expr}, e.Legible → e.term.Readable
  | .literal _, h => Literal.Legible.isWord h
  | .unary _ _, ⟨hoperator, h⟩ => ⟨hoperator.isWord, h.readable, trivial⟩
  | .binary _ _ _, ⟨h, hoperator, h'⟩ =>
    ⟨hoperator.isWord, h.readable, h'.readable, trivial⟩
  | .logical _ _ _, ⟨h, hoperator, h'⟩ =>
    ⟨hoperator.isWord, h.readable, h'.readable, trivial⟩
  | .grouping _, h => Term.readable_headed ⟨Expr.Legible.readable h, trivial⟩
  | .ident _, h => h.isWord
  | .assign _ _, ⟨hname, h⟩ =>
    Term.readable_headed ⟨hname.isWord, h.readable, trivial⟩
  | .call _ _ _, ⟨h, _, h'⟩ =>
    Term.readable_headed ⟨h.readable, Expr.AllLegible.readable h'⟩
  | .get _ _, ⟨h, hname⟩ =>
    Term.readable_headed ⟨h.readable, hname.isWord, trivial⟩
  | .set _ _ _, ⟨h, hname, h'⟩ =>
    Term.readable_headed ⟨h.readable, hname.isWord, h'.readable, trivial⟩
  | .this _, _ => isWord_keyword .thisWord
  | .super _ _, ⟨_, hmethod⟩ =>
    Term.readable_headed ⟨hmethod.isWord, trivial⟩

theorem Expr.AllLegible.readable : ∀ {es : List Expr},
    Expr.AllLegible es → Term.AllReadable (Expr.terms es)
  | [], _ => trivial
  | _ :: _, ⟨h, hs⟩ => ⟨h.readable, Expr.AllLegible.readable hs⟩

end

theorem readable_words : ∀ {params : List Token}, (∀ param ∈ params, IsWord param.lexeme) →
    Term.AllReadable (params.map fun param => .word param.lexeme)
  | [], _ => trivial
  | param :: _, h =>
    ⟨h param (List.mem_cons_self ..), readable_words fun p hp => h p (List.mem_cons_of_mem _ hp)⟩

mutual

theorem Stmt.Legible.readable : ∀ {s : Stmt}, s.Legible → s.term.Readable
  | .expression _, h => Term.readable_headed ⟨Expr.Legible.readable h, trivial⟩
  | .print _, h => Term.readable_headed ⟨Expr.Legible.readable h, trivial⟩
  | .variableDecl _ none, ⟨hname, _⟩ => Term.readable_headed ⟨hname.isWord, trivial⟩
  | .variableDecl _ (some value), ⟨hname, h⟩ =>
    Term.readable_headed ⟨hname.isWord, (h value rfl).readable, trivial⟩
  | .block _, h => Term.readable_headed (Stmt.AllLegible.readable h)
  | .conditional _ _ none, ⟨h, h'⟩ => Term.readable_headed ⟨h.readable, h'.readable, trivial⟩
  | .conditional _ _ (some _), ⟨h, h', h''⟩ =>
    Term.readable_headed ⟨h.readable, h'.readable, h''.readable, trivial⟩
  | .loop _ _, ⟨h, h'⟩ => Term.readable_headed ⟨h.readable, h'.readable, trivial⟩
  | .functionDecl _, h => Function.Legible.readable h
  | .giveBack _ none, _ => Term.readable_headed trivial
  | .giveBack _ (some value), ⟨_, h⟩ => Term.readable_headed ⟨(h value rfl).readable, trivial⟩
  | .classDecl _ none _, ⟨hname, _, h⟩ =>
    Term.readable_headed ⟨hname.isWord, Function.AllLegible.readable h⟩
  | .classDecl _ (some superclass) _, ⟨hname, hsuperclass, h⟩ =>
    Term.readable_headed ⟨hname.isWord, (by decide : IsWord "<"),
      (hsuperclass superclass rfl).isWord, Function.AllLegible.readable h⟩

theorem Stmt.AllLegible.readable : ∀ {ss : List Stmt},
    Stmt.AllLegible ss → Term.AllReadable (Stmt.terms ss)
  | [], _ => trivial
  | _ :: _, ⟨h, hs⟩ => ⟨h.readable, Stmt.AllLegible.readable hs⟩

theorem Function.Legible.readable : ∀ {f : Function}, f.Legible → f.term.Readable
  | .mk _ _ _, ⟨hname, hparams, h⟩ =>
    Term.readable_headed ⟨hname.isWord,
      readable_words fun param hparam => (hparams param hparam).isWord,
      Stmt.AllLegible.readable h⟩

theorem Function.AllLegible.readable : ∀ {fs : List Function},
    Function.AllLegible fs → Term.AllReadable (Function.terms fs)
  | [], _ => trivial
  | _ :: _, ⟨h, hs⟩ => ⟨h.readable, Function.AllLegible.readable hs⟩

end

/-- The text of a legible statement is that of no other term. -/
theorem Stmt.Legible.term_eq {s s' : Stmt} (h : s.Legible) (h' : s'.Legible)
    (heq : s.written = s'.written) : s.term = s'.term := by
  refine Term.eq_of_chars_eq h.readable h'.readable ?_
  rw [← s.toList_written, ← s'.toList_written, heq]

end Lox
