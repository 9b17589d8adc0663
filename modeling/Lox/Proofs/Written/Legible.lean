import Lox.Proofs.Reading
import Lox.Proofs.Trees
import Lox.Proofs.Written.Words

/-!
# Legible programs

A constant can be told from its text unless it is a string, whose text could be anything, or a number
out of range, whose text is a name. If a source has no such constant, then neither has the tree that
is read from it, and each token in the tree is spelt as a token of its kind is.
-/

namespace Lox

open Source (Forms WellSpelt)

/-! ## Tokens of a source -/

/-- The token is no string, and no number that is out of range. -/
def Token.Telling (t : Token) : Prop :=
  match t.kind with
  | .string _ => False
  | .number value => value.isFinite = true
  | _ => True

instance (t : Token) : Decidable t.Telling := by
  unfold Token.Telling
  split <;> infer_instance

/-- No token of the source is a string, or a number that is out of range. -/
def Source.Telling (source : String) : Prop := ∀ t ∈ Source.tokens source, t.Telling

instance (source : String) : Decidable (Source.Telling source) :=
  inferInstanceAs (Decidable (∀ t ∈ Source.tokens source, t.Telling))

/-- The token is spelt as a token of its kind is, and if it is a constant, then it can be told from
its text. -/
structure Token.Legible (t : Token) : Prop where
  spelt : WellSpelt t
  telling : t.Telling

namespace Source

/-- The scanner finds nothing but tokens that are well spelt. -/
theorem wellSpelt_of_mem_body {source : String} : ∀ t ∈ body source, WellSpelt t := by
  intro t ht
  obtain ⟨read, hitems, -, hpartitions, -⟩ := items_partition source
  have hmem : t ∈ tokens source := by
    rw [tokens_eq]
    exact List.mem_append_left _ ht
  rw [tokens, hitems, List.mem_filterMap] at hmem
  obtain ⟨item, hitem, hsome⟩ := hmem
  obtain rfl : item = .token t := by
    cases item with
    | token t' => rw [Option.some.inj hsome]
    | fault d => cases hsome
  rcases List.mem_append.1 hitem with hitem | hstop
  · exact hpartitions.forms t hitem
  · obtain rfl := Item.token.inj (List.mem_singleton.1 hstop)
    exact absurd rfl (body_kind source _ ht)

end Source

/-! ## Legible trees -/

/-- The token is of one of these kinds, and is spelt as such a token is. -/
structure Token.IsOne (kinds : List Token.Kind) (t : Token) : Prop where
  kind : t.kind ∈ kinds
  spelt : WellSpelt t

/-- The constant can be told from its text. -/
def Literal.Legible : Literal → Prop
  | .string _ => False
  | .number value => ∃ size, Number.read value = .finite false size
  | _ => True

mutual

/-- Each token is of a kind that it should be of, and is spelt so, and each constant can be told from
its text. -/
def Expr.Legible : Expr → Prop
  | .literal value => value.Legible
  | .unary operator operand => operator.IsOne Operator.unaryKinds ∧ operand.Legible
  | .binary left operator right =>
    left.Legible ∧ operator.IsOne Operator.binaryKinds ∧ right.Legible
  | .logical left operator right =>
    left.Legible ∧ operator.IsOne Operator.logicalKinds ∧ right.Legible
  | .grouping inner => inner.Legible
  | .ident use => use.name.IsOne [.identifier]
  | .assign use value => use.name.IsOne [.identifier] ∧ value.Legible
  | .call callee paren arguments =>
    callee.Legible ∧ paren.IsOne [.symbol .rightParen] ∧ Expr.AllLegible arguments
  | .get object name => object.Legible ∧ name.IsOne [.identifier]
  | .set object name value => object.Legible ∧ name.IsOne [.identifier] ∧ value.Legible
  | .this use => use.name.IsOne [.keyword .thisWord]
  | .super use method => use.name.IsOne [.keyword .superWord] ∧ method.IsOne [.identifier]

def Expr.AllLegible : List Expr → Prop
  | [] => True
  | e :: es => e.Legible ∧ Expr.AllLegible es

end

mutual

def Stmt.Legible : Stmt → Prop
  | .expression e => e.Legible
  | .print e => e.Legible
  | .variableDecl name value => name.IsOne [.identifier] ∧ ∀ e ∈ value, e.Legible
  | .block body => Stmt.AllLegible body
  | .conditional condition yes none => condition.Legible ∧ yes.Legible
  | .conditional condition yes (some no) => condition.Legible ∧ yes.Legible ∧ no.Legible
  | .loop condition body => condition.Legible ∧ body.Legible
  | .functionDecl declared => declared.Legible
  | .giveBack keyword value => keyword.IsOne [.keyword .returnWord] ∧ ∀ e ∈ value, e.Legible
  | .classDecl name superclass methods =>
    name.IsOne [.identifier] ∧ (∀ use ∈ superclass, use.name.IsOne [.identifier]) ∧
      Function.AllLegible methods

def Stmt.AllLegible : List Stmt → Prop
  | [] => True
  | s :: ss => s.Legible ∧ Stmt.AllLegible ss

def Function.Legible : Function → Prop
  | .mk name params body =>
    name.IsOne [.identifier] ∧ (∀ param ∈ params, param.IsOne [.identifier]) ∧
      Stmt.AllLegible body

def Function.AllLegible : List Function → Prop
  | [] => True
  | f :: fs => f.Legible ∧ Function.AllLegible fs

end

theorem Expr.allLegible_append : ∀ {es es' : List Expr}, Expr.AllLegible es →
    Expr.AllLegible es' → Expr.AllLegible (es ++ es')
  | [], _, _, h' => h'
  | _ :: _, _, ⟨he, hes⟩, h' => ⟨he, Expr.allLegible_append hes h'⟩

/-! ## What the grammar derives -/

variable {t : Token} {kind : Token.Kind}

theorem Token.Legible.isOne (h : t.Legible) (hkind : t.kind = kind) : t.IsOne [kind] :=
  ⟨List.mem_singleton.2 hkind, h.spelt⟩

/-- The value of a number is in range if its token is telling. -/
theorem Token.Legible.literal (h : t.Legible) {value : Literal}
    (hconstant : Grammar.constant? t.kind = some value) : value.Legible := by
  obtain ⟨hspelt, htelling⟩ := h
  rw [WellSpelt] at hspelt
  rw [Token.Telling] at htelling
  cases hkind : t.kind with
  | symbol s => simp [hkind, Grammar.constant?] at hconstant
  | keyword k =>
    cases k <;> simp only [hkind, Grammar.constant?, reduceCtorEq, Option.some.injEq] at hconstant
    all_goals exact hconstant ▸ trivial
  | identifier => simp [hkind, Grammar.constant?] at hconstant
  | string contents => simp [hkind] at htelling
  | number n =>
    obtain rfl : Literal.number n = value := by simpa [hkind, Grammar.constant?] using hconstant
    rw [hkind] at hspelt htelling
    obtain ⟨negative, size, hfinite⟩ := Number.isFinite_iff_read.1 htelling
    have hread : (∃ size, Number.read n = .finite false size) ∨
        Number.read n = .infinite false := by
      generalize t.lexeme.toList = chars at hspelt
      cases hspelt with
      | whole => exact Number.read_ofDigits _ _
      | decimal => exact Number.read_ofDigits _ _
    exact hread.resolve_right fun hinfinite => by cases hfinite.symm.trans hinfinite
  | eof => simp [hkind, Grammar.constant?] at hconstant

namespace Grammar

theorem Chain.join_legible {c : Chain} {left right : Expr} {operator : Token}
    (hleft : left.Legible) (hoperator : operator.kind ∈ c.operators) (hspelt : WellSpelt operator)
    (hright : right.Legible) : (c.join left operator right).Legible := by
  rcases c.join_eq with ⟨hjoin, hkinds⟩ | ⟨hjoin, hkinds⟩
  · rw [hjoin]
    exact ⟨hleft, ⟨hkinds hoperator, hspelt⟩, hright⟩
  · rw [hjoin]
    exact ⟨hleft, ⟨hkinds hoperator, hspelt⟩, hright⟩

mutual

theorem Expression.legible : ∀ {level : Level} {k k' : Nat} {ts : List Token} {e : Expr},
    Expression level k ts e k' → (∀ t ∈ ts, t.Legible) → e.Legible
  | _, _, _, _, _, .assignName hname _ h, hts =>
    ⟨(hts _ (by simp)).isOne hname, h.legible fun t ht => hts t (by simp [ht])⟩
  | _, _, _, _, _, .assignField h _ hname _ h', hts =>
    ⟨h.legible fun t ht => hts t (by simp [ht]), (hts _ (by simp)).isOne hname,
      h'.legible fun t ht => hts t (by simp [ht])⟩
  | _, _, _, _, _, .noAssignment h, hts => h.legible hts
  | _, _, _, _, _, .operation h hoperator h', hts =>
    Chain.join_legible (h.legible fun t ht => hts t (by simp [ht])) hoperator
      (hts _ (by simp)).spelt (h'.legible fun t ht => hts t (by simp [ht]))
  | _, _, _, _, _, .operand h, hts => h.legible hts
  | _, _, _, _, _, .unary hoperator h, hts =>
    ⟨⟨hoperator, (hts _ (by simp)).spelt⟩, h.legible fun t ht => hts t (by simp [ht])⟩
  | _, _, _, _, _, .noUnary h, hts => h.legible hts
  | _, _, _, _, _, .call h _ h' _ hparen, hts =>
    ⟨h.legible fun t ht => hts t (by simp [ht]), (hts _ (by simp)).isOne hparen,
      h'.legible fun t ht => hts t (by simp [ht])⟩
  | _, _, _, _, _, .get h _ hname, hts =>
    ⟨h.legible fun t ht => hts t (by simp [ht]), (hts _ (by simp)).isOne hname⟩
  | _, _, _, _, _, .noCall h, hts => h.legible hts
  | _, _, _, _, _, .literal hconstant, hts => (hts _ (by simp)).literal hconstant
  | _, _, _, _, _, .ident hname, hts => (hts _ (by simp)).isOne hname
  | _, _, _, _, _, .this hkeyword, hts => (hts _ (by simp)).isOne hkeyword
  | _, _, _, _, _, .super hkeyword _ hmethod, hts =>
    ⟨(hts _ (by simp)).isOne hkeyword, (hts _ (by simp)).isOne hmethod⟩
  | _, _, _, _, _, .grouping _ h _, hts => h.legible fun t ht => hts t (by simp [ht])

theorem Arguments.legible : ∀ {k k' : Nat} {ts : List Token} {given : List Expr},
    Arguments k ts given k' → (∀ t ∈ ts, t.Legible) → Expr.AllLegible given
  | _, _, _, _, .none, _ => trivial
  | _, _, _, _, .first h, hts => ⟨h.legible hts, trivial⟩
  | _, _, _, _, .next h _ _ h', hts =>
    Expr.allLegible_append (h.legible fun t ht => hts t (by simp [ht]))
      ⟨h'.legible fun t ht => hts t (by simp [ht]), trivial⟩

end

variable {k k' : Nat} {ts names : List Token} {s : Stmt} {value : Option Expr}

theorem OptionalExpression.legible (h : OptionalExpression k ts value k')
    (hts : ∀ t ∈ ts, t.Legible) : ∀ e ∈ value, e.Legible := by
  cases h with
  | absent => exact nofun
  | present h => exact fun e he => Option.some.inj he ▸ h.legible hts

theorem Variable.legible (h : Variable k ts s k') (hts : ∀ t ∈ ts, t.Legible) : s.Legible := by
  cases h with
  | mk _ hname hvalue _ =>
    refine ⟨(hts _ (by simp)).isOne hname, ?_⟩
    cases hvalue with
    | absent => exact nofun
    | present _ h => exact fun e he => Option.some.inj he ▸ h.legible fun t ht => hts t (by simp [ht])

theorem ExpressionStatement.legible (h : ExpressionStatement k ts s k')
    (hts : ∀ t ∈ ts, t.Legible) : s.Legible := by
  cases h with
  | mk h _ => exact h.legible fun t ht => hts t (by simp [ht])

theorem Start.legible {start : Option Stmt} (h : Start k ts start k')
    (hts : ∀ t ∈ ts, t.Legible) : ∀ s ∈ start, s.Legible := by
  cases h with
  | absent => exact nofun
  | varDecl h => exact fun s hs => Option.some.inj hs ▸ h.legible hts
  | expression h => exact fun s hs => Option.some.inj hs ▸ h.legible hts

theorem Parameters.legible (h : Parameters ts names) (hts : ∀ t ∈ ts, t.Legible) :
    ∀ name ∈ names, name.IsOne [.identifier] := fun name hname =>
  (hts name (h.taken name hname).1).isOne (h.taken name hname).2

theorem Superclass.legible {superclass : Option Reference} (h : Superclass k ts superclass k')
    (hts : ∀ t ∈ ts, t.Legible) : ∀ use ∈ superclass, use.name.IsOne [.identifier] := by
  cases h with
  | absent => exact nofun
  | present _ hname => exact fun use huse => Option.some.inj huse ▸ (hts _ (by simp)).isOne hname

theorem withIncrement_legible {increment : Option Expr} {body : Stmt}
    (hincrement : ∀ e ∈ increment, e.Legible) (hbody : body.Legible) :
    (withIncrement body increment).Legible := by
  cases increment with
  | none => exact hbody
  | some e => exact ⟨hbody, hincrement e rfl, trivial⟩

/-- The condition that is not there is the constant `true`. -/
theorem countingLoop_legible {start : Option Stmt} {condition increment : Option Expr} {body : Stmt}
    (hstart : ∀ s ∈ start, s.Legible) (hcondition : ∀ e ∈ condition, e.Legible)
    (hincrement : ∀ e ∈ increment, e.Legible) (hbody : body.Legible) :
    (countingLoop start condition increment body).Legible := by
  have hloop : (Stmt.loop (condition.getD (.literal (.bool true)))
      (withIncrement body increment)).Legible := by
    refine ⟨?_, withIncrement_legible hincrement hbody⟩
    cases condition with
    | none => trivial
    | some e => exact hcondition e rfl
  cases start with
  | none => exact hloop
  | some s => exact ⟨hstart s rfl, hloop, trivial⟩

mutual

theorem Statement.legible : ∀ {isOpen : Bool} {k k' : Nat} {ts : List Token} {s : Stmt},
    Statement isOpen k ts s k' → (∀ t ∈ ts, t.Legible) → s.Legible
  | _, _, _, _, _, .expression h, hts => h.legible hts
  | _, _, _, _, _, .print _ h _, hts => h.legible fun t ht => hts t (by simp [ht])
  | _, _, _, _, _, .giveBack hword h _, hts =>
    ⟨(hts _ (by simp)).isOne hword, h.legible fun t ht => hts t (by simp [ht])⟩
  | _, _, _, _, _, .block _ h _, hts => h.legible fun t ht => hts t (by simp [ht])
  | _, _, _, _, _, .ifThen _ _ h _ h', hts =>
    ⟨h.legible fun t ht => hts t (by simp [ht]), h'.legible fun t ht => hts t (by simp [ht])⟩
  | _, _, _, _, _, .ifElse _ _ h _ h' _ h'', hts =>
    ⟨h.legible fun t ht => hts t (by simp [ht]), h'.legible fun t ht => hts t (by simp [ht]),
      h''.legible fun t ht => hts t (by simp [ht])⟩
  | _, _, _, _, _, .whileLoop _ _ h _ h', hts =>
    ⟨h.legible fun t ht => hts t (by simp [ht]), h'.legible fun t ht => hts t (by simp [ht])⟩
  | _, _, _, _, _, .forLoop _ _ hstart hcondition _ hincrement _ h, hts =>
    countingLoop_legible (hstart.legible fun t ht => hts t (by simp [ht]))
      (hcondition.legible fun t ht => hts t (by simp [ht]))
      (hincrement.legible fun t ht => hts t (by simp [ht]))
      (h.legible fun t ht => hts t (by simp [ht]))

theorem Declaration.legible : ∀ {k k' : Nat} {ts : List Token} {s : Stmt},
    Declaration k ts s k' → (∀ t ∈ ts, t.Legible) → s.Legible
  | _, _, _, _, .classDecl _ hname hsuperclass _ h _, hts =>
    ⟨(hts _ (by simp)).isOne hname, hsuperclass.legible fun t ht => hts t (by simp [ht]),
      h.legible fun t ht => hts t (by simp [ht])⟩
  | _, _, _, _, .functionDecl _ h, hts => h.legible fun t ht => hts t (by simp [ht])
  | _, _, _, _, .varDecl h, hts => h.legible hts
  | _, _, _, _, .statement h, hts => h.legible hts

theorem Declarations.legible : ∀ {k k' : Nat} {ts : List Token} {ss : List Stmt},
    Declarations k ts ss k' → (∀ t ∈ ts, t.Legible) → Stmt.AllLegible ss
  | _, _, _, _, .nil, _ => trivial
  | _, _, _, _, .cons h h', hts =>
    ⟨h.legible fun t ht => hts t (by simp [ht]), h'.legible fun t ht => hts t (by simp [ht])⟩

theorem Callable.legible : ∀ {k k' : Nat} {ts : List Token} {f : Function},
    Callable k ts f k' → (∀ t ∈ ts, t.Legible) → f.Legible
  | _, _, _, _, .mk hname _ hparams _ _ _ h _, hts =>
    ⟨(hts _ (by simp)).isOne hname, hparams.legible fun t ht => hts t (by simp [ht]),
      h.legible fun t ht => hts t (by simp [ht])⟩

theorem Callables.legible : ∀ {k k' : Nat} {ts : List Token} {fs : List Function},
    Callables k ts fs k' → (∀ t ∈ ts, t.Legible) → Function.AllLegible fs
  | _, _, _, _, .nil, _ => trivial
  | _, _, _, _, .cons h h', hts =>
    ⟨h.legible fun t ht => hts t (by simp [ht]), h'.legible fun t ht => hts t (by simp [ht])⟩

end

end Grammar

/-- What is read from a telling source is legible. -/
theorem Source.Telling.legible {source : String} (h : Source.Telling source) {k : Nat}
    {P : List Stmt} (hread : (Source.read source k).result = .ok P) : Stmt.AllLegible P := by
  refine (Source.read_derives hread).legible fun t ht => ?_
  refine ⟨Source.wellSpelt_of_mem_body t ht, h t ?_⟩
  rw [Source.tokens_eq]
  exact List.mem_append_left _ ht

end Lox
