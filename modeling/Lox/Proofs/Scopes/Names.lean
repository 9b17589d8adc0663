import Lox.Proofs.Reading
import Lox.Proofs.Scopes.Sites

/-!
# Names and keywords

A word that is read as a name spells no keyword. So no program can declare or assign to `this` or
`super`, and these stand for nothing but the scopes that classes make for them.
-/

namespace Lox

/-! ## Words -/

/-- A word that is not one of the two that scopes of classes bind. -/
def Plain (name : String) : Prop := name ≠ "this" ∧ name ≠ "super"

theorem Keyword.spelling_of_ofSpelling? {word : String} {k : Keyword}
    (h : Keyword.ofSpelling? word = some k) : k.spelling = word := by
  have := List.find?_some h
  simpa using this

namespace Source

/-- A token that is read from a source has the kind that its text stands for. -/
def Spelled (t : Token) : Prop :=
  (t.kind = .identifier → Keyword.ofSpelling? t.lexeme = none) ∧
    ∀ k, t.kind = .keyword k → t.lexeme = k.spelling

/-- If the piece is a token, then it has the kind that its text stands for. -/
def Piece.Spelled (p : Piece) : Prop :=
  ∀ kind line, p.kind = .token kind → Source.Spelled ⟨kind, String.ofList p.text, line⟩

theorem word_spelled (word : List Char) : Piece.Spelled ⟨.token (wordKind word), word⟩ := by
  rintro kind line ⟨⟩
  unfold wordKind
  cases h : Keyword.ofSpelling? (String.ofList word) with
  | none => exact ⟨fun _ => h, fun k hk => nomatch hk⟩
  | some k =>
      refine ⟨fun hk => (nomatch hk), fun k' hk => ?_⟩
      cases hk
      exact (Keyword.spelling_of_ofSpelling? h).symm

/-- A piece that is no word can be spelled in any way. -/
theorem Piece.spelled_of_kind {p : Piece} (hname : p.kind ≠ .token .identifier)
    (hkeyword : ∀ k, p.kind ≠ .token (.keyword k)) : p.Spelled := by
  intro kind line hkind
  refine ⟨fun h => absurd ?_ hname, fun k h => absurd ?_ (hkeyword k)⟩
  · exact hkind.trans (congrArg _ h)
  · exact hkind.trans (congrArg _ h)

theorem firstPiece_spelled (c : Char) (cs : List Char) : (firstPiece c cs).1.Spelled := by
  unfold firstPiece slashPiece stringPiece numberPiece
  repeat' split
  all_goals first
    | exact word_spelled _
    | exact Piece.spelled_of_kind (by simp) (by simp)

theorem body_spelled (source : String) : ∀ t ∈ body source, Spelled t := by
  intro t ht
  obtain ⟨p, hp, hkind, hlexeme, -⟩ := exists_piece ht
  obtain ⟨c, cs, rfl⟩ := exists_firstPiece hp
  have hspelled := firstPiece_spelled c cs t.kind t.line hkind
  rwa [← hlexeme] at hspelled

theorem tokens_spelled (source : String) : ∀ t ∈ tokens source, Spelled t := by
  rw [tokens_eq]
  intro t ht
  rcases List.mem_append.mp ht with ht | ht
  · exact body_spelled source t ht
  · obtain rfl := List.mem_singleton.mp ht
    exact ⟨fun hk => (nomatch hk), fun k hk => nomatch hk⟩

theorem Spelled.plain {t : Token} (h : Spelled t) (hname : t.kind = .identifier) :
    Plain t.lexeme := by
  have hnone := h.1 hname
  constructor
  · intro hthis
    rw [hthis] at hnone
    exact absurd hnone (by decide)
  · intro hsuper
    rw [hsuper] at hnone
    exact absurd hnone (by decide)

end Source

/-! ## Names in a program -/

/-- The token of a use is one of these tokens and has the kind that the use asks for. -/
def Use.TakenFrom (ts : List Token) (u : Use) : Prop :=
  u.reference.name ∈ ts ∧ u.reference.name.kind =
    match u.kind with
    | .read => .identifier
    | .assign => .identifier
    | .this => .keyword .thisWord
    | .super => .keyword .superWord

theorem Use.TakenFrom.mono {ts ts' : List Token} {u : Use} (h : u.TakenFrom ts) (hts : ts ⊆ ts') :
    u.TakenFrom ts' :=
  ⟨hts h.1, h.2⟩

mutual

/-- All names that a statement declares. -/
def Stmt.names : Stmt → List Token
  | .expression _ => []
  | .print _ => []
  | .variableDecl name _ => [name]
  | .block body => Stmt.namesAll body
  | .conditional _ yes none => yes.names
  | .conditional _ yes (some no) => yes.names ++ no.names
  | .loop _ body => body.names
  | .functionDecl declared => declared.names
  | .giveBack _ _ => []
  | .classDecl name _ methods => name :: Function.namesAll methods

def Stmt.namesAll : List Stmt → List Token
  | [] => []
  | s :: ss => s.names ++ Stmt.namesAll ss

def Function.names : Function → List Token
  | .mk name params body => name :: (params ++ Stmt.namesAll body)

def Function.namesAll : List Function → List Token
  | [] => []
  | f :: fs => f.names ++ Function.namesAll fs

end

theorem Function.name_mem (f : Function) : f.name ∈ f.names := by
  cases f with
  | mk name params body => exact List.mem_cons_self ..

/-- What a statement leaves behind is among the names that it declares. -/
theorem Stmt.declaredName_mem {s : Stmt} {t : Token} (h : Scoping.declaredName? s = some t) :
    t ∈ s.names := by
  cases s with
  | variableDecl name value =>
      cases h
      exact List.mem_cons_self ..
  | functionDecl declared =>
      cases h
      exact declared.name_mem
  | classDecl name superclass methods =>
      cases h
      exact List.mem_cons_self ..
  | _ => exact nomatch h

namespace Grammar

theorem Chain.join_uses (c : Chain) (left : Expr) (operator : Token) (right : Expr) :
    (c.join left operator right).uses = left.uses ++ right.uses := by
  cases c <;> rfl

mutual

theorem Expression.taken : ∀ {level : Level} {k k' : Nat} {ts : List Token} {e : Expr},
    Expression level k ts e k' → ∀ u ∈ e.uses, u.TakenFrom ts
  | _, _, _, _, _, .assignName hname _ h, u, hu => by
      rcases List.mem_append.mp hu with hu | hu
      · exact (h.taken u hu).mono fun t ht => by simp [ht]
      · rw [List.mem_singleton.mp hu]
        exact ⟨List.mem_cons_self .., hname⟩
  | _, _, _, _, _, .assignField h _ _ _ h', u, hu => by
      rcases List.mem_append.mp hu with hu | hu
      · exact (h'.taken u hu).mono fun t ht => by simp [ht]
      · exact (h.taken u hu).mono fun t ht => by simp [ht]
  | _, _, _, _, _, .noAssignment h, u, hu => h.taken u hu
  | _, _, _, _, _, .operation h _ h', u, hu => by
      rw [Chain.join_uses] at hu
      rcases List.mem_append.mp hu with hu | hu
      · exact (h.taken u hu).mono fun t ht => by simp [ht]
      · exact (h'.taken u hu).mono fun t ht => by simp [ht]
  | _, _, _, _, _, .operand h, u, hu => h.taken u hu
  | _, _, _, _, _, .unary _ h, u, hu => (h.taken u hu).mono fun t ht => by simp [ht]
  | _, _, _, _, _, .noUnary h, u, hu => h.taken u hu
  | _, _, _, _, _, .call h _ h' _ _, u, hu => by
      rcases List.mem_append.mp hu with hu | hu
      · exact (h.taken u hu).mono fun t ht => by simp [ht]
      · exact (h'.taken u hu).mono fun t ht => by simp [ht]
  | _, _, _, _, _, .get h _ _, u, hu => (h.taken u hu).mono fun t ht => by simp [ht]
  | _, _, _, _, _, .noCall h, u, hu => h.taken u hu
  | _, _, _, _, _, .literal _, _, hu => nomatch hu
  | _, _, _, _, _, .ident hname, u, hu => by
      rw [List.mem_singleton.mp hu]
      exact ⟨List.mem_cons_self .., hname⟩
  | _, _, _, _, _, .this hkeyword, u, hu => by
      rw [List.mem_singleton.mp hu]
      exact ⟨List.mem_cons_self .., hkeyword⟩
  | _, _, _, _, _, .super hkeyword _ _, u, hu => by
      rw [List.mem_singleton.mp hu]
      exact ⟨List.mem_cons_self .., hkeyword⟩
  | _, _, _, _, _, .grouping _ h _, u, hu => (h.taken u hu).mono fun t ht => by simp [ht]

theorem Arguments.taken : ∀ {k k' : Nat} {ts : List Token} {given : List Expr},
    Arguments k ts given k' → ∀ u ∈ Expr.usesAll given, u.TakenFrom ts
  | _, _, _, _, .none, _, hu => nomatch hu
  | _, _, _, _, .first h, u, hu => by
      rw [Expr.usesAll, Expr.usesAll, List.append_nil] at hu
      exact h.taken u hu
  | _, _, _, _, .next h _ _ h', u, hu => by
      rw [Expr.usesAll_append, Expr.usesAll, Expr.usesAll, List.append_nil] at hu
      rcases List.mem_append.mp hu with hu | hu
      · exact (h.taken u hu).mono fun t ht => by simp [ht]
      · exact (h'.taken u hu).mono fun t ht => by simp [ht]

end

/-- The tokens of all uses and of all names that are declared are among these tokens, and have the
kinds that are asked for. -/
structure Taken (ts : List Token) (uses : List (Use × Site)) (names : List Token) : Prop where
  uses : ∀ p ∈ uses, p.1.TakenFrom ts
  names : ∀ t ∈ names, t ∈ ts ∧ t.kind = .identifier

namespace Taken

variable {ts ts' : List Token} {uses uses' : List (Use × Site)} {names names' : List Token}

theorem nil : Taken ts [] [] := ⟨fun _ h => (nomatch h), fun _ h => (nomatch h)⟩

theorem mono (h : Taken ts uses names) (hts : ts ⊆ ts') : Taken ts' uses names :=
  ⟨fun p hp => (h.uses p hp).mono hts, fun t ht => ⟨hts (h.names t ht).1, (h.names t ht).2⟩⟩

theorem append (h : Taken ts uses names) (h' : Taken ts' uses' names') :
    Taken (ts ++ ts') (uses ++ uses') (names ++ names') where
  uses p hp := by
    rcases List.mem_append.mp hp with hp | hp
    · exact (h.uses p hp).mono (List.subset_append_left ts ts')
    · exact (h'.uses p hp).mono (List.subset_append_right ts ts')
  names t ht := by
    rcases List.mem_append.mp ht with ht | ht
    · exact ⟨List.mem_append_left _ (h.names t ht).1, (h.names t ht).2⟩
    · exact ⟨List.mem_append_right _ (h'.names t ht).1, (h'.names t ht).2⟩

theorem declare {name : Token} (hname : name.kind = .identifier) (hmem : name ∈ ts)
    (h : Taken ts uses names) : Taken ts uses (name :: names) where
  uses := h.uses
  names t ht := by
    rcases List.mem_cons.mp ht with rfl | ht
    · exact ⟨hmem, hname⟩
    · exact h.names t ht

theorem declareAll {params : List Token} (hparams : ∀ t ∈ params, t ∈ ts ∧ t.kind = .identifier)
    (h : Taken ts uses names) : Taken ts uses (params ++ names) where
  uses := h.uses
  names t ht := by
    rcases List.mem_append.mp ht with ht | ht
    · exact hparams t ht
    · exact h.names t ht

end Taken

theorem Expression.takenAt {level : Level} {k k' : Nat} {ts : List Token} {e : Expr}
    (h : Expression level k ts e k') (site : Site) : Taken ts (e.usesAt site) [] where
  uses p hp := by
    obtain ⟨u, hu, rfl⟩ := List.mem_map.mp hp
    exact h.taken u hu
  names _ ht := nomatch ht

theorem OptionalExpression.taken {k k' : Nat} {ts : List Token} {value : Option Expr}
    (h : OptionalExpression k ts value k') (site : Site) :
    Taken ts (value.elim [] (Expr.usesAt site)) [] := by
  cases h with
  | absent => exact .nil
  | present h => exact h.takenAt site

theorem Variable.taken {k k' : Nat} {ts : List Token} {s : Stmt} (h : Variable k ts s k')
    (site : Site) : Taken ts (s.uses site) s.names := by
  cases h with
  | @mk _ name _ _ _ _ value _ hname hvalue _ =>
      refine .declare hname (by simp) ?_
      cases hvalue with
      | absent => exact .nil
      | present _ h => exact (h.takenAt (site.declare name.lexeme)).mono fun t ht => by simp [ht]

theorem ExpressionStatement.taken {k k' : Nat} {ts : List Token} {s : Stmt}
    (h : ExpressionStatement k ts s k') (site : Site) : Taken ts (s.uses site) s.names := by
  cases h with
  | mk h _ => exact (h.takenAt site).mono (List.subset_append_left ..)

theorem Parameters.taken : ∀ {ts names : List Token}, Parameters ts names →
    ∀ t ∈ names, t ∈ ts ∧ t.kind = .identifier
  | _, _, .none, _, ht => nomatch ht
  | _, _, .first hname, t, ht => by
      rw [List.mem_singleton.mp ht]
      exact ⟨List.mem_cons_self .., hname⟩
  | _, _, .next h _ _ hname, t, ht => by
      rcases List.mem_append.mp ht with ht | ht
      · exact ⟨List.mem_append_left _ (h.taken t ht).1, (h.taken t ht).2⟩
      · rw [List.mem_singleton.mp ht]
        exact ⟨by simp, hname⟩

theorem Superclass.taken {k k' : Nat} {ts : List Token} {superclass : Option Reference}
    (h : Superclass k ts superclass k') (site : Site) :
    Taken ts (superclass.toList.map fun use => (⟨.read, use⟩, site)) [] := by
  cases h with
  | absent => exact .nil
  | present _ hname =>
      refine ⟨fun p hp => ?_, fun _ ht => nomatch ht⟩
      rw [List.mem_singleton.mp hp]
      exact ⟨by simp, hname⟩

/-- The clauses of a counting loop are spread over nested blocks. -/
theorem countingLoop_taken {ts₁ ts₂ ts₃ ts₄ ts : List Token} {k k' : Nat} {start : Option Stmt}
    {condition increment : Option Expr} {body : Stmt} (h₁ : Start k ts₁ start k')
    (h₂ : ∀ site, Taken ts₂ (condition.elim [] (Expr.usesAt site)) [])
    (h₃ : ∀ site, Taken ts₃ (increment.elim [] (Expr.usesAt site)) [])
    (h₄ : ∀ site, Taken ts₄ (body.uses site) body.names)
    (hts : ts₁ ++ (ts₂ ++ (ts₃ ++ ts₄)) ⊆ ts) (site : Site) :
    Taken ts ((countingLoop start condition increment body).uses site)
      (countingLoop start condition increment body).names := by
  have hbody : ∀ site, Taken (ts₄ ++ ts₃) ((withIncrement body increment).uses site)
      (withIncrement body increment).names := by
    intro site
    cases increment with
    | none => exact (h₄ site).mono (List.subset_append_left ..)
    | some e =>
        let inner : Site := (.block [body, .expression e], []) :: site
        have h := (h₄ inner).append ((h₃ (inner.after body)).append (.nil : Taken [] [] []))
        rw [List.append_nil] at h
        exact h
  have hloop : ∀ site, Taken (ts₂ ++ (ts₄ ++ ts₃))
      ((Stmt.loop (condition.getD (.literal (.bool true))) (withIncrement body increment)).uses
        site) (withIncrement body increment).names := by
    intro site
    have hcondition : (condition.getD (.literal (.bool true))).usesAt site
        = condition.elim [] (Expr.usesAt site) := by
      cases condition <;> rfl
    rw [Stmt.uses, hcondition]
    exact (h₂ site).append (hbody site)
  cases start with
  | none =>
      refine (hloop site).mono fun t ht => hts ?_
      simp only [List.mem_append] at ht ⊢
      grind
  | some s =>
      let loop := Stmt.loop (condition.getD (.literal (.bool true))) (withIncrement body increment)
      let inner : Site := (.block [s, loop], []) :: site
      have hstart : Taken ts₁ (s.uses inner) s.names := by
        cases h₁ with
        | varDecl h => exact h.taken inner
        | expression h => exact h.taken inner
      have h := hstart.append ((hloop (inner.after s)).append (.nil : Taken [] [] []))
      refine Taken.mono h fun t ht => hts ?_
      simp only [List.mem_append, List.append_nil] at ht ⊢
      grind

mutual

theorem Statement.taken : ∀ {isOpen : Bool} {k k' : Nat} {ts : List Token} {s : Stmt},
    Statement isOpen k ts s k' → ∀ site, Taken ts (s.uses site) s.names
  | _, _, _, _, _, .expression h, site => h.taken site
  | _, _, _, _, _, .print _ h _, site => (h.takenAt site).mono fun t ht => by simp [ht]
  | _, _, _, _, _, .giveBack _ h _, site => (h.taken site).mono fun t ht => by simp [ht]
  | _, _, _, _, _, .block _ h _, site => (h.taken _).mono fun t ht => by simp [ht]
  | _, _, _, _, _, .ifThen _ _ h _ h', site =>
      ((h.takenAt site).append (h'.taken site)).mono fun t ht => by
        rcases List.mem_append.mp ht with ht | ht <;> simp [ht]
  | _, _, _, _, _, .ifElse _ _ h _ h' _ h'', site =>
      ((h.takenAt site).append ((h'.taken site).append (h''.taken site))).mono fun t ht => by
        rcases List.mem_append.mp ht with ht | ht
        · simp [ht]
        · rcases List.mem_append.mp ht with ht | ht <;> simp [ht]
  | _, _, _, _, _, .whileLoop _ _ h _ h', site =>
      ((h.takenAt site).append (h'.taken site)).mono fun t ht => by
        rcases List.mem_append.mp ht with ht | ht <;> simp [ht]
  | _, _, _, _, _, .forLoop _ _ h₁ h₂ _ h₃ _ h₄, site =>
      countingLoop_taken h₁ h₂.taken h₃.taken h₄.taken (fun t ht => by
        simp only [List.mem_append, List.mem_cons] at ht ⊢
        grind) site

theorem Declaration.taken : ∀ {k k' : Nat} {ts : List Token} {s : Stmt},
    Declaration k ts s k' → ∀ site, Taken ts (s.uses site) s.names
  | _, _, _, _, .classDecl _ hname h _ h' _, site =>
      .declare hname (by simp) (((h.taken site).append (h'.taken _)).mono fun t ht => by
        rcases List.mem_append.mp ht with ht | ht <;> simp [ht])
  | _, _, _, _, .functionDecl _ h, site => (h.taken _).mono fun t ht => by simp [ht]
  | _, _, _, _, .varDecl h, site => h.taken site
  | _, _, _, _, .statement h, site => h.taken site

theorem Declarations.taken : ∀ {k k' : Nat} {ts : List Token} {ss : List Stmt},
    Declarations k ts ss k' → ∀ site, Taken ts (Stmt.usesAll site ss) (Stmt.namesAll ss)
  | _, _, _, _, .nil, _ => .nil
  | _, _, _, _, .cons h h', site => (h.taken site).append (h'.taken _)

theorem Callable.taken : ∀ {k k' : Nat} {ts : List Token} {f : Function},
    Callable k ts f k' → ∀ site, Taken ts (f.uses site) f.names
  | _, _, _, _, .mk hname _ hparams _ _ _ h _, site =>
      .declare hname (List.mem_cons_self ..)
        (.declareAll (fun t ht => ⟨by simp [(hparams.taken t ht).1], (hparams.taken t ht).2⟩)
          ((h.taken _).mono fun t ht => by simp [ht]))

theorem Callables.taken : ∀ {k k' : Nat} {ts : List Token} {fs : List Function},
    Callables k ts fs k' → ∀ site, Taken ts (Function.usesAll site fs) (Function.namesAll fs)
  | _, _, _, _, .nil, _ => .nil
  | _, _, _, _, .cons h h', site => (h.taken _).append (h'.taken site)

end

end Grammar

/-! ## Spelling -/

/-- The name of a use is what its kind asks for. -/
def Use.Spelled (u : Use) : Prop :=
  match u.kind with
  | .read => Plain u.name
  | .assign => Plain u.name
  | .this => u.name = "this"
  | .super => u.name = "super"

/-- A use that is taken from tokens of the right kinds is spelled as it is used. -/
theorem Use.TakenFrom.spelled {ts : List Token} {u : Use} (h : u.TakenFrom ts)
    (hts : ∀ t ∈ ts, Source.Spelled t) : u.Spelled := by
  have hspelled := hts _ h.1
  have hkind := h.2
  unfold Use.Spelled
  cases hk : u.kind with
  | read => exact hspelled.plain (by rw [hkind, hk])
  | assign => exact hspelled.plain (by rw [hkind, hk])
  | this => exact hspelled.2 .thisWord (by rw [hkind, hk])
  | super => exact hspelled.2 .superWord (by rw [hkind, hk])

namespace Source

variable {source : String} {k : Nat} {P : List Stmt}

/-- All names in a program that was read are spelled as they are used. -/
theorem read_spelled (h : (read source k).result = .ok P) :
    (∀ p ∈ Stmt.usesAll [] P, p.1.Spelled) ∧ ∀ t ∈ Stmt.namesAll P, Plain t.lexeme := by
  have htaken := (read_derives h).taken []
  refine ⟨fun p hp => (htaken.uses p hp).spelled (body_spelled source), fun t ht => ?_⟩
  exact (body_spelled source t (htaken.names t ht).1).plain (htaken.names t ht).2

end Source

end Lox
