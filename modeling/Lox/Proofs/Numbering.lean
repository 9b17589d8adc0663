import Lox.Proofs.Grammar
import Lox.Proofs.Renaming

/-!
# The numbers of references

All references of a program have different numbers, and these lie between the number at which
reading started and the one at which it ended. So what a renaming does to other numbers does not
matter to the program.
-/

namespace Lox

/-! ## The references of a tree -/

mutual

/-- All uses of names in an expression. -/
def Expr.references : Expr → List Reference
  | .literal _ => []
  | .unary _ operand => operand.references
  | .binary left _ right => left.references ++ right.references
  | .logical left _ right => left.references ++ right.references
  | .grouping inner => inner.references
  | .ident use => [use]
  | .assign use value => value.references ++ [use]
  | .call callee _ arguments => callee.references ++ Expr.referencesAll arguments
  | .get object _ => object.references
  | .set object _ value => value.references ++ object.references
  | .this use => [use]
  | .super use _ => [use]

def Expr.referencesAll : List Expr → List Reference
  | [] => []
  | e :: es => e.references ++ Expr.referencesAll es

end

mutual

/-- All uses of names in a statement. -/
def Stmt.references : Stmt → List Reference
  | .expression e => e.references
  | .print e => e.references
  | .variableDecl _ value => value.elim [] Expr.references
  | .block body => Stmt.referencesAll body
  | .conditional condition yes none => condition.references ++ yes.references
  | .conditional condition yes (some no) =>
    condition.references ++ (yes.references ++ no.references)
  | .loop condition body => condition.references ++ body.references
  | .functionDecl declared => declared.references
  | .giveBack _ value => value.elim [] Expr.references
  | .classDecl _ superclass methods => superclass.toList ++ Function.referencesAll methods

def Stmt.referencesAll : List Stmt → List Reference
  | [] => []
  | s :: ss => s.references ++ Stmt.referencesAll ss

/-- All uses of names in the body of a function. -/
def Function.references : Function → List Reference
  | .mk _ _ body => Stmt.referencesAll body

def Function.referencesAll : List Function → List Reference
  | [] => []
  | f :: fs => f.references ++ Function.referencesAll fs

end

theorem Expr.referencesAll_append : ∀ es es' : List Expr,
    Expr.referencesAll (es ++ es') = Expr.referencesAll es ++ Expr.referencesAll es'
  | [], _ => rfl
  | e :: es, es' => by
      rw [List.cons_append, Expr.referencesAll, referencesAll_append es es', Expr.referencesAll,
        List.append_assoc]

/-! ## Renamings that agree on the references -/

section

variable {r r' : Renaming}

/-- The renamings do the same to lines, and to the numbers of these references. -/
def Renaming.AgreeOn (r r' : Renaming) (uses : List Reference) : Prop :=
  r.lines = r'.lines ∧ ∀ use ∈ uses, r.ids use.id = r'.ids use.id

namespace Renaming.AgreeOn

theorem left {uses uses' : List Reference} (h : r.AgreeOn r' (uses ++ uses')) :
    r.AgreeOn r' uses :=
  ⟨h.1, fun use hu => h.2 use (List.mem_append_left _ hu)⟩

theorem right {uses uses' : List Reference} (h : r.AgreeOn r' (uses ++ uses')) :
    r.AgreeOn r' uses' :=
  ⟨h.1, fun use hu => h.2 use (List.mem_append_right _ hu)⟩

theorem token {uses : List Reference} (h : r.AgreeOn r' uses) (t : Token) :
    t.renamed r = t.renamed r' := by
  rw [Token.renamed, Token.renamed, h.1]

theorem reference {uses : List Reference} (h : r.AgreeOn r' uses) {use : Reference}
    (hu : use ∈ uses) : use.renamed r = use.renamed r' := by
  rw [Reference.renamed, Reference.renamed, h.2 use hu, h.token]

end Renaming.AgreeOn

mutual

theorem Expr.renamed_congr : ∀ (e : Expr), r.AgreeOn r' e.references →
    e.renamed r = e.renamed r'
  | .literal _, _ => rfl
  | .unary operator operand, h => by
      rw [Expr.renamed, Expr.renamed, h.token operator, operand.renamed_congr h]
  | .binary left operator right, h => by
      rw [Expr.renamed, Expr.renamed, h.token operator, left.renamed_congr h.left,
        right.renamed_congr h.right]
  | .logical left operator right, h => by
      rw [Expr.renamed, Expr.renamed, h.token operator, left.renamed_congr h.left,
        right.renamed_congr h.right]
  | .grouping inner, h => by rw [Expr.renamed, Expr.renamed, inner.renamed_congr h]
  | .ident use, h => by rw [Expr.renamed, Expr.renamed, h.reference (List.mem_singleton_self _)]
  | .assign use value, h => by
      rw [Expr.renamed, Expr.renamed, value.renamed_congr h.left,
        h.right.reference (List.mem_singleton_self _)]
  | .call callee paren arguments, h => by
      rw [Expr.renamed, Expr.renamed, h.token paren, callee.renamed_congr h.left,
        Expr.renamedAll_congr arguments h.right]
  | .get object name, h => by
      rw [Expr.renamed, Expr.renamed, h.token name, object.renamed_congr h]
  | .set object name value, h => by
      rw [Expr.renamed, Expr.renamed, h.token name, object.renamed_congr h.right,
        value.renamed_congr h.left]
  | .this use, h => by rw [Expr.renamed, Expr.renamed, h.reference (List.mem_singleton_self _)]
  | .super use method, h => by
      rw [Expr.renamed, Expr.renamed, h.reference (List.mem_singleton_self _), h.token method]

theorem Expr.renamedAll_congr : ∀ (es : List Expr), r.AgreeOn r' (Expr.referencesAll es) →
    Expr.renamedAll r es = Expr.renamedAll r' es
  | [], _ => rfl
  | e :: es, h => by
      rw [Expr.renamedAll, Expr.renamedAll, e.renamed_congr h.left,
        Expr.renamedAll_congr es h.right]

end

theorem Renaming.AgreeOn.optional {value : Option Expr}
    (h : r.AgreeOn r' (value.elim [] Expr.references)) :
    value.map (Expr.renamed r) = value.map (Expr.renamed r') := by
  cases value with
  | none => rfl
  | some e => exact congrArg some (e.renamed_congr h)

theorem Renaming.AgreeOn.tokens {uses : List Reference} (h : r.AgreeOn r' uses)
    (ts : List Token) : ts.map (Token.renamed r) = ts.map (Token.renamed r') :=
  List.map_congr_left fun t _ => h.token t

mutual

theorem Stmt.renamed_congr : ∀ (s : Stmt), r.AgreeOn r' s.references →
    s.renamed r = s.renamed r'
  | .expression e, h => by rw [Stmt.renamed, Stmt.renamed, e.renamed_congr h]
  | .print e, h => by rw [Stmt.renamed, Stmt.renamed, e.renamed_congr h]
  | .variableDecl name value, h => by
      rw [Stmt.renamed, Stmt.renamed, h.token name, h.optional]
  | .block body, h => by rw [Stmt.renamed, Stmt.renamed, Stmt.renamedAll_congr body h]
  | .conditional condition yes none, h => by
      rw [Stmt.renamed, Stmt.renamed, condition.renamed_congr h.left, yes.renamed_congr h.right]
  | .conditional condition yes (some no), h => by
      rw [Stmt.renamed, Stmt.renamed, condition.renamed_congr h.left,
        yes.renamed_congr h.right.left, no.renamed_congr h.right.right]
  | .loop condition body, h => by
      rw [Stmt.renamed, Stmt.renamed, condition.renamed_congr h.left, body.renamed_congr h.right]
  | .functionDecl declared, h => by rw [Stmt.renamed, Stmt.renamed, declared.renamed_congr h]
  | .giveBack keyword value, h => by
      rw [Stmt.renamed, Stmt.renamed, h.token keyword, h.optional]
  | .classDecl name superclass methods, h => by
      have hsuperclass : superclass.map (Reference.renamed r)
          = superclass.map (Reference.renamed r') := by
        cases superclass with
        | none => rfl
        | some use => exact congrArg some (h.left.reference (List.mem_singleton_self use))
      rw [Stmt.renamed, Stmt.renamed, h.token name, hsuperclass,
        Function.renamedAll_congr methods h.right]

theorem Stmt.renamedAll_congr : ∀ (ss : List Stmt), r.AgreeOn r' (Stmt.referencesAll ss) →
    Stmt.renamedAll r ss = Stmt.renamedAll r' ss
  | [], _ => rfl
  | s :: ss, h => by
      rw [Stmt.renamedAll, Stmt.renamedAll, s.renamed_congr h.left,
        Stmt.renamedAll_congr ss h.right]

theorem Function.renamed_congr : ∀ (f : Function), r.AgreeOn r' f.references →
    f.renamed r = f.renamed r'
  | .mk name params body, h => by
      rw [Function.renamed, Function.renamed, h.token name, h.tokens params,
        Stmt.renamedAll_congr body h]

theorem Function.renamedAll_congr : ∀ (fs : List Function),
    r.AgreeOn r' (Function.referencesAll fs) →
    Function.renamedAll r fs = Function.renamedAll r' fs
  | [], _ => rfl
  | f :: fs, h => by
      rw [Function.renamedAll, Function.renamedAll, f.renamed_congr h.left,
        Function.renamedAll_congr fs h.right]

end

end

/-! ## Numbers given out while reading -/

/-- Different numbers from `k` up to but not including `k'`. -/
structure Numbered (k k' : Nat) (uses : List Reference) : Prop where
  le : k ≤ k'
  nodup : (uses.map Reference.id).Nodup
  bounded : ∀ use ∈ uses, k ≤ use.id ∧ use.id < k'

namespace Numbered

variable {k k₁ k' : Nat} {uses uses' : List Reference}

theorem nil : Numbered k k [] := ⟨Nat.le_refl _, List.nodup_nil, fun _ h => nomatch h⟩

theorem one (name : Token) : Numbered k (k + 1) [⟨k, name⟩] where
  le := Nat.le_succ k
  nodup := List.nodup_cons.mpr ⟨List.not_mem_nil, List.nodup_nil⟩
  bounded use hu := by
    obtain rfl := List.mem_singleton.mp hu
    exact ⟨Nat.le_refl _, Nat.lt_succ_self _⟩

theorem append (h : Numbered k k₁ uses) (h' : Numbered k₁ k' uses') :
    Numbered k k' (uses ++ uses') where
  le := Nat.le_trans h.le h'.le
  nodup := by
    rw [List.map_append]
    refine List.nodup_append.mpr ⟨h.nodup, h'.nodup, fun i hi j hj => ?_⟩
    obtain ⟨use, hu, rfl⟩ := List.mem_map.mp hi
    obtain ⟨use', hu', rfl⟩ := List.mem_map.mp hj
    have hlt := (h.bounded use hu).2
    have hle := (h'.bounded use' hu').1
    omega
  bounded use hu := by
    rcases List.mem_append.mp hu with hu | hu
    · exact ⟨(h.bounded use hu).1, Nat.lt_of_lt_of_le (h.bounded use hu).2 h'.le⟩
    · exact ⟨Nat.le_trans h.le (h'.bounded use hu).1, (h'.bounded use hu).2⟩

theorem perm (h : Numbered k k' uses) (hp : uses.Perm uses') : Numbered k k' uses' where
  le := h.le
  nodup := (hp.map _).nodup_iff.mp h.nodup
  bounded use hu := h.bounded use (hp.mem_iff.mpr hu)

/-- The number that an assignment takes while its target is read is given up again. -/
theorem after (h : Numbered (k + 1) k' uses) : Numbered k k' uses where
  le := Nat.le_of_succ_le h.le
  nodup := h.nodup
  bounded use hu := ⟨Nat.le_of_succ_le (h.bounded use hu).1, (h.bounded use hu).2⟩

/-- Renamings that agree from `k` on agree on the numbers given out from `k` on. -/
theorem agree {r r' : Renaming} (h : Numbered k k' uses) (hl : r.lines = r'.lines)
    (hr : ∀ i, k ≤ i → i < k' → r.ids i = r'.ids i) : r.AgreeOn r' uses :=
  ⟨hl, fun use hu => hr _ (h.bounded use hu).1 (h.bounded use hu).2⟩

end Numbered

namespace Grammar

theorem Chain.join_references (c : Chain) (left : Expr) (operator : Token) (right : Expr) :
    (c.join left operator right).references = left.references ++ right.references := by
  cases c <;> rfl

mutual

theorem Expression.numbered : ∀ {level : Level} {k k' : Nat} {ts : List Token} {e : Expr},
    Expression level k ts e k' → Numbered k k' e.references
  | _, _, _, _, _, .assignName _ _ h => h.numbered.after.append (.one _)
  | _, _, _, _, _, .assignField h _ _ _ h' =>
      (h.numbered.append h'.numbered).perm List.perm_append_comm
  | _, _, _, _, _, .noAssignment h => h.numbered
  | _, _, _, _, _, .operation h _ h' => by
      rw [Chain.join_references]
      exact h.numbered.append h'.numbered
  | _, _, _, _, _, .operand h => h.numbered
  | _, _, _, _, _, .unary _ h => h.numbered
  | _, _, _, _, _, .noUnary h => h.numbered
  | _, _, _, _, _, .call h _ h' _ _ => h.numbered.append h'.numbered
  | _, _, _, _, _, .get h _ _ => h.numbered
  | _, _, _, _, _, .noCall h => h.numbered
  | _, _, _, _, _, .literal _ => .nil
  | _, _, _, _, _, .ident _ => .one _
  | _, _, _, _, _, .this _ => .one _
  | _, _, _, _, _, .super _ _ _ => .one _
  | _, _, _, _, _, .grouping _ h _ => h.numbered

theorem Arguments.numbered : ∀ {k k' : Nat} {ts : List Token} {given : List Expr},
    Arguments k ts given k' → Numbered k k' (Expr.referencesAll given)
  | _, _, _, _, .none => .nil
  | _, _, _, _, .first h => by
      rw [Expr.referencesAll, Expr.referencesAll, List.append_nil]
      exact h.numbered
  | _, _, _, _, .next h _ _ h' => by
      rw [Expr.referencesAll_append, Expr.referencesAll, Expr.referencesAll, List.append_nil]
      exact h.numbered.append h'.numbered

end

theorem OptionalExpression.numbered {k k' : Nat} {ts : List Token} {value : Option Expr} :
    OptionalExpression k ts value k' → Numbered k k' (value.elim [] Expr.references)
  | .absent => .nil
  | .present h => h.numbered

theorem Variable.numbered {k k' : Nat} {ts : List Token} {s : Stmt} :
    Variable k ts s k' → Numbered k k' s.references
  | .mk _ _ .absent _ => .nil
  | .mk _ _ (.present _ h) _ => h.numbered

theorem ExpressionStatement.numbered {k k' : Nat} {ts : List Token} {s : Stmt} :
    ExpressionStatement k ts s k' → Numbered k k' s.references
  | .mk h _ => h.numbered

theorem Start.numbered {k k' : Nat} {ts : List Token} {start : Option Stmt} :
    Start k ts start k' → Numbered k k' (start.elim [] Stmt.references)
  | .absent _ => .nil
  | .varDecl h => h.numbered
  | .expression h => h.numbered

theorem Superclass.numbered {k k' : Nat} {ts : List Token} {superclass : Option Reference} :
    Superclass k ts superclass k' → Numbered k k' superclass.toList
  | .absent => .nil
  | .present _ _ => .one _

theorem withIncrement_references (body : Stmt) (increment : Option Expr) :
    (withIncrement body increment).references
      = body.references ++ increment.elim [] Expr.references := by
  cases increment with
  | none => exact (List.append_nil _).symm
  | some e => exact congrArg _ (List.append_nil _)

theorem withStart_references (loop : Stmt) (start : Option Stmt) :
    (withStart loop start).references = start.elim [] Stmt.references ++ loop.references := by
  cases start with
  | none => rfl
  | some s => exact congrArg _ (List.append_nil _)

/-- The increment of a counting loop is read before the body. -/
theorem countingLoop_references (start : Option Stmt) (condition increment : Option Expr)
    (body : Stmt) : (start.elim [] Stmt.references ++ (condition.elim [] Expr.references ++
      (increment.elim [] Expr.references ++ body.references))).Perm
        (countingLoop start condition increment body).references := by
  have hcondition : (condition.getD (.literal (.bool true))).references
      = condition.elim [] Expr.references := by
    cases condition <;> rfl
  rw [countingLoop, withStart_references, Stmt.references, withIncrement_references, hcondition]
  exact ((List.perm_append_comm).append_left _).append_left _

mutual

theorem Statement.numbered : ∀ {isOpen : Bool} {k k' : Nat} {ts : List Token} {s : Stmt},
    Statement isOpen k ts s k' → Numbered k k' s.references
  | _, _, _, _, _, .expression h => h.numbered
  | _, _, _, _, _, .print _ h _ => h.numbered
  | _, _, _, _, _, .giveBack _ h _ => h.numbered
  | _, _, _, _, _, .block _ h _ => h.numbered
  | _, _, _, _, _, .ifThen _ _ h _ h' => h.numbered.append h'.numbered
  | _, _, _, _, _, .ifElse _ _ h _ h' _ h'' =>
      h.numbered.append (h'.numbered.append h''.numbered)
  | _, _, _, _, _, .whileLoop _ _ h _ h' => h.numbered.append h'.numbered
  | _, _, _, _, _, .forLoop _ _ h₁ h₂ _ h₃ _ h₄ =>
      (h₁.numbered.append (h₂.numbered.append (h₃.numbered.append h₄.numbered))).perm
        (countingLoop_references _ _ _ _)

theorem Declaration.numbered : ∀ {k k' : Nat} {ts : List Token} {s : Stmt},
    Declaration k ts s k' → Numbered k k' s.references
  | _, _, _, _, .classDecl _ _ h _ h' _ => h.numbered.append h'.numbered
  | _, _, _, _, .functionDecl _ h => h.numbered
  | _, _, _, _, .varDecl h => h.numbered
  | _, _, _, _, .statement h => h.numbered

theorem Declarations.numbered : ∀ {k k' : Nat} {ts : List Token} {ss : List Stmt},
    Declarations k ts ss k' → Numbered k k' (Stmt.referencesAll ss)
  | _, _, _, _, .nil => .nil
  | _, _, _, _, .cons h h' => h.numbered.append h'.numbered

theorem Callable.numbered : ∀ {k k' : Nat} {ts : List Token} {f : Function},
    Callable k ts f k' → Numbered k k' f.references
  | _, _, _, _, .mk _ _ _ _ _ _ h _ => h.numbered

theorem Callables.numbered : ∀ {k k' : Nat} {ts : List Token} {fs : List Function},
    Callables k ts fs k' → Numbered k k' (Function.referencesAll fs)
  | _, _, _, _, .nil => .nil
  | _, _, _, _, .cons h h' => h.numbered.append h'.numbered

end

end Grammar

end Lox
