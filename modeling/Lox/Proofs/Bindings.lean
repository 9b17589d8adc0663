import Lox.Proofs.Growth

/-!
# What a step binds

Calls, blocks, methods that are bound and classes with a superclass all bind names in scopes that
they have just made. In a scope that was there before, a step binds at most one name: a declaration
binds its name in the innermost scope, and an assignment binds its name where it is found.
-/

namespace Lox

/-! ## Scopes that were there before -/

namespace Heap

/-- The first `size` scopes bind the same names to the same values. -/
def Agrees (size : Nat) (h h' : Heap) : Prop :=
  ∀ x : ScopeId, x.index < size → ∀ name, h'.bound? x name = h.bound? x name

namespace Agrees

variable {size : Nat} {h h' h'' : Heap}

theorem trans (ha : Agrees size h h') (ha' : Agrees size h' h'') : Agrees size h h'' :=
  fun x hx name => (ha' x hx name).trans (ha x hx name)

theorem of_scopes (hscopes : h'.scopes = h.scopes) : Agrees size h h' := by
  intro x _ name
  rw [bound?, bound?, scopeAt, scopeAt, hscopes]

theorem addScope (hsize : size ≤ h.scopes.size) (s : Scope) : Agrees size h (h.addScope s).2 := by
  intro x hx name
  have hne : x.index ≠ h.scopes.size := by omega
  rw [bound?, bound?, scopeAt_addScope, if_neg hne]

theorem define {y : ScopeId} (hy : size ≤ y.index) (h : Heap) (name : String) (v : Value) :
    Agrees size h (h.define y name v) := by
  intro x hx other
  have hne : ¬ ((y = x ∧ x.index < h.scopes.size) ∧ name = other) := by
    rintro ⟨⟨rfl, -⟩, -⟩
    omega
  rw [bound?_define, if_neg hne]

/-- A method is bound in a scope of its own. -/
theorem bindMethod (hsize : size ≤ h.scopes.size) (method : FunctionId) (o : ObjectId) :
    Agrees size h (h.bindMethod method o).2 :=
  ((addScope hsize _).trans (define hsize _ _ _)).trans (of_scopes rfl)

theorem bindParams {y : ScopeId} (hy : size ≤ y.index) :
    ∀ (params : List Token) (args : List Value) (h : Heap),
      Agrees size h (Machine.bindParams y params args h)
  | [], _, _ => of_scopes rfl
  | _ :: _, [], _ => of_scopes rfl
  | p :: params, v :: args, h => (define hy h p.lexeme v).trans (bindParams hy params args _)

theorem enter (hsize : size ≤ h.scopes.size) (f : Closure) (args : List Value) :
    Agrees size h (h.enter f args) :=
  (addScope hsize _).trans (bindParams hsize f.declared.params args _)

end Agrees

/-- Of all that is done for a class only its name is bound. -/
theorem bound?_addDeclared (h : Heap) (x y : ScopeId) (name other : String)
    (superclass : Option ClassId) (scope : ScopeId) (methods : List Function) :
    (h.addDeclared x name superclass scope methods).bound? y other
      = (h.define x name (.classObject ⟨h.classes.size⟩)).bound? y other := by
  obtain ⟨hscopes, hclasses⟩ := addMethods_same scope methods h
  unfold addDeclared
  simp only [bound?, scopeAt, define, addClass, hscopes, hclasses]

end Heap

/-! ## Steps -/

namespace Machine

/-- In a scope that was there before, the next step binds at most this name: it declares it in the
innermost scope, or it gives it a new value. -/
inductive Binds (m : Machine) (x : ScopeId) (name : String) : Prop where
  | declares {t : Token} :
      m.declaring? = some t → t.lexeme = name → x = m.state.scope → Binds m x name
  | assigns {v : Value} {use : Reference} {frames : List Frame} :
      m.control = .complete (.normal v) → m.frames = .assign use :: frames → use.name.lexeme = name →
      Binds m x name

/-- A declaration binds nothing but its own name. -/
theorem define_binds {m : Machine} {t : Token} (ht : m.declaring? = some t) (h : Heap)
    (v : Value) (x : ScopeId) (name : String) :
    (h.define m.state.scope t.lexeme v).bound? x name = h.bound? x name ∨ m.Binds x name := by
  rw [Heap.bound?_define]
  split
  · next hsame =>
    obtain ⟨⟨hx, -⟩, hname⟩ := hsame
    exact .inr (.declares ht hname hx.symm)
  · exact .inl rfl

theorem declareClass_binds {m : Machine} {t : Token} (ht : m.declaring? = some t)
    (superclass : Option ClassId) (methods : List Function) {x : ScopeId}
    (hx : x.index < m.state.heap.scopes.size) (name : String) :
    (declareClass m.state t superclass methods).heap.bound? x name = m.state.heap.bound? x name ∨
      m.Binds x name := by
  rcases define_binds ht m.state.heap .nil x name with hnil | hbinds
  · rw [heap_declareClass, ← hnil]
    cases superclass with
    | none =>
        dsimp only
        rw [Heap.bound?_addDeclared]
        exact define_binds ht _ _ x name
    | some parent =>
        -- `super` is bound in a new scope
        have hsize : (m.state.heap.define m.state.scope t.lexeme .nil).scopes.size
            = m.state.heap.scopes.size := m.state.heap.size_define _ _ _
        have hadded := Heap.Agrees.addScope
          (Nat.le_refl (m.state.heap.define m.state.scope t.lexeme .nil).scopes.size)
          ⟨(∅ : Bindings).insert "super" (.classObject parent), some m.state.scope⟩
        rw [← hadded x (hsize ▸ hx) name]
        dsimp only
        rw [Heap.bound?_addDeclared]
        exact define_binds ht _ _ x name
  · exact .inr hbinds

/-- **In scopes that were there before, only declarations and assignments bind names.** -/
theorem step_binds (m : Machine) {x : ScopeId} (hx : x.index < m.state.heap.scopes.size)
    (name : String) :
    m.step.state.heap.bound? x name = m.state.heap.bound? x name ∨ m.Binds x name := by
  have hsame {h' : Heap} (h : Heap.Agrees m.state.heap.scopes.size m.state.heap h') :
      h'.bound? x name = m.state.heap.bound? x name ∨ m.Binds x name := .inl (h x hx name)
  have heffect := m.step_effect
  generalize m.step.state.heap = h' at heffect
  cases heffect with
  | nothing => exact .inl rfl
  | declaration v ht => exact define_binds ht _ v x name
  | @assignment _ use _ y hcontrol hframes =>
      by_cases hname : use.name.lexeme = name
      · exact .inr (.assigns hcontrol hframes hname)
      · refine .inl ?_
        rw [Heap.bound?_define, if_neg fun h => hname h.2]
  | field _ _ => exact hsame (.of_scopes rfl)
  | block => exact hsame (.addScope (Nat.le_refl _) _)
  | @function declared ht =>
      exact define_binds ht (m.state.heap.addFunction ⟨declared, m.state.scope, false⟩).2 _ x name
  | classDecl ht _ => exact declareClass_binds ht _ _ hx name
  | method f o => exact hsame (.bindMethod (Nat.le_refl _) f o)
  | call f args => exact hsame (.enter (Nat.le_refl _) f args)
  | object c => exact hsame (.of_scopes rfl)
  | construction c init args =>
      -- the scope of the call comes after that of `this`
      have hobject : Heap.Agrees m.state.heap.scopes.size m.state.heap
          (m.state.heap.addObject ⟨c, ∅⟩).2 := .of_scopes rfl
      have hgrown := (Heap.Grows.bindMethod (m.state.heap.addObject ⟨c, ∅⟩).2 init
        ⟨m.state.heap.objects.size⟩).scopes_size
      exact hsame ((hobject.trans (.bindMethod (Nat.le_refl _) init _)).trans
        (.enter hgrown _ args))

end Machine

end Lox
