import Lox.Proofs.Effects

/-!
# Heaps only grow

Whatever a step does to the heap, it does by a few operations, one after the other: a name is bound,
a field is set, or a scope, a function, a class or an object is added. So all that these operations
leave alone, a run leaves alone: things stay where they are, scopes keep their outer scopes, functions
and classes stay what they are, and names stay bound.
-/

namespace Lox

/-- The second heap is made from the first by the operations that there are. -/
inductive Heap.Grows : Heap → Heap → Prop where
  | refl (h : Heap) : Grows h h
  | trans {h h' h'' : Heap} : Grows h h' → Grows h' h'' → Grows h h''
  | define (h : Heap) (x : ScopeId) (name : String) (v : Value) : Grows h (h.define x name v)
  | setField (h : Heap) (o : ObjectId) (name : String) (v : Value) : Grows h (h.setField o name v)
  | addScope (h : Heap) (s : Scope) : Grows h (h.addScope s).2
  | addFunction (h : Heap) (c : Closure) : Grows h (h.addFunction c).2
  | addClass (h : Heap) (c : Class) : Grows h (h.addClass c).2
  | addObject (h : Heap) (o : Object) : Grows h (h.addObject o).2

namespace Heap

theorem size_push_le {α : Type} (xs : Array α) (a : α) : xs.size ≤ (xs.push a).size := by
  rw [Array.size_push]
  omega

namespace Grows

variable {h h' : Heap}

/-! ## What stays -/

theorem scopes_size (hg : h.Grows h') : h.scopes.size ≤ h'.scopes.size := by
  induction hg with
  | trans _ _ ih ih' => exact Nat.le_trans ih ih'
  | define h x name v => exact Nat.le_of_eq (h.size_define x name v).symm
  | addScope h s => exact size_push_le h.scopes s
  | _ => exact Nat.le_refl _

theorem functions_size (hg : h.Grows h') : h.functions.size ≤ h'.functions.size := by
  induction hg with
  | trans _ _ ih ih' => exact Nat.le_trans ih ih'
  | addFunction h c => exact size_push_le h.functions c
  | _ => exact Nat.le_refl _

theorem classes_size (hg : h.Grows h') : h.classes.size ≤ h'.classes.size := by
  induction hg with
  | trans _ _ ih ih' => exact Nat.le_trans ih ih'
  | addClass h c => exact size_push_le h.classes c
  | _ => exact Nat.le_refl _

theorem objects_size (hg : h.Grows h') : h.objects.size ≤ h'.objects.size := by
  induction hg with
  | trans _ _ ih ih' => exact Nat.le_trans ih ih'
  | setField h o name v => exact Nat.le_of_eq Array.size_modify.symm
  | addObject h o => exact size_push_le h.objects o
  | _ => exact Nat.le_refl _

theorem outer (hg : h.Grows h') {x : ScopeId} (hx : x.index < h.scopes.size) :
    (h'.scopeAt x).outer = (h.scopeAt x).outer := by
  induction hg with
  | trans hg _ ih ih' =>
      have hx' := Nat.lt_of_lt_of_le hx hg.scopes_size
      exact (ih' hx').trans (ih hx)
  | define h y name v => exact h.outer_define y x name v
  | addScope h s => rw [scopeAt_addScope, if_neg (Nat.ne_of_lt hx)]
  | _ => rfl

/-- A scope that has an outer one keeps it. -/
theorem outer_some (hg : h.Grows h') {x y : ScopeId} (hy : (h.scopeAt x).outer = some y) :
    (h'.scopeAt x).outer = some y := by
  by_cases hx : x.index < h.scopes.size
  · rw [hg.outer hx, hy]
  · -- where there is no scope there is no outer one
    rw [scopeAt_of_size_le h (Nat.le_of_not_lt hx)] at hy
    exact nomatch hy

/-- A name that is bound stays bound. -/
theorem bound (hg : h.Grows h') {x : ScopeId} {name : String} (hx : (h.bound? x name).isSome) :
    (h'.bound? x name).isSome := by
  induction hg with
  | trans _ _ ih ih' => exact ih' (ih hx)
  | define h y other v => exact h.bound?_define_mono y x other name v hx
  | addScope h s =>
      unfold bound? at hx ⊢
      rw [scopeAt_addScope]
      by_cases hnew : x.index = h.scopes.size
      · -- nothing was bound where there was no scope
        rw [scopeAt_of_size_le h (Nat.le_of_eq hnew.symm)] at hx
        simp at hx
      · rwa [if_neg hnew]
  | _ => exact hx

theorem functionAt (hg : h.Grows h') {f : FunctionId} (hf : f.index < h.functions.size) :
    h'.functionAt f = h.functionAt f := by
  induction hg with
  | trans hg _ ih ih' =>
      have hf' := Nat.lt_of_lt_of_le hf hg.functions_size
      exact (ih' hf').trans (ih hf)
  | addFunction h c => rw [functionAt_addFunction, if_neg (Nat.ne_of_lt hf)]
  | _ => rfl

theorem classAt (hg : h.Grows h') {c : ClassId} (hc : c.index < h.classes.size) :
    h'.classAt c = h.classAt c := by
  induction hg with
  | trans hg _ ih ih' =>
      have hc' := Nat.lt_of_lt_of_le hc hg.classes_size
      exact (ih' hc').trans (ih hc)
  | addClass h d => rw [classAt_addClass, if_neg (Nat.ne_of_lt hc)]
  | _ => rfl

/-- An object gets new fields, but no other class. -/
theorem ofClass (hg : h.Grows h') {o : ObjectId} (ho : o.index < h.objects.size) :
    (h'.objectAt o).ofClass = (h.objectAt o).ofClass := by
  induction hg with
  | trans hg _ ih ih' =>
      have ho' := Nat.lt_of_lt_of_le ho hg.objects_size
      exact (ih' ho').trans (ih ho)
  | setField h x name v =>
      rw [objectAt_setField]
      split <;> rfl
  | addObject h x => rw [objectAt_addObject, if_neg (Nat.ne_of_lt ho)]
  | _ => rfl

/-! ## Methods, parameters and classes -/

theorem bindMethod (h : Heap) (method : FunctionId) (o : ObjectId) :
    h.Grows (h.bindMethod method o).2 :=
  ((Grows.addScope h _).trans (.define _ _ _ _)).trans (.addFunction _ _)

theorem bindParams (scope : ScopeId) : ∀ (params : List Token) (args : List Value) (h : Heap),
    h.Grows (Machine.bindParams scope params args h)
  | [], _, h => .refl h
  | _ :: _, [], h => .refl h
  | p :: params, v :: args, h =>
      (Grows.define h scope p.lexeme v).trans (bindParams scope params args _)

theorem foldMethods (scope : ScopeId) : ∀ (methods : List Function)
    (table : Std.TreeMap String FunctionId) (h : Heap),
      h.Grows (methods.foldl (Machine.addMethod scope) (table, h)).2
  | [], _, h => .refl h
  | _ :: methods, _, h => (Grows.addFunction h _).trans (foldMethods scope methods _ _)

theorem addMethods (scope : ScopeId) (methods : List Function) (h : Heap) :
    h.Grows (Machine.addMethods scope methods h).2 :=
  foldMethods scope methods ∅ h

theorem enter (h : Heap) (f : Closure) (args : List Value) : h.Grows (h.enter f args) :=
  (Grows.addScope h _).trans (.bindParams _ f.declared.params args _)

theorem addDeclared (h : Heap) (x : ScopeId) (name : String) (superclass : Option ClassId)
    (scope : ScopeId) (methods : List Function) :
    h.Grows (h.addDeclared x name superclass scope methods) :=
  ((Grows.addMethods scope methods h).trans (.addClass _ _)).trans (.define _ _ _ _)

theorem declareClass (st : State) (t : Token) (superclass : Option ClassId)
    (methods : List Function) :
    st.heap.Grows (Machine.declareClass st t superclass methods).heap := by
  have hnil := Grows.define st.heap st.scope t.lexeme .nil
  rw [Machine.heap_declareClass]
  cases superclass with
  | none => exact hnil.trans (.addDeclared _ _ _ none _ methods)
  | some parent => exact (hnil.trans (.addScope _ _)).trans (.addDeclared _ _ _ (some parent) _ methods)

end Grows

/-! ## The methods of a class -/

/-- They are only added to the functions. -/
theorem addMethods_same (scope : ScopeId) (methods : List Function) (h : Heap) :
    (Machine.addMethods scope methods h).2.scopes = h.scopes ∧
      (Machine.addMethods scope methods h).2.classes = h.classes := by
  rw [Machine.addMethods_eq]
  generalize (∅ : Std.TreeMap String FunctionId) = table
  induction methods generalizing table h with
  | nil => exact ⟨rfl, rfl⟩
  | cons declared methods ih => exact ih _ _

theorem foldMethods_entry {scope : ScopeId} {name : String} {f : FunctionId} :
    ∀ (methods : List Function) {table : Std.TreeMap String FunctionId} {h : Heap},
      (methods.foldl (Machine.addMethod scope) (table, h)).1[name]? = some f →
      table[name]? = some f ∨
        f.index < (methods.foldl (Machine.addMethod scope) (table, h)).2.functions.size ∧
        ∃ declared ∈ methods, declared.name.lexeme = name ∧
          (methods.foldl (Machine.addMethod scope) (table, h)).2.functionAt f
            = ⟨declared, scope, declared.isNamedInitializer⟩
  | [], _, _, hf => .inl hf
  | declared :: methods, table, h, hf => by
      have hgrown := Grows.foldMethods scope methods
        (table.insert declared.name.lexeme ⟨h.functions.size⟩)
        (h.addFunction ⟨declared, scope, declared.isNamedInitializer⟩).2
      rcases foldMethods_entry methods hf with hfirst | ⟨hlt, other, hother, hat⟩
      · -- no later method has this name, so it is the first one or one from before
        dsimp only [Heap.addFunction] at hfirst
        rw [Std.TreeMap.getElem?_insert] at hfirst
        split at hfirst
        · next hname =>
          have hname : declared.name.lexeme = name := by simpa using hname
          have hnew : (⟨h.functions.size⟩ : FunctionId) = f := Option.some.inj hfirst
          subst hnew
          have hlt : (⟨h.functions.size⟩ : FunctionId).index < (h.addFunction
              ⟨declared, scope, declared.isNamedInitializer⟩).2.functions.size := by
            simp [addFunction]
          refine .inr ⟨Nat.lt_of_lt_of_le hlt hgrown.functions_size, declared,
            List.mem_cons_self .., hname, (hgrown.functionAt hlt).trans ?_⟩
          exact (h.functionAt_addFunction _ _).trans (if_pos rfl)
        · exact .inl hfirst
      · exact .inr ⟨hlt, other, List.mem_cons_of_mem _ hother, hat⟩

/-- What the table has under a name is one of the methods with this name, closed over the scope. -/
theorem addMethods_entry {scope : ScopeId} {methods : List Function} {h : Heap} {name : String}
    {f : FunctionId} (hf : (Machine.addMethods scope methods h).1[name]? = some f) :
    f.index < (Machine.addMethods scope methods h).2.functions.size ∧
      ∃ declared ∈ methods, declared.name.lexeme = name ∧
        (Machine.addMethods scope methods h).2.functionAt f
          = ⟨declared, scope, declared.isNamedInitializer⟩ := by
  rcases foldMethods_entry methods hf with hnone | hentry
  · simp at hnone
  · exact hentry

end Heap

/-! ## Steps -/

namespace Machine

/-- Every step makes the heap grow, if it does anything to it. -/
theorem step_grows (m : Machine) : m.state.heap.Grows m.step.state.heap := by
  have heffect := m.step_effect
  generalize m.step.state.heap = h' at heffect
  cases heffect with
  | nothing => exact .refl _
  | declaration v _ => exact .define _ _ _ v
  | assignment x _ _ => exact .define _ x _ _
  | field _ _ => exact .setField _ _ _ _
  | block => exact .addScope _ _
  | function _ => exact (Heap.Grows.addFunction _ _).trans (.define _ _ _ _)
  | classDecl _ _ => exact .declareClass _ _ _ _
  | method f o => exact .bindMethod _ f o
  | call f args => exact .enter _ f args
  | object c => exact .addObject _ _
  | construction c init args =>
      exact ((Heap.Grows.addObject _ _).trans (.bindMethod _ init _)).trans (.enter _ _ args)

theorem run_grows : ∀ (limit : Nat) (m : Machine), m.state.heap.Grows (run limit m).state.heap
  | 0, m => .refl m.state.heap
  | limit + 1, m => by
      rw [run_succ]
      exact (step_grows m).trans (run_grows limit m.step)

end Machine

end Lox
