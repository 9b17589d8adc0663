import Lox.Proofs.Respelling.Twins

/-!
# How twins change

The two programs do the same to their heaps: both bind a name, each as the scope is spelled, both
set a field, or both add a scope, a function, a class or an object. From this all that a call, a
method that is bound, or a declaration does to the heaps is put together.
-/

namespace Lox

open Respelling (nearest reached same)

/-- A method that is respelled is still the same kind of method. -/
theorem Function.Respells.alike {A : Addresses} {Ways : Respelling → Prop} {E : List Respelling}
    {f f' : Function} (h : f.Respells A Ways E f') (scope : ScopeId) :
    Closure.Alike ⟨f, scope, f.isNamedInitializer⟩ ⟨f', scope, f'.isNamedInitializer⟩ :=
  ⟨rfl, h.isNamedInitializer, h.name, h.arity⟩

namespace Twin

variable {A : Addresses} {Ways : Respelling → Prop} {w : Twin}

/-! ## Names -/

/-- Binds a name in a scope, and its spelling in the twin. -/
def define (w : Twin) (x : ScopeId) (name spelled : String) (v : Value) : Twin :=
  { w with heap := w.heap.define x name v, copy := w.copy.define x spelled v }

theorem extends_define (w : Twin) (x : ScopeId) (name spelled : String) (v : Value) :
    w.Extends (w.define x name spelled v) :=
  ⟨.define _ x name v, .define _ x spelled v, fun _ _ h => h⟩

theorem Matched.define (h : w.Matched) {x : ScopeId} {ρ : Respelling}
    (hx : w.spellings[x.index]? = some ρ) (name : String) (v : Value) :
    (w.define x name (ρ.spell name) v).Matched where
  length := h.length.trans (w.heap.size_define x name v).symm
  scopes_size := by
    show (w.copy.define x _ v).scopes.size = (w.heap.define x name v).scopes.size
    rw [Heap.size_define, Heap.size_define, h.scopes_size]
  functions_size := h.functions_size
  top := h.top
  outermost := (w.heap.outer_define x ⟨0⟩ name v).trans h.outermost
  outer y := by
    show ((w.copy.define x _ v).scopeAt y).outer = ((w.heap.define x name v).scopeAt y).outer
    rw [Heap.outer_define, Heap.outer_define, h.outer]
  bound y τ hy other := by
    show (w.copy.define x _ v).bound? y _ = (w.heap.define x name v).bound? y other
    rw [Heap.bound?_define, Heap.bound?_define, h.bound y τ hy, h.scopes_size]
    by_cases hxy : x = y
    · -- the scope is spelled in one way
      subst hxy
      obtain rfl : ρ = τ := Option.some.inj (hx.symm.trans hy)
      by_cases hname : name = other
      · subst hname
        simp only [and_true]
      · have hspelled : ρ.spell name ≠ ρ.spell other := fun heq => hname (ρ.injective _ _ heq)
        rw [if_neg fun heq => hspelled heq.2, if_neg fun heq => hname heq.2]
    · rw [if_neg fun heq => hxy heq.1.1, if_neg fun heq => hxy heq.1.1]
  functions := h.functions
  classes := h.classes
  objects := h.objects

theorem Sound.define (h : w.Sound A Ways) {x : ScopeId} {ρ : Respelling}
    (hx : w.spellings[x.index]? = some ρ) (name : String) {v : Value} (hv : w.Holds A Ways v) :
    (w.define x name (ρ.spell name) v).Sound A Ways := by
  have hextends := w.extends_define x name (ρ.spell name) v
  refine h.change hextends (h.matched.define hx name v) (fun y other u hu => ?_)
    (fun _ _ _ hu => .inl hu) (fun _ _ _ hf => .inl hf)
  rw [Twin.define, Heap.bound?_define] at hu
  split at hu
  · cases hu
    exact .inr (hv.mono h.matched hextends)
  · exact .inl hu

/-! ## Fields -/

def setField (w : Twin) (o : ObjectId) (name : String) (v : Value) : Twin :=
  { w with heap := w.heap.setField o name v, copy := w.copy.setField o name v }

theorem extends_setField (w : Twin) (o : ObjectId) (name : String) (v : Value) :
    w.Extends (w.setField o name v) :=
  ⟨.setField _ o name v, .setField _ o name v, fun _ _ h => h⟩

theorem Sound.setField (h : w.Sound A Ways) {v : Value} (hv : w.Holds A Ways v) (o : ObjectId)
    (name : String) : (w.setField o name v).Sound A Ways := by
  have hextends := w.extends_setField o name v
  have hobjects : (w.setField o name v).copy.objects = (w.setField o name v).heap.objects := by
    simp only [Twin.setField, Heap.setField, h.matched.objects]
  refine h.change hextends { h.matched with objects := hobjects } (fun _ _ _ hu => .inl hu)
    (fun o' other u hu => ?_) (fun _ _ _ hf => .inl hf)
  rw [Twin.setField, Heap.objectAt_setField] at hu
  split at hu
  · rw [Std.TreeMap.getElem?_insert] at hu
    split at hu
    · cases hu
      exact .inr (hv.mono h.matched hextends)
    · exact .inl hu
  · exact .inl hu

/-! ## Scopes -/

/-- Adds a scope that is spelled in this way. -/
def addScope (w : Twin) (s : Scope) (ρ : Respelling) : Twin :=
  ⟨(w.heap.addScope s).2, (w.copy.addScope s).2, w.spellings ++ [ρ]⟩

theorem extends_addScope (w : Twin) (s : Scope) (ρ : Respelling) :
    w.Extends (w.addScope s ρ) where
  heap := .addScope _ s
  copy := .addScope _ s
  spellings i τ hi := by
    obtain ⟨hlt, -⟩ := List.getElem?_eq_some_iff.mp hi
    show (w.spellings ++ [ρ])[i]? = some τ
    rw [List.getElem?_append_left hlt, hi]

theorem Matched.addScope (h : w.Matched) {s : Scope} {ρ : Respelling}
    (hbindings : ∀ name, s.bindings[ρ.spell name]? = s.bindings[name]?) :
    (w.addScope s ρ).Matched where
  length := by
    show (w.spellings ++ [ρ]).length = (w.heap.scopes.push s).size
    rw [List.length_append, h.length, Array.size_push]
    rfl
  scopes_size := by
    show (w.copy.scopes.push s).size = (w.heap.scopes.push s).size
    rw [Array.size_push, Array.size_push, h.scopes_size]
  functions_size := h.functions_size
  top := (w.extends_addScope s ρ).spellings 0 same h.top
  outermost := by
    have hpos : 0 < w.heap.scopes.size := h.length ▸ (List.getElem?_eq_some_iff.mp h.top).1
    show ((w.heap.addScope s).2.scopeAt ⟨0⟩).outer = none
    rw [Heap.scopeAt_addScope, if_neg (Nat.ne_of_lt hpos)]
    exact h.outermost
  outer x := by
    show ((w.copy.addScope s).2.scopeAt x).outer = ((w.heap.addScope s).2.scopeAt x).outer
    rw [Heap.scopeAt_addScope, Heap.scopeAt_addScope, h.scopes_size]
    split
    · rfl
    · exact h.outer x
  bound x τ hx name := by
    show (w.copy.addScope s).2.bound? x _ = (w.heap.addScope s).2.bound? x name
    rw [Heap.bound?_addScope, Heap.bound?_addScope, h.scopes_size, ← h.length]
    rcases Heap.getElem?_snoc hx with ⟨hnew, rfl⟩ | ⟨hold, hx⟩
    · rw [if_pos hnew, if_pos hnew]
      exact hbindings name
    · rw [if_neg hold, if_neg hold]
      exact h.bound x τ hx name
  functions := h.functions
  classes := h.classes
  objects := h.objects

theorem Sound.addScope (h : w.Sound A Ways) {s : Scope} {ρ : Respelling}
    (hbindings : ∀ name, s.bindings[ρ.spell name]? = s.bindings[name]?)
    (hvalues : ∀ (name : String) v, s.bindings[name]? = some v → w.Holds A Ways v) :
    (w.addScope s ρ).Sound A Ways := by
  have hextends := w.extends_addScope s ρ
  refine h.change hextends (h.matched.addScope hbindings) (fun x name v hv => ?_)
    (fun _ _ _ hu => .inl hu) (fun _ _ _ hf => .inl hf)
  rw [Twin.addScope, Heap.bound?_addScope] at hv
  split at hv
  · exact .inr ((hvalues name v hv).mono h.matched hextends)
  · exact .inl hv

/-- A scope with nothing in it can be spelled in any way. -/
theorem Sound.addEmpty (h : w.Sound A Ways) (outer : ScopeId) (ρ : Respelling) :
    (w.addScope ⟨∅, some outer⟩ ρ).Sound A Ways :=
  h.addScope (fun _ => by simp) (fun name v hv => by simp at hv)

/-- A scope that is made with a value in it that is no function. -/
theorem Sound.addSpecial (h : w.Sound A Ways) (outer : ScopeId) (name : String) {v : Value}
    (hv : ∀ f, v ≠ .function f) :
    (w.addScope ⟨(∅ : Bindings).insert name v, some outer⟩ same).Sound A Ways := by
  refine h.addScope (fun _ => rfl) fun other u hu => ?_
  rw [Std.TreeMap.getElem?_insert] at hu
  split at hu
  · cases hu
    exact holds_of_ne hv
  · simp at hu

theorem Spells.addScope (h : w.Matched) {x : ScopeId} {E : List Respelling} (hx : w.Spells x E)
    (bindings : Bindings) (ρ : Respelling) :
    (w.addScope ⟨bindings, some x⟩ ρ).Spells ⟨w.heap.scopes.size⟩ (ρ :: E) := by
  refine ⟨?_, x, ?_, hx.mono (w.extends_addScope _ ρ)⟩
  · show (w.spellings ++ [ρ])[w.heap.scopes.size]? = some ρ
    rw [← h.length, List.getElem?_concat_length]
  · show ((w.heap.addScope _).2.scopeAt _).outer = some x
    rw [Heap.scopeAt_addScope, if_pos rfl]

/-! ## Functions, classes and objects -/

def addFunction (w : Twin) (c c' : Closure) : Twin :=
  { w with heap := (w.heap.addFunction c).2, copy := (w.copy.addFunction c').2 }

theorem extends_addFunction (w : Twin) (c c' : Closure) : w.Extends (w.addFunction c c') :=
  ⟨.addFunction _ c, .addFunction _ c', fun _ _ h => h⟩

theorem Matched.addFunction (h : w.Matched) {c c' : Closure} (hc : c.Alike c') :
    (w.addFunction c c').Matched where
  length := h.length
  scopes_size := h.scopes_size
  functions_size := by
    show (w.copy.functions.push c').size = (w.heap.functions.push c).size
    rw [Array.size_push, Array.size_push, h.functions_size]
  top := h.top
  outermost := h.outermost
  outer := h.outer
  bound := h.bound
  functions f := by
    show ((w.heap.addFunction c).2.functionAt f).Alike ((w.copy.addFunction c').2.functionAt f)
    rw [Heap.functionAt_addFunction, Heap.functionAt_addFunction, h.functions_size]
    split
    · exact hc
    · exact h.functions f
  classes := h.classes
  objects := h.objects

theorem Sound.addFunction (h : w.Sound A Ways) {c c' : Closure} (hc : c.Alike c') :
    (w.addFunction c c').Sound A Ways :=
  h.change (w.extends_addFunction c c') (h.matched.addFunction hc) (fun _ _ _ hu => .inl hu)
    (fun _ _ _ hu => .inl hu) (fun _ _ _ hf => .inl hf)

/-- The function that was added, on both heaps. -/
theorem Matched.addFunction_at (h : w.Matched) (c c' : Closure) :
    (⟨w.heap.functions.size⟩ : FunctionId).index < (w.addFunction c c').heap.functions.size ∧
      (w.addFunction c c').heap.functionAt ⟨w.heap.functions.size⟩ = c ∧
      (w.addFunction c c').copy.functionAt ⟨w.heap.functions.size⟩ = c' := by
  refine ⟨?_, (w.heap.functionAt_addFunction c _).trans (if_pos rfl), ?_⟩
  · show w.heap.functions.size < (w.heap.functions.push c).size
    rw [Array.size_push]
    exact Nat.lt_succ_self _
  · exact (w.copy.functionAt_addFunction c' _).trans (if_pos h.functions_size.symm)

theorem Matched.exists_respells_addFunction (around : List Respelling → List Respelling)
    (h : w.Matched) {c c' : Closure} {E : List Respelling} (hscope : w.Spells c.scope E)
    (hdeclared : c.declared.Respells A Ways (around E) c'.declared) :
    ∃ E, (w.addFunction c c').Spells
        ((w.addFunction c c').heap.functionAt ⟨w.heap.functions.size⟩).scope E ∧
      ((w.addFunction c c').heap.functionAt ⟨w.heap.functions.size⟩).declared.Respells A Ways
        (around E) ((w.addFunction c c').copy.functionAt ⟨w.heap.functions.size⟩).declared := by
  obtain ⟨-, hat, hat'⟩ := h.addFunction_at c c'
  rw [hat, hat']
  exact ⟨E, hscope.mono (w.extends_addFunction c c'), hdeclared⟩

theorem Matched.callable_addFunction (h : w.Matched) {c c' : Closure} {E : List Respelling}
    (hscope : w.Spells c.scope E) (hdeclared : c.declared.Respells A Ways E c'.declared) :
    (w.addFunction c c').Callable A Ways ⟨w.heap.functions.size⟩ where
  index := (h.addFunction_at c c').1
  declared := h.exists_respells_addFunction id hscope hdeclared

theorem Matched.method_addFunction (h : w.Matched) {c c' : Closure} {E : List Respelling}
    (hscope : w.Spells c.scope E) (hdeclared : c.declared.Respells A Ways (same :: E) c'.declared) :
    (w.addFunction c c').Method A Ways ⟨w.heap.functions.size⟩ where
  index := (h.addFunction_at c c').1
  declared := h.exists_respells_addFunction (same :: ·) hscope hdeclared

def addClass (w : Twin) (c : Class) : Twin :=
  { w with heap := (w.heap.addClass c).2, copy := (w.copy.addClass c).2 }

theorem extends_addClass (w : Twin) (c : Class) : w.Extends (w.addClass c) :=
  ⟨.addClass _ c, .addClass _ c, fun _ _ h => h⟩

theorem Sound.addClass (h : w.Sound A Ways) {c : Class}
    (hc : ∀ (name : String) f, c.methods[name]? = some f → w.Method A Ways f) :
    (w.addClass c).Sound A Ways := by
  have hextends := w.extends_addClass c
  have hclasses : (w.addClass c).copy.classes = (w.addClass c).heap.classes := by
    simp only [Twin.addClass, Heap.addClass, h.matched.classes]
  refine h.change hextends { h.matched with classes := hclasses } (fun _ _ _ hu => .inl hu)
    (fun _ _ _ hu => .inl hu) (fun x name f hf => ?_)
  rw [Twin.addClass, Heap.classAt_addClass] at hf
  split at hf
  · exact .inr ((hc name f hf).mono h.matched hextends)
  · exact .inl hf

def addObject (w : Twin) (o : Object) : Twin :=
  { w with heap := (w.heap.addObject o).2, copy := (w.copy.addObject o).2 }

theorem extends_addObject (w : Twin) (o : Object) : w.Extends (w.addObject o) :=
  ⟨.addObject _ o, .addObject _ o, fun _ _ h => h⟩

/-- A new object has no fields. -/
theorem Sound.addObject (h : w.Sound A Ways) (c : ClassId) :
    (w.addObject ⟨c, ∅⟩).Sound A Ways := by
  have hobjects : (w.addObject ⟨c, ∅⟩).copy.objects = (w.addObject ⟨c, ∅⟩).heap.objects := by
    simp only [Twin.addObject, Heap.addObject, h.matched.objects]
  refine h.change (w.extends_addObject ⟨c, ∅⟩) { h.matched with objects := hobjects }
    (fun _ _ _ hu => .inl hu) (fun o name v hv => ?_) (fun _ _ _ hf => .inl hf)
  rw [Twin.addObject, Heap.objectAt_addObject] at hv
  split at hv
  · simp at hv
  · exact .inl hv

/-! ## Methods -/

/-- Adds the scope of `this`, and the method inside it. -/
def bindMethod (w : Twin) (method : FunctionId) (o : ObjectId) : Twin :=
  let c := w.heap.functionAt method
  let c' := w.copy.functionAt method
  (w.addScope ⟨(∅ : Bindings).insert "this" (.object o), some c.scope⟩ same).addFunction
    { c with scope := ⟨w.heap.scopes.size⟩ } { c' with scope := ⟨w.heap.scopes.size⟩ }

theorem heap_bindMethod (w : Twin) (method : FunctionId) (o : ObjectId) :
    w.heap.bindMethod method o = (⟨w.heap.functions.size⟩, (w.bindMethod method o).heap) :=
  w.heap.bindMethod_eq method o

theorem Matched.copy_bindMethod (h : w.Matched) (method : FunctionId) (o : ObjectId) :
    w.copy.bindMethod method o = (⟨w.heap.functions.size⟩, (w.bindMethod method o).copy) := by
  rw [Heap.bindMethod_eq, h.scopes_size, (h.functions method).scope, ← h.functions_size]
  rfl

/-- Bound to an object, a method can be called. -/
theorem Sound.bindMethod (h : w.Sound A Ways) {method : FunctionId} (hm : w.Method A Ways method)
    (o : ObjectId) : w.Extends (w.bindMethod method o) ∧ (w.bindMethod method o).Sound A Ways ∧
      (w.bindMethod method o).Callable A Ways ⟨w.heap.functions.size⟩ := by
  obtain ⟨-, E, hscope, hdeclared⟩ := hm
  obtain ⟨-, hinitializer, hname, harity⟩ := h.matched.functions method
  have hthis := h.addSpecial (w.heap.functionAt method).scope "this"
    (nofun : ∀ f, Value.object o ≠ .function f)
  have hextends := w.extends_addScope
    ⟨(∅ : Bindings).insert "this" (.object o), some (w.heap.functionAt method).scope⟩ same
  have hinside := hscope.addScope h.matched ((∅ : Bindings).insert "this" (.object o)) same
  refine ⟨hextends.trans (extends_addFunction _ _ _), ?_, ?_⟩
  · exact hthis.addFunction ⟨rfl, hinitializer, hname, harity⟩
  · exact hthis.matched.callable_addFunction hinside hdeclared

/-! ## Calls -/

/-- Binds parameters to arguments in a scope, each side as it is spelled. -/
def bindParams (w : Twin) (x : ScopeId) (ρ : Respelling) (params : List Token)
    (args : List Value) : Twin :=
  { w with
    heap := Machine.bindParams x params args w.heap
    copy := Machine.bindParams x (params.map (Token.respelled ρ)) args w.copy }

theorem Sound.bindParams {x : ScopeId} {ρ : Respelling} :
    ∀ {args : List Value} {w : Twin}, w.Sound A Ways → w.spellings[x.index]? = some ρ →
      (∀ v ∈ args, w.Holds A Ways v) → ∀ params : List Token,
      w.Extends (w.bindParams x ρ params args) ∧ (w.bindParams x ρ params args).Sound A Ways
  | _, w, h, _, _, [] => ⟨.refl w, h⟩
  | [], w, h, _, _, _ :: _ => ⟨.refl w, h⟩
  | v :: args, w, h, hx, hargs, p :: params => by
      have hargs' := List.forall_mem_cons.mp hargs
      have hextends := w.extends_define x p.lexeme (ρ.spell p.lexeme) v
      have hdefined := h.define hx p.lexeme hargs'.1
      obtain ⟨hrest, hsound⟩ := hdefined.bindParams hx
        (fun u hu => (hargs'.2 u hu).mono h.matched hextends) params
      exact ⟨hextends.trans hrest, hsound⟩

/-- The scope of a call is spelled as the body is. -/
theorem Sound.enter (h : w.Sound A Ways) {f f' : Closure} (hf : f.Alike f') {E : List Respelling}
    (hscope : w.Spells f.scope E) (hdeclared : f.declared.Respells A Ways E f'.declared)
    {args : List Value} (hargs : ∀ v ∈ args, w.Holds A Ways v) :
    ∃ ρ, let w' : Twin := ⟨w.heap.enter f args, w.copy.enter f' args, w.spellings ++ [ρ]⟩
      w.Extends w' ∧ w'.Sound A Ways ∧ w'.Spells ⟨w.heap.scopes.size⟩ (ρ :: E) ∧
        Stmt.AllRespell A Ways (ρ :: E) f.declared.body f'.declared.body := by
  obtain ⟨ρ, hparams, hbody⟩ := hdeclared.call
  have hextends := w.extends_addScope ⟨∅, some f.scope⟩ ρ
  have hinside := hscope.addScope h.matched ∅ ρ
  obtain ⟨hbound, hsound⟩ := (h.addEmpty f.scope ρ).bindParams hinside.1
    (fun v hv => (hargs v hv).mono h.matched hextends) f.declared.params
  have hentered : (⟨w.heap.enter f args, w.copy.enter f' args, w.spellings ++ [ρ]⟩ : Twin)
      = (w.addScope ⟨∅, some f.scope⟩ ρ).bindParams ⟨w.heap.scopes.size⟩ ρ f.declared.params
        args := by
    rw [Heap.enter, Heap.enter, hparams, hf.scope, h.matched.scopes_size]
    rfl
  refine ⟨ρ, ?_⟩
  dsimp only
  rw [hentered]
  exact ⟨hextends.trans hbound, hsound, hinside.mono hbound, hbody⟩

/-! ## Classes -/

/-- The methods of a class are added under the same names. -/
theorem Sound.foldMethods {scope : ScopeId} {E : List Respelling} :
    ∀ {methods methods' : List Function} {w : Twin} {table : Std.TreeMap String FunctionId},
      Function.AllRespell A Ways E methods methods' → w.Sound A Ways → w.Spells scope E →
      (∀ (name : String) f, table[name]? = some f → w.Method A Ways f) →
      let added := methods.foldl (Machine.addMethod scope) (table, w.heap)
      let added' := methods'.foldl (Machine.addMethod scope) (table, w.copy)
      let w' : Twin := { w with heap := added.2, copy := added'.2 }
      added'.1 = added.1 ∧ w.Extends w' ∧ w'.Sound A Ways ∧
        ∀ (name : String) f, added.1[name]? = some f → w'.Method A Ways f
  | _, _, w, _, .nil, h, _, htable => ⟨rfl, .refl w, h, htable⟩
  | f :: _, f' :: _, w, table, .cons hf hrest, h, hscope, htable => by
      let c : Closure := ⟨f, scope, f.isNamedInitializer⟩
      let c' : Closure := ⟨f', scope, f'.isNamedInitializer⟩
      have hextends := w.extends_addFunction c c'
      have hadded : (w.addFunction c c').Method A Ways ⟨w.heap.functions.size⟩ :=
        h.matched.method_addFunction hscope hf
      have htable' : ∀ (name : String) g,
          (table.insert f.name.lexeme ⟨w.heap.functions.size⟩)[name]? = some g →
          (w.addFunction c c').Method A Ways g := by
        intro name g hg
        rw [Std.TreeMap.getElem?_insert] at hg
        split at hg
        · cases hg
          exact hadded
        · exact (htable name g hg).mono h.matched hextends
      obtain ⟨htables, hextends', hsound, hheld⟩ := foldMethods hrest
        (h.addFunction (hf.alike scope)) (hscope.mono hextends) htable'
      have hfirst : Machine.addMethod scope (table, w.copy) f'
          = (table.insert f.name.lexeme ⟨w.heap.functions.size⟩, (w.copy.addFunction c').2) := by
        rw [Machine.addMethod, hf.name, ← h.matched.functions_size]
        rfl
      dsimp only
      rw [List.foldl_cons, List.foldl_cons, hfirst]
      exact ⟨htables, hextends.trans hextends', hsound, hheld⟩

/-- A class is added with its name. -/
theorem Sound.addDeclared (h : w.Sound A Ways) {x y : ScopeId} {ρ : Respelling} {name : String}
    (hx : w.spellings[x.index]? = some ρ) (hfixed : ρ.spell name = name) {E : List Respelling}
    (hy : w.Spells y E) {methods methods' : List Function}
    (hmethods : Function.AllRespell A Ways E methods methods') (superclass : Option ClassId) :
    let w' : Twin := { w with
      heap := w.heap.addDeclared x name superclass y methods
      copy := w.copy.addDeclared x name superclass y methods' }
    w.Extends w' ∧ w'.Sound A Ways := by
  have hnone : ∀ (name : String) f, (∅ : Std.TreeMap String FunctionId)[name]? = some f →
      w.Method A Ways f := fun name f hf => by simp at hf
  obtain ⟨htables, hextends, hsound, hheld⟩ := foldMethods hmethods h hy hnone
  let added := Machine.addMethods y methods w.heap
  let added' := Machine.addMethods y methods' w.copy
  let c : Class := ⟨name, superclass, added.1⟩
  let v : Value := .classObject ⟨added.2.classes.size⟩
  let w₁ : Twin := { w with heap := added.2, copy := added'.2 }
  have hclass : (w₁.addClass c).Sound A Ways := hsound.addClass hheld
  have hv : (w₁.addClass c).Holds A Ways v := holds_of_ne nofun
  have hdefined := hclass.define hx name hv
  rw [hfixed] at hdefined
  have hcopy : w.copy.addDeclared x name superclass y methods'
      = ((w₁.addClass c).define x name name v).copy := by
    have htable : added'.1 = added.1 := htables
    have hclasses : added'.2.classes = added.2.classes := hsound.matched.classes
    show (added'.2.addClass ⟨name, superclass, added'.1⟩).2.define x name
      (.classObject ⟨added'.2.classes.size⟩) = _
    rw [htable, hclasses]
    rfl
  dsimp only
  rw [hcopy]
  exact ⟨(hextends.trans (extends_addClass _ _)).trans (extends_define _ _ _ _ _), hdefined⟩

/-- The name of a class is spelled as before. -/
theorem Sound.declareClass {st : State} {copy : Heap} {spellings : List Respelling}
    (h : Sound A Ways ⟨st.heap, copy, spellings⟩) {E : List Respelling}
    (hscope : Spells ⟨st.heap, copy, spellings⟩ st.scope E) {name : Token}
    (hfixed : (nearest E).spell name.lexeme = name.lexeme) {methods methods' : List Function}
    (superclass : Option ClassId)
    (hmethods : Function.AllRespell A Ways (superclass.toList.map (fun _ => same) ++ E) methods
      methods') :
    let st' : State := { st with heap := copy }
    let w' : Twin := ⟨(Machine.declareClass st name superclass methods).heap,
      (Machine.declareClass st' name superclass methods').heap,
      spellings ++ superclass.toList.map fun _ => same⟩
    Extends ⟨st.heap, copy, spellings⟩ w' ∧ w'.Sound A Ways := by
  intro st' w'
  let w : Twin := ⟨st.heap, copy, spellings⟩
  have hnil : w.Holds A Ways .nil := holds_of_ne nofun
  have hnearest := hscope.nearest h.matched
  have hextends := w.extends_define st.scope name.lexeme name.lexeme .nil
  have hdefined := h.define hnearest name.lexeme hnil
  rw [hfixed] at hdefined
  cases superclass with
  | none =>
      obtain ⟨hextends', hsound⟩ :=
        hdefined.addDeclared hnearest hfixed (hscope.mono hextends) hmethods none
      have hspellings :
          spellings ++ (none : Option ClassId).toList.map (fun _ => same) = spellings :=
        List.append_nil spellings
      dsimp only [w']
      rw [Machine.heap_declareClass, Machine.heap_declareClass, hspellings]
      exact ⟨hextends.trans hextends', hsound⟩
  | some parent =>
      -- the scope of `super` is there before the methods are closed over it
      let bindings : Bindings := (∅ : Bindings).insert "super" (.classObject parent)
      let w₁ := w.define st.scope name.lexeme name.lexeme .nil
      have hsuper := hdefined.addSpecial st.scope "super"
        (nofun : ∀ f, Value.classObject parent ≠ .function f)
      have hadded := w₁.extends_addScope ⟨bindings, some st.scope⟩ same
      have hinside := (hscope.mono hextends).addScope hdefined.matched bindings same
      obtain ⟨hextends', hsound⟩ := hsuper.addDeclared (hadded.spellings _ _ hnearest) hfixed
        hinside hmethods (some parent)
      have hsize : (copy.define st.scope name.lexeme .nil).scopes.size
          = (st.heap.define st.scope name.lexeme .nil).scopes.size := hdefined.matched.scopes_size
      dsimp only [w']
      rw [Machine.heap_declareClass, Machine.heap_declareClass]
      dsimp only [st']
      rw [hsize]
      exact ⟨(hextends.trans hadded).trans hextends', hsound⟩

end Twin

end Lox
