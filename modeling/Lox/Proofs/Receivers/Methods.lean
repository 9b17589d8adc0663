import Lox.Proofs.Bindings
import Lox.Proofs.Receivers.Uses

/-!
# Methods on the heap

A class keeps its superclass and its methods, and a method that is bound to an object keeps the scope
of its `this`. No program can give `this` or `super` another value in a scope that is there: they are
no names that a program declares or assigns to.
-/

namespace Lox

namespace Heap

/-! ## Special names -/

/-- The heap has grown, and the special names are bound to what they were bound to. -/
structure Keeps (h h' : Heap) : Prop where
  grows : h.Grows h'
  special : ∀ x : ScopeId, x.index < h.scopes.size → ∀ name, ¬ Plain name →
    h'.bound? x name = h.bound? x name

namespace Keeps

variable {h h' h'' : Heap}

theorem refl (h : Heap) : h.Keeps h := ⟨.refl h, fun _ _ _ _ => rfl⟩

theorem trans (hk : h.Keeps h') (hk' : h'.Keeps h'') : h.Keeps h'' where
  grows := hk.grows.trans hk'.grows
  special x hx name hname :=
    (hk'.special x (Nat.lt_of_lt_of_le hx hk.grows.scopes_size) name hname).trans
      (hk.special x hx name hname)

theorem of_agrees (hg : h.Grows h') (ha : Agrees h.scopes.size h h') : h.Keeps h' :=
  ⟨hg, fun x hx name _ => ha x hx name⟩

theorem bound (hk : h.Keeps h') {x : ScopeId} {name : String} {v : Value} (hname : ¬ Plain name)
    (hv : h.bound? x name = some v) : h'.bound? x name = some v := by
  by_cases hx : x.index < h.scopes.size
  · rw [hk.special x hx name hname, hv]
  · -- nothing is bound where there is no scope
    rw [bound?, h.scopeAt_of_size_le (Nat.le_of_not_lt hx)] at hv
    simp at hv

end Keeps

/-! ## Classes -/

theorem class_lt {h : Heap} {c : ClassId} {name : String} {f : FunctionId}
    (hf : (h.classAt c).methods[name]? = some f) : c.index < h.classes.size := by
  refine Nat.lt_of_not_le fun hle => ?_
  rw [classAt, Array.getD_eq_getD_getElem?, Array.getElem?_eq_none hle] at hf
  simp at hf

/-- Around the method `super` is the superclass, or the method does not use it itself. -/
def Inherits (h : Heap) (superclass : Option ClassId) (f : FunctionId) : Prop :=
  match superclass with
  | some parent => h.bound? (h.functionAt f).scope "super" = some (.classObject parent)
  | none => ∀ own ∈ (h.functionAt f).declared.ownUses 0, own.1.kind ≠ .super

/-- The class has this superclass, and among these methods are those that it has by name. -/
structure HasClass (h : Heap) (c : ClassId) (superclass : Option ClassId) (methods : List Function) :
    Prop where
  index : c.index < h.classes.size
  superclass : (h.classAt c).superclass = superclass
  methods : ∀ (name : String) f, (h.classAt c).methods[name]? = some f →
    f.index < h.functions.size ∧ (h.functionAt f).declared ∈ methods ∧
      (h.functionAt f).declared.name.lexeme = name

section

variable {h h' : Heap}

theorem Inherits.keeps (hk : h.Keeps h') {superclass : Option ClassId} {f : FunctionId}
    (hf : f.index < h.functions.size) (hi : h.Inherits superclass f) : h'.Inherits superclass f := by
  unfold Inherits at hi ⊢
  rw [hk.grows.functionAt hf]
  cases superclass with
  | none => exact hi
  | some parent => exact hk.bound not_plain_super hi

theorem HasClass.keeps (hk : h.Keeps h') {c : ClassId} {superclass : Option ClassId}
    {methods : List Function} (hc : h.HasClass c superclass methods) :
    h'.HasClass c superclass methods := by
  obtain ⟨hindex, hsuperclass, hmethods⟩ := hc
  have hclass := hk.grows.classAt hindex
  refine ⟨Nat.lt_of_lt_of_le hindex hk.grows.classes_size, hclass ▸ hsuperclass,
    fun name f hf => ?_⟩
  rw [hclass] at hf
  obtain ⟨hlt, hdeclared⟩ := hmethods name f hf
  rw [hk.grows.functionAt hlt]
  exact ⟨Nat.lt_of_lt_of_le hlt hk.grows.functions_size, hdeclared⟩

end

/-! ## Methods that are bound -/

/-- The function is the method, bound to the object: its scope is one for `this`, and is in the scope
of the method. -/
structure IsBound (h : Heap) (method : FunctionId) (o : ObjectId) (g : FunctionId) : Prop where
  order : method.index < g.index
  index : g.index < h.functions.size
  function : h.functionAt g = { h.functionAt method with scope := (h.functionAt g).scope }
  this : h.bound? (h.functionAt g).scope "this" = some (.object o)
  outer : (h.scopeAt (h.functionAt g).scope).outer = some (h.functionAt method).scope

variable {h h' : Heap} {method g : FunctionId} {o : ObjectId}

theorem IsBound.keeps (hk : h.Keeps h') (hb : h.IsBound method o g) : h'.IsBound method o g := by
  obtain ⟨horder, hindex, hfunction, hthis, houter⟩ := hb
  have hg := hk.grows.functionAt hindex
  have hmethod := hk.grows.functionAt (Nat.lt_trans horder hindex)
  refine ⟨horder, Nat.lt_of_lt_of_le hindex hk.grows.functions_size, ?_, ?_, ?_⟩
  · rw [hg, hmethod]
    exact hfunction
  · rw [hg]
    exact hk.bound not_plain_this hthis
  · rw [hg, hmethod]
    exact hk.grows.outer_some houter

/-- A method that has been bound, with its scope. -/
theorem isBound_bindMethod (h : Heap) (o : ObjectId) (hmethod : method.index < h.functions.size) :
    (h.bindMethod method o).2.IsBound method o ⟨h.functions.size⟩ ∧
      ((h.bindMethod method o).2.functionAt ⟨h.functions.size⟩).scope = ⟨h.scopes.size⟩ := by
  have hgrows := Grows.bindMethod h method o
  have hg : (h.bindMethod method o).2.functionAt ⟨h.functions.size⟩
      = { h.functionAt method with scope := ⟨h.scopes.size⟩ } := h.functionAt_bindMethod method o
  have hscope : (h.bindMethod method o).2.scopeAt ⟨h.scopes.size⟩
      = ⟨(∅ : Bindings).insert "this" (.object o), some (h.functionAt method).scope⟩ := by
    unfold bindMethod
    dsimp only
    rw [addInnerScope_define]
    exact (h.scopeAt_addScope _ _).trans (if_pos rfl)
  have hsize : h.functions.size < (h.bindMethod method o).2.functions.size := by
    simp [bindMethod, addInnerScope, addScope, define, addFunction]
  refine ⟨⟨hmethod, hsize, ?_, ?_, ?_⟩, congrArg Closure.scope hg⟩
  · rw [hg, hgrows.functionAt hmethod]
  · rw [hg, bound?, hscope]
    simp
  · rw [hg, hscope, hgrows.functionAt hmethod]

theorem keeps_enter (h : Heap) (f : Closure) (args : List Value) : h.Keeps (h.enter f args) :=
  .of_agrees (.enter h f args) (.enter (Nat.le_refl _) f args)

end Heap

/-! ## The class that a declaration makes -/

/-- The other classes stay. The new one has its superclass and its methods, and these inherit if they
do so in the scope that they are closed over. -/
theorem Heap.addDeclared_class (h : Heap) (x : ScopeId) (name : String)
    (superclass : Option ClassId) (scope : ScopeId) (methods : List Function) :
    let h' := h.addDeclared x name superclass scope methods
    (∀ c : ClassId, c ≠ ⟨h.classes.size⟩ → h'.classAt c = h.classAt c) ∧
      h'.HasClass ⟨h.classes.size⟩ superclass methods ∧
      ∀ (name : String) f, (h'.classAt ⟨h.classes.size⟩).methods[name]? = some f →
        (h'.functionAt f).scope = scope := by
  intro h'
  have hadded := (addMethods_same scope methods h).2
  have hclassAt (c : ClassId) := (Machine.addMethods scope methods h).2.classAt_addClass
    ⟨name, superclass, (Machine.addMethods scope methods h).1⟩ c
  rw [hadded] at hclassAt
  have hnew := (hclassAt ⟨h.classes.size⟩).trans (if_pos rfl)
  have hentry (name : String) (f : FunctionId)
      (hf : (h'.classAt ⟨h.classes.size⟩).methods[name]? = some f) :=
    addMethods_entry ((congrArg (fun c => c.methods[name]?) hnew).symm.trans hf)
  refine ⟨fun c hc => ?_, ⟨?_, congrArg Class.superclass hnew, fun name f hf => ?_⟩,
    fun name f hf => ?_⟩
  · have hne : ¬ c.index = h.classes.size := fun h => hc (congrArg ClassId.mk h)
    refine (hclassAt c).trans ((if_neg hne).trans ?_)
    rw [classAt, classAt, hadded]
  · show h.classes.size < ((Machine.addMethods scope methods h).2.classes.push _).size
    rw [hadded, Array.size_push]
    exact Nat.lt_succ_self _
  · obtain ⟨hlt, declared, hmem, hname, hat⟩ := hentry name f hf
    have hat : (h'.functionAt f).declared = declared := congrArg Closure.declared hat
    rw [hat]
    exact ⟨hlt, hmem, hname⟩
  · obtain ⟨-, declared, -, -, hat⟩ := hentry name f hf
    exact congrArg Closure.scope hat

/-- **A class declaration makes one class, in which `super` is the superclass.** -/
theorem Machine.declareClass_class (st : State) {t : Token} (ht : Plain t.lexeme)
    (superclass : Option ClassId) {methods : List Function}
    (hnone : superclass = none → ∀ f ∈ methods, ∀ own ∈ f.ownUses 0, own.1.kind ≠ .super) :
    let h := (declareClass st t superclass methods).heap
    (∀ c : ClassId, c ≠ ⟨st.heap.classes.size⟩ → h.classAt c = st.heap.classAt c) ∧
      h.HasClass ⟨st.heap.classes.size⟩ superclass methods ∧
      ∀ (name : String) f, (h.classAt ⟨st.heap.classes.size⟩).methods[name]? = some f →
        h.Inherits superclass f := by
  dsimp only
  rw [heap_declareClass]
  cases superclass with
  | none =>
      obtain ⟨hother, hclass, -⟩ := (st.heap.define st.scope t.lexeme .nil).addDeclared_class st.scope
        t.lexeme none st.scope methods
      refine ⟨hother, hclass, fun name f hf => ?_⟩
      obtain ⟨-, hdeclared, -⟩ := hclass.methods name f hf
      exact hnone rfl _ hdeclared
  | some parent =>
      obtain ⟨hother, hclass, hscope⟩ := ((st.heap.define st.scope t.lexeme .nil).addScope
        ⟨(∅ : Bindings).insert "super" (.classObject parent), some st.scope⟩).2.addDeclared_class
          st.scope t.lexeme (some parent) ⟨(st.heap.define st.scope t.lexeme .nil).scopes.size⟩ methods
      refine ⟨hother, hclass, fun name f hf => ?_⟩
      -- the name of the class is no special one, and does not take the place of `super`
      dsimp only [Heap.Inherits]
      rw [hscope name f hf, Heap.bound?_addDeclared, Heap.bound?_define, if_neg fun h => ht.2 h.2,
        Heap.bound?, Heap.scopeAt_addScope, if_pos rfl]
      simp

end Lox
