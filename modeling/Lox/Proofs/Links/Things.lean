import Lox.Proofs.Receivers.Methods

/-!
# References on the heap

Scopes, functions, classes and objects refer to one another. Values make cycles of them: a field of an
object can hold the object, or a function whose scope binds the object. Two kinds of references never do:
a scope is younger than the one around it, and a class is younger than its superclass.

On an intact heap whatever something refers to is there, and every scope but that of the top level has
another one around it. Each operation on the heap keeps it intact if what it stores is there.
-/

namespace Lox

/-- What lives on a heap. -/
inductive Thing where
  | scope (x : ScopeId)
  | function (f : FunctionId)
  | classObject (c : ClassId)
  | object (o : ObjectId)

/-- The thing that a value refers to, if it is no value in itself. -/
def Value.thing? : Value → Option Thing
  | .function f => some (.function f)
  | .classObject c => some (.classObject c)
  | .object o => some (.object o)
  | _ => none

theorem Value.thing?_of_isAtomic {v : Value} (h : v.isAtomic = true) : v.thing? = none := by
  cases v with
  | function f => exact nomatch h
  | classObject c => exact nomatch h
  | object o => exact nomatch h
  | _ => rfl

/-! ## Who refers to what -/

inductive Scope.Refers (s : Scope) : Thing → Prop where
  | outer {y : ScopeId} : s.outer = some y → Refers s (.scope y)
  | bound {name : String} {v : Value} {t : Thing} :
      s.bindings[name]? = some v → v.thing? = some t → Refers s t

inductive Closure.Refers (f : Closure) : Thing → Prop where
  | scope : Refers f (.scope f.scope)

inductive Class.Refers (c : Class) : Thing → Prop where
  | superclass {d : ClassId} : c.superclass = some d → Refers c (.classObject d)
  | method {name : String} {f : FunctionId} : c.methods[name]? = some f → Refers c (.function f)

inductive Object.Refers (o : Object) : Thing → Prop where
  | ofClass : Refers o (.classObject o.ofClass)
  | field {name : String} {v : Value} {t : Thing} :
      o.fields[name]? = some v → v.thing? = some t → Refers o t

namespace Heap

/-- The thing is on the heap. -/
def Has (h : Heap) : Thing → Prop
  | .scope x => x.index < h.scopes.size
  | .function f => f.index < h.functions.size
  | .classObject c => c.index < h.classes.size
  | .object o => o.index < h.objects.size

/-- What a thing refers to. -/
def Refers (h : Heap) : Thing → Thing → Prop
  | .scope x => (h.scopeAt x).Refers
  | .function f => (h.functionAt f).Refers
  | .classObject c => (h.classAt c).Refers
  | .object o => (h.objectAt o).Refers

/-- What the value refers to is on the heap. -/
def Holds (h : Heap) (v : Value) : Prop := ∀ t, v.thing? = some t → h.Has t

variable {h h' : Heap}

theorem Holds.of_none {v : Value} (hv : v.thing? = none) : h.Holds v :=
  fun _ ht => nomatch hv.symm.trans ht

theorem Holds.of_thing {v : Value} {t : Thing} (hv : v.thing? = some t) (ht : h.Has t) : h.Holds v := by
  intro u hu
  obtain rfl := Option.some.inj (hv.symm.trans hu)
  exact ht

/-! ### What is bound is bound somewhere on the heap -/

theorem scope_lt {x : ScopeId} {name : String} {v : Value} (hv : h.bound? x name = some v) :
    h.Has (.scope x) := by
  refine Nat.lt_of_not_le fun hle => ?_
  rw [bound?, h.scopeAt_of_size_le hle] at hv
  simp at hv

theorem object_lt {o : ObjectId} {name : String} {v : Value}
    (hv : (h.objectAt o).fields[name]? = some v) : h.Has (.object o) := by
  refine Nat.lt_of_not_le fun hle => ?_
  rw [objectAt, Array.getD_eq_getD_getElem?, Array.getElem?_eq_none hle] at hv
  simp at hv

theorem superclass_lt {c d : ClassId} (hd : (h.classAt c).superclass = some d) :
    h.Has (.classObject c) := by
  refine Nat.lt_of_not_le fun hle => ?_
  rw [classAt, Array.getD_eq_getD_getElem?, Array.getElem?_eq_none hle] at hd
  cases hd

theorem lt_of_lt_push {α : Type} {xs : Array α} {a : α} {i : Nat} (hi : i < (xs.push a).size)
    (hne : i ≠ xs.size) : i < xs.size := by
  rw [Array.size_push] at hi
  omega

/-! ### What has been added is there -/

theorem size_lt_push {α : Type} (xs : Array α) (a : α) : xs.size < (xs.push a).size := by
  rw [Array.size_push]
  exact Nat.lt_succ_self _

theorem has_addScope (s : Scope) : (h.addScope s).2.Has (.scope (h.addScope s).1) :=
  size_lt_push h.scopes s

theorem has_addFunction (f : Closure) : (h.addFunction f).2.Has (.function (h.addFunction f).1) :=
  size_lt_push h.functions f

theorem has_addClass (c : Class) : (h.addClass c).2.Has (.classObject (h.addClass c).1) :=
  size_lt_push h.classes c

theorem has_addObject (o : Object) : (h.addObject o).2.Has (.object (h.addObject o).1) :=
  size_lt_push h.objects o

/-! ### Growing heaps -/

theorem Grows.has (hg : h.Grows h') {t : Thing} (ht : h.Has t) : h'.Has t := by
  cases t with
  | scope x => exact Nat.lt_of_lt_of_le ht hg.scopes_size
  | function f => exact Nat.lt_of_lt_of_le ht hg.functions_size
  | classObject c => exact Nat.lt_of_lt_of_le ht hg.classes_size
  | object o => exact Nat.lt_of_lt_of_le ht hg.objects_size

theorem Holds.grows (hg : h.Grows h') {v : Value} (hv : h.Holds v) : h'.Holds v :=
  fun t ht => hg.has (hv t ht)

/-! ## Intact heaps -/

/-- Nothing on the heap refers to what is not there, scopes lead out to the top level, and neither they nor
superclasses run in circles. -/
structure Intact (h : Heap) (globals : ScopeId) : Prop where
  refers : ∀ s t, h.Has s → h.Refers s t → h.Has t
  top : h.Has (.scope globals) ∧ (h.scopeAt globals).outer = none
  inside : ∀ x, h.Has (.scope x) → x ≠ globals → ∃ y, (h.scopeAt x).outer = some y
  older : ∀ x y, (h.scopeAt x).outer = some y → y.index < x.index
  superclass : ∀ c d, (h.classAt c).superclass = some d → d.index < c.index

namespace Intact

variable {globals : ScopeId}

/-! ### What is stored is there -/

theorem bound (hi : h.Intact globals) {x : ScopeId} {name : String} {v : Value}
    (hv : h.bound? x name = some v) : h.Holds v :=
  fun t ht => hi.refers (.scope x) t (scope_lt hv) (.bound hv ht)

theorem field (hi : h.Intact globals) {o : ObjectId} {name : String} {v : Value}
    (hv : (h.objectAt o).fields[name]? = some v) : h.Holds v :=
  fun t ht => hi.refers (.object o) t (object_lt hv) (.field hv ht)

theorem method (hi : h.Intact globals) {c : ClassId} {name : String} {f : FunctionId}
    (hf : h.findMethod? c name = some f) : h.Has (.function f) := by
  obtain ⟨d, hd⟩ := h.exists_class_of_findMethodFrom hf
  exact hi.refers (.classObject d) _ (class_lt hd) (.method hd)

theorem closure (hi : h.Intact globals) {f : FunctionId} (hf : h.Has (.function f)) :
    h.Has (.scope (h.functionAt f).scope) :=
  hi.refers (.function f) _ hf .scope

/-! ### Operations -/

theorem define (hi : h.Intact globals) (x : ScopeId) (name : String) {v : Value} (hv : h.Holds v) :
    (h.define x name v).Intact globals := by
  have hhas : ∀ t, (h.define x name v).Has t ↔ h.Has t := by
    intro t
    cases t with
    | scope y =>
        show y.index < (h.define x name v).scopes.size ↔ _
        rw [size_define]
        rfl
    | _ => exact Iff.rfl
  refine ⟨fun s t hs ht => (hhas t).mpr ?_, ⟨(hhas _).mpr hi.top.1, ?_⟩, fun y hy => ?_,
    fun y z => ?_, hi.superclass⟩
  · have hs := (hhas s).mp hs
    cases s with
    | scope y =>
        rcases ht with houter | ⟨hbound, hthing⟩
        · rw [outer_define] at houter
          exact hi.refers _ _ hs (.outer houter)
        · rename_i other u
          have hbound : (h.define x name v).bound? y other = some u := hbound
          rw [bound?_define] at hbound
          split at hbound
          · cases hbound
            exact hv t hthing
          · exact hi.refers _ _ hs (.bound hbound hthing)
    | _ => exact hi.refers _ _ hs ht
  · rw [outer_define, hi.top.2]
  · rw [outer_define]
    exact hi.inside y ((hhas _).mp hy)
  · rw [outer_define]
    exact hi.older y z

theorem setField (hi : h.Intact globals) (o : ObjectId) (name : String) {v : Value} (hv : h.Holds v) :
    (h.setField o name v).Intact globals := by
  have hhas : ∀ t, (h.setField o name v).Has t ↔ h.Has t := by
    intro t
    cases t with
    | object p =>
        show p.index < (h.objects.modify _ _).size ↔ _
        rw [Array.size_modify]
        rfl
    | _ => exact Iff.rfl
  refine ⟨fun s t hs ht => (hhas t).mpr ?_, hi.top, hi.inside, hi.older, hi.superclass⟩
  have hs := (hhas s).mp hs
  cases s with
  | object p =>
      have ht : ((h.setField o name v).objectAt p).Refers t := ht
      rw [objectAt_setField] at ht
      split at ht
      · rcases ht with _ | ⟨hfield, hthing⟩
        · exact hi.refers (.object p) _ hs .ofClass
        · rename_i other u
          dsimp only at hfield
          rw [Std.TreeMap.getElem?_insert] at hfield
          split at hfield
          · cases hfield
            exact hv t hthing
          · exact hi.refers (.object p) _ hs (.field hfield hthing)
      · exact hi.refers (.object p) _ hs ht
  | _ => exact hi.refers _ _ hs ht

/-- A new scope is inside one that is there. -/
theorem addScope (hi : h.Intact globals) {bindings : Bindings} {outer : ScopeId}
    (hs : ∀ t, Scope.Refers ⟨bindings, some outer⟩ t → h.Has t) :
    (h.addScope ⟨bindings, some outer⟩).2.Intact globals := by
  have hgrows := Grows.addScope h ⟨bindings, some outer⟩
  refine ⟨fun a t ha ht => ?_, ⟨hgrows.has hi.top.1, ?_⟩, fun x hx hne => ?_, fun x y hy => ?_,
    hi.superclass⟩
  · cases a with
    | scope x =>
        have ht : ((h.addScope ⟨bindings, some outer⟩).2.scopeAt x).Refers t := ht
        rw [scopeAt_addScope] at ht
        split at ht
        · exact hgrows.has (hs t ht)
        · next hne => exact hgrows.has (hi.refers (.scope x) t (lt_of_lt_push ha hne) ht)
    | function g => exact hgrows.has (hi.refers (.function g) t ha ht)
    | classObject d => exact hgrows.has (hi.refers (.classObject d) t ha ht)
    | object o => exact hgrows.has (hi.refers (.object o) t ha ht)
  · rw [scopeAt_addScope, if_neg (Nat.ne_of_lt hi.top.1), hi.top.2]
  · rw [scopeAt_addScope]
    split
    · exact ⟨outer, rfl⟩
    · next hx' => exact hi.inside x (lt_of_lt_push hx hx') hne
  · rw [scopeAt_addScope] at hy
    split at hy
    · next hx =>
      cases hy
      rw [hx]
      exact hs _ (.outer rfl)
    · exact hi.older x y hy

theorem addFunction (hi : h.Intact globals) {f : Closure} (hf : h.Has (.scope f.scope)) :
    (h.addFunction f).2.Intact globals := by
  have hgrows := Grows.addFunction h f
  refine ⟨fun a t ha ht => hgrows.has ?_, hi.top, hi.inside, hi.older, hi.superclass⟩
  cases a with
  | function g =>
      have ht : ((h.addFunction f).2.functionAt g).Refers t := ht
      rw [functionAt_addFunction] at ht
      split at ht
      · cases ht
        exact hf
      · next hne => exact hi.refers (.function g) t (lt_of_lt_push ha hne) ht
  | scope x => exact hi.refers (.scope x) t ha ht
  | classObject d => exact hi.refers (.classObject d) t ha ht
  | object o => exact hi.refers (.object o) t ha ht

theorem addClass (hi : h.Intact globals) {c : Class} (hc : ∀ t, c.Refers t → h.Has t) :
    (h.addClass c).2.Intact globals := by
  have hgrows := Grows.addClass h c
  refine ⟨fun a t ha ht => hgrows.has ?_, hi.top, hi.inside, hi.older, fun d e he => ?_⟩
  · cases a with
    | classObject d =>
        have ht : ((h.addClass c).2.classAt d).Refers t := ht
        rw [classAt_addClass] at ht
        split at ht
        · exact hc t ht
        · next hne => exact hi.refers (.classObject d) t (lt_of_lt_push ha hne) ht
    | scope x => exact hi.refers (.scope x) t ha ht
    | function g => exact hi.refers (.function g) t ha ht
    | object o => exact hi.refers (.object o) t ha ht
  · rw [classAt_addClass] at he
    split at he
    · next hd =>
      rw [hd]
      exact hc _ (.superclass he)
    · exact hi.superclass d e he

/-- A new object has no fields yet. -/
theorem addObject (hi : h.Intact globals) {c : ClassId} (hc : h.Has (.classObject c)) :
    (h.addObject ⟨c, ∅⟩).2.Intact globals := by
  have hgrows := Grows.addObject h ⟨c, ∅⟩
  refine ⟨fun a t ha ht => hgrows.has ?_, hi.top, hi.inside, hi.older, hi.superclass⟩
  cases a with
  | object o =>
      have ht : ((h.addObject ⟨c, ∅⟩).2.objectAt o).Refers t := ht
      rw [objectAt_addObject] at ht
      split at ht
      · rcases ht with _ | ⟨hfield, -⟩
        · exact hc
        · simp at hfield
      · next hne => exact hi.refers (.object o) t (lt_of_lt_push ha hne) ht
  | scope x => exact hi.refers (.scope x) t ha ht
  | function g => exact hi.refers (.function g) t ha ht
  | classObject d => exact hi.refers (.classObject d) t ha ht

/-! ### Methods, calls and classes -/

theorem addInnerScope (hi : h.Intact globals) {outer : ScopeId} (ho : h.Has (.scope outer)) :
    (h.addInnerScope outer).2.Intact globals ∧ (h.addInnerScope outer).2.Has (.scope ⟨h.scopes.size⟩) := by
  refine ⟨hi.addScope fun t ht => ?_, has_addScope _⟩
  rcases ht with houter | ⟨hbound, -⟩
  · cases houter
    exact ho
  · simp at hbound

theorem bindMethod (hi : h.Intact globals) {method : FunctionId} (hm : h.Has (.function method))
    {o : ObjectId} (ho : h.Has (.object o)) : (h.bindMethod method o).2.Intact globals := by
  obtain ⟨hinner, hscope⟩ := hi.addInnerScope (hi.closure hm)
  have hthis := hinner.define ⟨h.scopes.size⟩ "this"
    (.of_thing rfl ((Grows.addScope h _).has ho) : Holds _ (.object o))
  exact hthis.addFunction ((Grows.define _ _ _ _).has hscope)

theorem bindParams {x : ScopeId} : ∀ (params : List Token) {args : List Value} {h : Heap},
    h.Intact globals → (∀ v ∈ args, h.Holds v) → (Machine.bindParams x params args h).Intact globals
  | [], _, _, hi, _ => hi
  | _ :: _, [], _, hi, _ => hi
  | p :: params, v :: _, h, hi, hargs =>
      bindParams params (hi.define x p.lexeme (hargs v (List.mem_cons_self ..)))
        fun u hu => (hargs u (List.mem_cons_of_mem _ hu)).grows (.define h x p.lexeme v)

theorem enter (hi : h.Intact globals) {f : Closure} (hf : h.Has (.scope f.scope)) {args : List Value}
    (hargs : ∀ v ∈ args, h.Holds v) : (h.enter f args).Intact globals :=
  bindParams f.declared.params (hi.addInnerScope hf).1 fun v hv => (hargs v hv).grows (.addScope h _)

theorem foldMethods {scope : ScopeId} : ∀ (methods : List Function)
    {table : Std.TreeMap String FunctionId} {h : Heap}, h.Intact globals → h.Has (.scope scope) →
      (methods.foldl (Machine.addMethod scope) (table, h)).2.Intact globals
  | [], _, _, hi, _ => hi
  | _ :: methods, _, h, hi, hscope =>
      foldMethods methods (hi.addFunction hscope) ((Grows.addFunction h _).has hscope)

theorem addDeclared (hi : h.Intact globals) {scope : ScopeId} (hscope : h.Has (.scope scope))
    {superclass : Option ClassId} (hsuperclass : ∀ d, superclass = some d → h.Has (.classObject d))
    (x : ScopeId) (name : String) (methods : List Function) :
    (h.addDeclared x name superclass scope methods).Intact globals := by
  have hadded : (Machine.addMethods scope methods h).2.Intact globals := foldMethods methods hi hscope
  have hclass := hadded.addClass (c := ⟨name, superclass, (Machine.addMethods scope methods h).1⟩)
    fun t ht => by
      cases ht with
      | superclass hd => exact (Grows.addMethods scope methods h).has (hsuperclass _ hd)
      | method hf => exact (addMethods_entry hf).1
  exact hclass.define x name (.of_thing rfl (has_addClass _))

theorem declareClass {st : State} (hi : st.heap.Intact globals) (hscope : st.heap.Has (.scope st.scope))
    {superclass : Option ClassId}
    (hsuperclass : ∀ d, superclass = some d → st.heap.Has (.classObject d)) (t : Token)
    (methods : List Function) :
    (Machine.declareClass st t superclass methods).heap.Intact globals := by
  have hgrows := Grows.define st.heap st.scope t.lexeme .nil
  have hnil := hi.define st.scope t.lexeme (.of_none rfl : Holds _ .nil)
  rw [Machine.heap_declareClass]
  cases superclass with
  | none =>
      refine hnil.addDeclared (hgrows.has hscope) (fun _ hd => ?_) _ _ _
      exact nomatch hd
  | some parent =>
      -- the scope of `super` is there before the methods are closed over it
      obtain ⟨hinner, hadded⟩ := hnil.addInnerScope (hgrows.has hscope)
      have hparent := (hgrows.trans (.addScope _ ⟨∅, some st.scope⟩)).has (hsuperclass _ rfl)
      have hsuper := hinner.define ⟨(st.heap.define st.scope t.lexeme .nil).scopes.size⟩ "super"
        (.of_thing rfl hparent : Holds _ (.classObject parent))
      have hkept := Grows.define ((st.heap.define st.scope t.lexeme .nil).addInnerScope st.scope).2
        ⟨(st.heap.define st.scope t.lexeme .nil).scopes.size⟩ "super" (.classObject parent)
      dsimp only
      rw [← addInnerScope_define]
      refine hsuper.addDeclared (hkept.has hadded) (fun d hd => ?_) _ _ _
      cases hd
      exact hkept.has hparent

end Intact

end Heap

end Lox
