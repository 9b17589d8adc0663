import Lox.Heap

/-!
# What changes on the heap

Every operation on the heap, by what it leaves at every index. Things are only added, and bindings
and fields are the only parts of things that change.
-/

namespace Lox.Heap

variable (h : Heap)

/-! ## Adding -/

theorem getD_push {α : Type} (xs : Array α) (a d : α) (i : Nat) :
    (xs.push a).getD i d = if i = xs.size then a else xs.getD i d := by
  rw [Array.getD_eq_getD_getElem?, Array.getD_eq_getD_getElem?, Array.getElem?_push]
  split <;> rfl

theorem getD_modify {α : Type} (xs : Array α) (i j : Nat) (f : α → α) (d : α) :
    (xs.modify i f).getD j d = if i = j ∧ j < xs.size then f (xs.getD j d) else xs.getD j d := by
  simp only [Array.getD_eq_getD_getElem?, Array.getElem?_modify]
  by_cases hij : i = j
  · subst hij
    by_cases hi : i < xs.size
    · simp [hi]
    · simp [hi]
  · simp [hij]

/-- What stands in a list with one more entry at its end. -/
theorem getElem?_snoc {α : Type} {xs : List α} {a b : α} {i : Nat}
    (h : (xs ++ [a])[i]? = some b) :
    (i = xs.length ∧ b = a) ∨ (i ≠ xs.length ∧ xs[i]? = some b) := by
  rcases Nat.lt_trichotomy i xs.length with hlt | heq | hgt
  · rw [List.getElem?_append_left hlt] at h
    exact .inr ⟨Nat.ne_of_lt hlt, h⟩
  · subst heq
    rw [List.getElem?_concat_length] at h
    exact .inl ⟨rfl, (Option.some.inj h).symm⟩
  · have hlength : (xs ++ [a]).length ≤ i := by
      rw [List.length_append]
      exact hgt
    rw [List.getElem?_eq_none hlength] at h
    exact nomatch h

theorem scopeAt_addScope (s : Scope) (x : ScopeId) :
    (h.addScope s).2.scopeAt x = if x.index = h.scopes.size then s else h.scopeAt x :=
  getD_push h.scopes s _ x.index

theorem functionAt_addFunction (c : Closure) (f : FunctionId) :
    (h.addFunction c).2.functionAt f = if f.index = h.functions.size then c else h.functionAt f :=
  getD_push h.functions c _ f.index

theorem classAt_addClass (c : Class) (x : ClassId) :
    (h.addClass c).2.classAt x = if x.index = h.classes.size then c else h.classAt x :=
  getD_push h.classes c _ x.index

theorem objectAt_addObject (o : Object) (x : ObjectId) :
    (h.addObject o).2.objectAt x = if x.index = h.objects.size then o else h.objectAt x :=
  getD_push h.objects o _ x.index

/-! ## Bindings -/

theorem scopeAt_define (x y : ScopeId) (name : String) (v : Value) :
    (h.define x name v).scopeAt y =
      if x = y ∧ y.index < h.scopes.size then
        { h.scopeAt y with bindings := (h.scopeAt y).bindings.insert name v }
      else h.scopeAt y := by
  obtain ⟨i⟩ := x
  obtain ⟨j⟩ := y
  simp only [scopeAt, define, getD_modify, ScopeId.mk.injEq]

theorem outer_define (x y : ScopeId) (name : String) (v : Value) :
    ((h.define x name v).scopeAt y).outer = (h.scopeAt y).outer := by
  rw [scopeAt_define]
  split <;> rfl

theorem size_define (x : ScopeId) (name : String) (v : Value) :
    (h.define x name v).scopes.size = h.scopes.size := Array.size_modify

theorem bound?_define (x y : ScopeId) (name other : String) (v : Value) :
    (h.define x name v).bound? y other =
      if (x = y ∧ y.index < h.scopes.size) ∧ name = other then some v else h.bound? y other := by
  unfold bound?
  rw [scopeAt_define]
  by_cases hxy : x = y ∧ y.index < h.scopes.size
  · rw [if_pos hxy, Std.TreeMap.getElem?_insert]
    by_cases hname : name = other
    · subst hname
      simp [hxy]
    · have hcompare : ¬ compare name other = .eq := by simpa using hname
      rw [if_neg hcompare, if_neg fun h => hname h.2]
  · rw [if_neg hxy, if_neg fun h => hxy h.1]

theorem bound?_define_self {x : ScopeId} (hx : x.index < h.scopes.size) (name : String)
    (v : Value) : (h.define x name v).bound? x name = some v := by
  rw [bound?_define, if_pos ⟨⟨rfl, hx⟩, rfl⟩]

/-- A name that was bound stays bound. -/
theorem bound?_define_mono (x y : ScopeId) (name other : String) (v : Value)
    (hbound : (h.bound? y other).isSome) : ((h.define x name v).bound? y other).isSome := by
  rw [bound?_define]
  split
  · rfl
  · exact hbound

/-- A name that becomes bound in a scope is one that is defined there. -/
theorem eq_of_bound?_define {x y : ScopeId} {name other : String} {v : Value}
    (hbefore : ¬ (h.bound? y other).isSome) (hafter : ((h.define x name v).bound? y other).isSome) :
    x = y ∧ name = other := by
  rw [bound?_define] at hafter
  split at hafter
  · next heq => exact ⟨heq.1.1, heq.2⟩
  · exact absurd hafter hbefore

theorem bound?_addScope (s : Scope) (x : ScopeId) (name : String) :
    (h.addScope s).2.bound? x name
      = if x.index = h.scopes.size then s.bindings[name]? else h.bound? x name := by
  rw [bound?, scopeAt_addScope]
  split <;> rfl

/-- A scope that is made with one name in it. -/
theorem addInnerScope_define (outer : ScopeId) (name : String) (v : Value) :
    (h.addInnerScope outer).2.define (h.addInnerScope outer).1 name v
      = (h.addScope ⟨(∅ : Bindings).insert name v, some outer⟩).2 := by
  have hscopes : (h.scopes.push ⟨∅, some outer⟩).modify h.scopes.size
      (fun s => { s with bindings := s.bindings.insert name v })
        = h.scopes.push ⟨(∅ : Bindings).insert name v, some outer⟩ := by
    apply Array.ext_getElem?
    intro i
    rw [Array.getElem?_modify, Array.getElem?_push, Array.getElem?_push]
    by_cases hi : h.scopes.size = i
    · subst hi
      simp
    · have hi' : ¬ i = h.scopes.size := fun h => hi h.symm
      rw [if_neg hi, if_neg hi', if_neg hi']
  simp only [addInnerScope, addScope, define, hscopes]

/-! ## Fields -/

theorem objectAt_setField (o x : ObjectId) (name : String) (v : Value) :
    (h.setField o name v).objectAt x =
      if o = x ∧ x.index < h.objects.size then
        { h.objectAt x with fields := (h.objectAt x).fields.insert name v }
      else h.objectAt x := by
  obtain ⟨i⟩ := o
  obtain ⟨j⟩ := x
  simp only [objectAt, setField, getD_modify, ObjectId.mk.injEq]

/-! ## Functions and classes -/

/-- A method is bound in a scope that is made for `this`. -/
theorem bindMethod_eq (method : FunctionId) (o : ObjectId) :
    h.bindMethod method o =
      let this : Bindings := (∅ : Bindings).insert "this" (.object o)
      (h.addScope ⟨this, some (h.functionAt method).scope⟩).2.addFunction
        { h.functionAt method with scope := ⟨h.scopes.size⟩ } := by
  unfold bindMethod
  dsimp only
  rw [addInnerScope_define]
  rfl

/-- A method that is bound is the same function in the new scope. -/
theorem functionAt_bindMethod (method : FunctionId) (o : ObjectId) :
    (h.bindMethod method o).2.functionAt (h.bindMethod method o).1
      = { h.functionAt method with scope := ⟨h.scopes.size⟩ } :=
  (functionAt_addFunction _ _ _).trans (if_pos rfl)

/-- Methods are found by way of classes only. -/
theorem findMethodFrom_classes {h h' : Heap} (hclasses : h'.classes = h.classes)
    (name : String) : ∀ (limit : Nat) (c : ClassId),
      h'.findMethodFrom name limit c = h.findMethodFrom name limit c
  | 0, _ => rfl
  | limit + 1, c => by
      have hat : h'.classAt c = h.classAt c := by rw [classAt, classAt, hclasses]
      rw [findMethodFrom, findMethodFrom, hat]
      split
      · rfl
      · split
        · exact findMethodFrom_classes hclasses name limit _
        · rfl

/-- A method that is found is a method of some class. -/
theorem exists_class_of_findMethodFrom {name : String} {f : FunctionId} :
    ∀ {limit : Nat} {c : ClassId}, h.findMethodFrom name limit c = some f →
      ∃ c', (h.classAt c').methods[name]? = some f
  | 0, _, hfound => nomatch hfound
  | limit + 1, c, hfound => by
      rw [findMethodFrom] at hfound
      split at hfound
      · next method hmethod =>
        cases hfound
        exact ⟨c, hmethod⟩
      · split at hfound
        · exact exists_class_of_findMethodFrom hfound
        · exact nomatch hfound

/-- An index that was never given out reads as something empty. -/
theorem scopeAt_of_size_le {x : ScopeId} (hx : h.scopes.size ≤ x.index) :
    h.scopeAt x = ⟨∅, none⟩ := by
  unfold scopeAt
  rw [Array.getD_eq_getD_getElem?, Array.getElem?_eq_none hx]
  rfl

end Lox.Heap
