import Lox.Proofs.Growth
import Lox.Proofs.Respelling

/-!
# Heaps of a program and of its respelling

A program and a respelling of it make the same things in the same order, so everything on the heap
of the one has its twin on the heap of the other, under the same identifier. Twins differ in two
ways only: what a scope binds to a name, its twin binds to the name as the scope is spelled, and the
declaration of a function is respelled for the scopes around it.
-/

namespace Lox

open Respelling (nearest reached same)

/-- The heap of a program, that of its respelling, and how their scopes are spelled. -/
structure Twin where
  heap : Heap
  copy : Heap
  spellings : List Respelling

/-- The functions differ in nothing that shows without a call. -/
structure Closure.Alike (c c' : Closure) : Prop where
  scope : c'.scope = c.scope
  isInitializer : c'.isInitializer = c.isInitializer
  name : c'.declared.name = c.declared.name
  arity : c'.declared.arity = c.declared.arity

namespace Twin

/-- The scope and those around it are spelled in these ways, out to the top level. -/
def Spells (w : Twin) : ScopeId → List Respelling → Prop
  | x, [] => x = ⟨0⟩
  | x, ρ :: outer =>
    w.spellings[x.index]? = some ρ ∧ ∃ y, (w.heap.scopeAt x).outer = some y ∧ w.Spells y outer

/-- The heaps have the same things on them, up to the spelling. -/
structure Matched (w : Twin) : Prop where
  length : w.spellings.length = w.heap.scopes.size
  scopes_size : w.copy.scopes.size = w.heap.scopes.size
  functions_size : w.copy.functions.size = w.heap.functions.size
  top : w.spellings[0]? = some same
  outermost : (w.heap.scopeAt ⟨0⟩).outer = none
  outer : ∀ x, (w.copy.scopeAt x).outer = (w.heap.scopeAt x).outer
  bound : ∀ (x : ScopeId) ρ, w.spellings[x.index]? = some ρ →
    ∀ name, w.copy.bound? x (ρ.spell name) = w.heap.bound? x name
  functions : ∀ f, (w.heap.functionAt f).Alike (w.copy.functionAt f)
  classes : w.copy.classes = w.heap.classes
  objects : w.copy.objects = w.heap.objects

section

variable (A : Addresses) (Ways : Respelling → Prop) (w : Twin)

/-- A function that can be called: its declaration is respelled for its scope. -/
structure Callable (f : FunctionId) : Prop where
  index : f.index < w.heap.functions.size
  declared : ∃ E, w.Spells (w.heap.functionAt f).scope E ∧
    (w.heap.functionAt f).declared.Respells A Ways E (w.copy.functionAt f).declared

/-- A method of a class. The scope of `this` will be around it when it is bound. -/
structure Method (f : FunctionId) : Prop where
  index : f.index < w.heap.functions.size
  declared : ∃ E, w.Spells (w.heap.functionAt f).scope E ∧
    (w.heap.functionAt f).declared.Respells A Ways (same :: E) (w.copy.functionAt f).declared

/-- All functions among the values of a program can be called. -/
def Holds (v : Value) : Prop := ∀ f, v = .function f → w.Callable A Ways f

/-- What the heaps keep up while the programs run on them. -/
structure Sound : Prop where
  matched : w.Matched
  values : ∀ x name v, w.heap.bound? x name = some v → w.Holds A Ways v
  fields : ∀ (o : ObjectId) (name : String) v,
    (w.heap.objectAt o).fields[name]? = some v → w.Holds A Ways v
  methods : ∀ (c : ClassId) (name : String) f,
    (w.heap.classAt c).methods[name]? = some f → w.Method A Ways f

end

/-- All that `w` has is still there in `w'`. -/
structure Extends (w w' : Twin) : Prop where
  heap : w.heap.Grows w'.heap
  copy : w.copy.Grows w'.copy
  spellings : ∀ (i : Nat) ρ, w.spellings[i]? = some ρ → w'.spellings[i]? = some ρ

variable {A : Addresses} {Ways : Respelling → Prop} {w w' w'' : Twin}

theorem Extends.refl (w : Twin) : w.Extends w := ⟨.refl _, .refl _, fun _ _ h => h⟩

theorem Extends.trans (h : w.Extends w') (h' : w'.Extends w'') : w.Extends w'' where
  heap := h.heap.trans h'.heap
  copy := h.copy.trans h'.copy
  spellings i ρ hi := h'.spellings i ρ (h.spellings i ρ hi)

theorem Spells.mono (h : w.Extends w') : ∀ {E : List Respelling} {x : ScopeId},
    w.Spells x E → w'.Spells x E
  | [], _, hx => hx
  | ρ :: _, _, ⟨hspelling, y, houter, hy⟩ =>
      ⟨h.spellings _ ρ hspelling, y, h.heap.outer_some houter, hy.mono h⟩

/-! ## Looking around -/

section

variable {x : ScopeId} {E : List Respelling}

theorem Spells.nearest (h : w.Matched) (hx : w.Spells x E) :
    w.spellings[x.index]? = some (nearest E) := by
  cases E with
  | nil =>
      obtain rfl : x = ⟨0⟩ := hx
      exact h.top
  | cons ρ E => exact hx.1

/-- The top level has no scope around it. -/
theorem Matched.ancestor_top (h : w.Matched) (d : Nat) : w.heap.ancestor ⟨0⟩ d = ⟨0⟩ := by
  cases d with
  | zero => rfl
  | succ d => rw [Heap.ancestor, h.outermost]

theorem Spells.ancestor (h : w.Matched) : ∀ {E : List Respelling} {x : ScopeId},
    w.Spells x E → ∀ d : Nat,
      w.spellings[(w.heap.ancestor x d).index]? = some (reached E (some d))
  | [], _, rfl, d => by
      rw [h.ancestor_top]
      exact h.top
  | _ :: _, _, ⟨hspelling, _⟩, 0 => hspelling
  | _ :: _, x, ⟨_, y, houter, hy⟩, d + 1 => by
      rw [Heap.ancestor, houter]
      exact hy.ancestor h d

theorem Matched.ancestor_copy (h : w.Matched) : ∀ (d : Nat) (x : ScopeId),
    w.copy.ancestor x d = w.heap.ancestor x d
  | 0, _ => rfl
  | d + 1, x => by
      rw [Heap.ancestor, Heap.ancestor, h.outer]
      cases (w.heap.scopeAt x).outer with
      | none => rfl
      | some y => exact h.ancestor_copy d y

/-- What a name means in a scope that is reached, its spelling means in the twin. -/
theorem Spells.lookupAt?_copy (h : w.Matched) (hx : w.Spells x E) (d : Nat) (name : String) :
    w.copy.lookupAt? x d ((reached E (some d)).spell name) = w.heap.lookupAt? x d name := by
  rw [Heap.lookupAt?, h.ancestor_copy, h.bound _ _ (hx.ancestor h d), Heap.lookupAt?]

theorem Matched.bound?_top (h : w.Matched) (name : String) :
    w.copy.bound? ⟨0⟩ name = w.heap.bound? ⟨0⟩ name :=
  h.bound ⟨0⟩ same h.top name

/-- A name that is always spelled as before is bound to the same. -/
theorem Matched.bound?_fixed (h : w.Matched) (x : ScopeId) {name : String}
    (hname : ∀ ρ : Respelling, ρ.spell name = name) :
    w.copy.bound? x name = w.heap.bound? x name := by
  cases hx : w.spellings[x.index]? with
  | some ρ =>
      have hbound := h.bound x ρ hx name
      rwa [hname] at hbound
  | none =>
      have hsize : w.heap.scopes.size ≤ x.index := h.length ▸ List.getElem?_eq_none_iff.mp hx
      rw [Heap.bound?, Heap.bound?, Heap.scopeAt_of_size_le _ hsize,
        Heap.scopeAt_of_size_le _ (h.scopes_size.symm ▸ hsize)]

theorem Matched.findMethod?_copy (h : w.Matched) (c : ClassId) (name : String) :
    w.copy.findMethod? c name = w.heap.findMethod? c name :=
  Heap.findMethodFrom_classes h.classes name _ c

theorem Matched.classAt_copy (h : w.Matched) (c : ClassId) :
    w.copy.classAt c = w.heap.classAt c := by
  rw [Heap.classAt, h.classes, Heap.classAt]

theorem Matched.objectAt_copy (h : w.Matched) (o : ObjectId) :
    w.copy.objectAt o = w.heap.objectAt o := by
  rw [Heap.objectAt, h.objects, Heap.objectAt]

theorem Matched.arity?_copy (h : w.Matched) (v : Value) : w.copy.arity? v = w.heap.arity? v := by
  cases v with
  | function f => exact congrArg some (h.functions f).arity
  | classObject c =>
      simp only [Heap.arity?, Heap.classArity, h.findMethod?_copy]
      cases w.heap.findMethod? c Function.initializerName with
      | none => rfl
      | some init => exact congrArg some (h.functions init).arity
  | _ => rfl

theorem Matched.text_copy (h : w.Matched) (v : Value) : v.text w.copy = v.text w.heap := by
  cases v with
  | function f => simp only [Value.text, (h.functions f).name]
  | classObject c => simp only [Value.text, h.classAt_copy]
  | object o => simp only [Value.text, h.objectAt_copy, h.classAt_copy]
  | _ => rfl

/-- Of the heap, operators see the texts of values only. -/
theorem Matched.binary_copy (h : w.Matched) (operator : Token) (left right : Value) :
    Operator.binary w.copy operator left right = Operator.binary w.heap operator left right := by
  have hplus : Operator.plus w.copy operator left right
      = Operator.plus w.heap operator left right := by
    unfold Operator.plus
    split <;> simp only [h.text_copy]
  unfold Operator.binary
  rw [hplus]

end

/-! ## What lasts -/

/-- A function stays respelled for its scope, also with more `around` it. -/
theorem exists_respells_mono (around : List Respelling → List Respelling) (h : w.Matched)
    (hextends : w.Extends w') {f : FunctionId} (hindex : f.index < w.heap.functions.size)
    (hdeclared : ∃ E, w.Spells (w.heap.functionAt f).scope E ∧
      (w.heap.functionAt f).declared.Respells A Ways (around E) (w.copy.functionAt f).declared) :
    ∃ E, w'.Spells (w'.heap.functionAt f).scope E ∧
      (w'.heap.functionAt f).declared.Respells A Ways (around E) (w'.copy.functionAt f).declared := by
  obtain ⟨E, hscope, hdeclared⟩ := hdeclared
  rw [hextends.heap.functionAt hindex, hextends.copy.functionAt (h.functions_size.symm ▸ hindex)]
  exact ⟨E, hscope.mono hextends, hdeclared⟩

theorem Callable.mono (h : w.Matched) (hextends : w.Extends w') {f : FunctionId}
    (hf : w.Callable A Ways f) : w'.Callable A Ways f where
  index := Nat.lt_of_lt_of_le hf.index hextends.heap.functions_size
  declared := exists_respells_mono id h hextends hf.index hf.declared

theorem Method.mono (h : w.Matched) (hextends : w.Extends w') {f : FunctionId}
    (hf : w.Method A Ways f) : w'.Method A Ways f where
  index := Nat.lt_of_lt_of_le hf.index hextends.heap.functions_size
  declared := exists_respells_mono (same :: ·) h hextends hf.index hf.declared

theorem Holds.mono (h : w.Matched) (hextends : w.Extends w') {v : Value} (hv : w.Holds A Ways v) :
    w'.Holds A Ways v :=
  fun f hf => (hv f hf).mono h hextends

/-- Values that are no functions are held by all heaps. -/
theorem holds_of_ne {v : Value} (h : ∀ f, v ≠ .function f) : w.Holds A Ways v :=
  fun f hf => absurd hf (h f)

theorem Sound.findMethod (h : w.Sound A Ways) {name : String} {c : ClassId} {f : FunctionId}
    (hfound : w.heap.findMethod? c name = some f) : w.Method A Ways f := by
  obtain ⟨d, hmethod⟩ := w.heap.exists_class_of_findMethodFrom hfound
  exact h.methods d name f hmethod

/-- A change keeps the heaps sound if it matches, and if what is new is held. -/
theorem Sound.change (h : w.Sound A Ways) (hextends : w.Extends w') (hmatched : w'.Matched)
    (hvalues : ∀ x name v, w'.heap.bound? x name = some v →
      w.heap.bound? x name = some v ∨ w'.Holds A Ways v)
    (hfields : ∀ (o : ObjectId) (name : String) v, (w'.heap.objectAt o).fields[name]? = some v →
      (w.heap.objectAt o).fields[name]? = some v ∨ w'.Holds A Ways v)
    (hmethods : ∀ (c : ClassId) (name : String) f, (w'.heap.classAt c).methods[name]? = some f →
      (w.heap.classAt c).methods[name]? = some f ∨ w'.Method A Ways f) : w'.Sound A Ways where
  matched := hmatched
  values x name v hv := by
    rcases hvalues x name v hv with hold | hnew
    · exact (h.values x name v hold).mono h.matched hextends
    · exact hnew
  fields o name v hv := by
    rcases hfields o name v hv with hold | hnew
    · exact (h.fields o name v hold).mono h.matched hextends
    · exact hnew
  methods c name f hf := by
    rcases hmethods c name f hf with hold | hnew
    · exact (h.methods c name f hold).mono h.matched hextends
    · exact hnew

end Twin

end Lox
