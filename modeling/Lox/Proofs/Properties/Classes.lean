import Lox.Proofs.Links

/-!
# Classes and their declarations

The methods of a class are those that it was declared with; of two methods with one name it is the later one.
-/

namespace Lox

/-- The last method with this name. -/
def Function.lastNamed (methods : List Function) (name : String) : Option Function :=
  methods.reverse.find? fun declared => declared.name.lexeme = name

theorem Function.lastNamed_cons (declared : Function) (methods : List Function) (name : String) :
    lastNamed (declared :: methods) name
      = (lastNamed methods name).or (if declared.name.lexeme = name then some declared else none) := by
  unfold lastNamed
  rw [List.reverse_cons, List.find?_append, List.find?_singleton]
  by_cases h : declared.name.lexeme = name
  · rw [if_pos h, if_pos (decide_eq_true h)]
  · rw [if_neg h, if_neg (by simpa using h)]

namespace Heap

/-- The declaration of the method that is found under a name. -/
def declared? (h : Heap) (found : Option FunctionId) : Option Function :=
  found.map fun f => (h.functionAt f).declared

theorem foldMethods_last (scope : ScopeId) (name : String) : ∀ (methods : List Function)
    (table : Std.TreeMap String FunctionId) (h : Heap),
      (∀ f, table[name]? = some f → h.Has (.function f)) →
      let added := methods.foldl (Machine.addMethod scope) (table, h)
      added.2.declared? added.1[name]? = (Function.lastNamed methods name).or (h.declared? table[name]?)
  | [], _, _, _ => rfl
  | declared :: methods, table, h, htable => by
      have hgrown := Grows.addFunction h ⟨declared, scope, declared.isNamedInitializer⟩
      have hnew := h.functionAt_addFunction ⟨declared, scope, declared.isNamedInitializer⟩ ⟨h.functions.size⟩
      rw [if_pos rfl] at hnew
      have hentry (f : FunctionId)
          (hf : (table.insert declared.name.lexeme ⟨h.functions.size⟩)[name]? = some f) :
          (h.addFunction ⟨declared, scope, declared.isNamedInitializer⟩).2.Has (.function f) := by
        rw [Std.TreeMap.getElem?_insert] at hf
        split at hf
        · cases hf
          exact has_addFunction _
        · exact hgrown.has (htable f hf)
      have hrest := foldMethods_last scope name methods _ _ hentry
      dsimp only at hrest
      rw [Function.lastNamed_cons]
      refine hrest.trans ?_
      rw [Option.or_assoc, Std.TreeMap.getElem?_insert]
      congr 1
      by_cases hname : declared.name.lexeme = name
      · -- it takes the place of what was there before
        rw [if_pos (by simpa using hname), if_pos hname, Option.some_or]
        exact congrArg (fun f => some (Closure.declared f)) hnew
      · rw [if_neg (by simpa using hname), if_neg hname, Option.none_or]
        cases hf : table[name]? with
        | none => rfl
        | some f => exact congrArg (fun f => some (Closure.declared f)) (hgrown.functionAt (htable f hf))

/-- The class has this superclass and, by name, the last of these methods. -/
structure Declares (h : Heap) (c : ClassId) (superclass : Option ClassId) (methods : List Function) :
    Prop where
  hasClass : h.HasClass c superclass methods
  last : ∀ name : String,
    h.declared? (h.classAt c).methods[name]? = Function.lastNamed methods name

theorem Declares.keeps {h h' : Heap} (hk : h.Keeps h') {c : ClassId} {superclass : Option ClassId}
    {methods : List Function} (hc : h.Declares c superclass methods) :
    h'.Declares c superclass methods := by
  refine ⟨hc.hasClass.keeps hk, fun name => ?_⟩
  rw [hk.grows.classAt hc.hasClass.index, ← hc.last name]
  cases hf : (h.classAt c).methods[name]? with
  | none => rfl
  | some f =>
      obtain ⟨hlt, -⟩ := hc.hasClass.methods name f hf
      exact congrArg (fun f => some (Closure.declared f)) (hk.grows.functionAt hlt)

/-- What is added for a declaration is a class with the methods that it declares. -/
theorem addDeclared_declares (h : Heap) (x : ScopeId) (name : String) (superclass : Option ClassId)
    (scope : ScopeId) (methods : List Function) :
    (h.addDeclared x name superclass scope methods).Declares ⟨h.classes.size⟩ superclass methods ∧
      (h.addDeclared x name superclass scope methods).classes.size = h.classes.size + 1 := by
  obtain ⟨-, hclass, -⟩ := h.addDeclared_class x name superclass scope methods
  have hadded := (addMethods_same scope methods h).2
  have hsize : (h.addDeclared x name superclass scope methods).classes.size = h.classes.size + 1 := by
    show ((Machine.addMethods scope methods h).2.classes.push _).size = _
    rw [Array.size_push, hadded]
  refine ⟨⟨hclass, fun other => ?_⟩, hsize⟩
  have hat := (Machine.addMethods scope methods h).2.classAt_addClass
    ⟨name, superclass, (Machine.addMethods scope methods h).1⟩ ⟨h.classes.size⟩
  rw [hadded, if_pos rfl] at hat
  have hlast := foldMethods_last scope other methods ∅ h fun f hf => by simp at hf
  have hnone : h.declared? (∅ : Std.TreeMap String FunctionId)[other]? = none := by simp [declared?]
  rw [hnone, Option.or_none] at hlast
  refine Eq.trans ?_ hlast
  exact congrArg (fun c => (Machine.addMethods scope methods h).2.declared? c.methods[other]?) hat

end Heap

namespace Machine

variable {m : Machine}

/-- **A declaration makes a class with the last of its methods for each name.** -/
theorem declareClass_declares (st : State) (t : Token) (superclass : Option ClassId)
    (methods : List Function) :
    (declareClass st t superclass methods).heap.Declares ⟨st.heap.classes.size⟩ superclass methods ∧
      (declareClass st t superclass methods).heap.classes.size = st.heap.classes.size + 1 := by
  rw [heap_declareClass]
  cases superclass with
  | none => exact (st.heap.define st.scope t.lexeme .nil).addDeclared_declares _ _ none _ methods
  | some parent =>
      exact ((st.heap.define st.scope t.lexeme .nil).addScope
        ⟨(∅ : Bindings).insert "super" (.classObject parent), some st.scope⟩).2.addDeclared_declares
          _ _ (some parent) _ methods

theorem step_declares {superclass : Option ClassId} {methods : List Function}
    (h : m.makesClass? = some (superclass, methods)) :
    m.step.state.heap.Declares ⟨m.state.heap.classes.size⟩ superclass methods ∧
      m.step.state.heap.classes.size = m.state.heap.classes.size + 1 := by
  obtain ⟨t, -, hstate⟩ := step_of_makesClass h
  rw [hstate]
  exact declareClass_declares m.state t superclass methods

end Machine

end Lox
