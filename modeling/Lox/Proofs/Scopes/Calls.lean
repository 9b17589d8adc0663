import Lox.Proofs.Effects
import Lox.Proofs.Scopes.Frames

/-!
# Methods, calls and classes as changes of a world

The parts of a step that make scopes, one after the other: a method is bound to an object,
parameters are bound to arguments, and the methods of a class are closed over the scope of `super`.
-/

namespace Lox

namespace World

variable {Good : Use → Site → Prop} {w : World}

/-! ## Methods -/

theorem Sound.findMethod (h : w.Sound Good) {name : String} {c : ClassId} {f : FunctionId}
    (hfound : w.heap.findMethod? c name = some f) : w.Method Good f := by
  obtain ⟨d, hmethod⟩ := w.heap.exists_class_of_findMethodFrom hfound
  exact h.methods d name f hmethod

/-- Adds the scope of `this`, and the method inside it. -/
def bindMethod (w : World) (method : FunctionId) (o : ObjectId) : World :=
  let closure := w.heap.functionAt method
  (w.addScope ⟨(∅ : Bindings).insert "this" (.object o), some closure.scope⟩
    (.receiver closure.declared)).addFunction { closure with scope := ⟨w.heap.scopes.size⟩ }

theorem heap_bindMethod (w : World) (method : FunctionId) (o : ObjectId) :
    w.heap.bindMethod method o = (⟨w.heap.functions.size⟩, (w.bindMethod method o).heap) :=
  w.heap.bindMethod_eq method o

theorem extends_bindMethod (h : w.Sound Good) (method : FunctionId) (o : ObjectId) :
    w.Extends (w.bindMethod method o) :=
  (extends_addScope h _ _).trans (extends_addFunction _ _)

theorem bindings_singleton (name : String) (v : Value) (other : String) :
    ((∅ : Bindings).insert name v)[other]? = if name = other then some v else none := by
  rw [Std.TreeMap.getElem?_insert]
  by_cases h : name = other
  · rw [if_pos h, if_pos (by simpa using h)]
  · rw [if_neg h, if_neg (by simpa using h)]
    simp

/-- In a scope that is made with one name, the name is ready. -/
theorem bound_of_ready {name : String} {v : Value} (other : String)
    (h : List.lookup other [(name, true)] = some true) :
    (((∅ : Bindings).insert name v)[other]?).isSome := by
  rw [Site.lookup_cons_true] at h
  rw [bindings_singleton]
  by_cases heq : other = name
  · rw [if_pos heq.symm]
    rfl
  · rw [if_neg heq] at h
    exact nomatch h

theorem Sound.bindMethod (h : w.Sound Good) (method : FunctionId) (o : ObjectId) :
    (w.bindMethod method o).Sound Good := by
  refine Sound.addFunction (h.addScope (fun name v hv => ?_) (fun _ _ => ⟨o, ?_⟩) ?_) _
  · rw [bindings_singleton] at hv
    split at hv
    · cases hv
      exact holds_of_ne nofun
    · exact nomatch hv
  · rw [bindings_singleton, if_pos rfl]
  · exact fun _ hregion => nomatch hregion

/-- Bound to an object, a method can be called. -/
theorem Method.bind (h : w.Sound Good) {method : FunctionId} (hm : w.Method Good method)
    (o : ObjectId) : (w.bindMethod method o).Callable Good ⟨w.heap.functions.size⟩ := by
  obtain ⟨-, site, hsite, hfits⟩ := hm
  have hscope := hsite.addScope h (.receiver (w.heap.functionAt method).declared)
    [("this", true)] ((∅ : Bindings).insert "this" (.object o)) bound_of_ready
  exact callable_addFunction hscope hfits

/-! ## Parameters -/

/-- Binds parameters to arguments in a scope. -/
def bindParams (w : World) (x : ScopeId) (params : List Token) (args : List Value) : World :=
  { w with heap := Machine.bindParams x params args w.heap }

theorem bindParams_fits {x : ScopeId} {region : Region} {site : Site} :
    ∀ {params : List Token} {args : List Value} {w : World} {frame : Scoping.Frame},
      w.Sound Good → w.Realises x ((region, frame) :: site) →
      (∀ p ∈ params, Plain p.lexeme) → (∀ v ∈ args, w.Holds Good v) →
      args.length = params.length →
      w.Extends (w.bindParams x params args) ∧ (w.bindParams x params args).Sound Good ∧
        (w.bindParams x params args).Realises x
          ((region, (Scoping.enterParams frame params).1) :: site)
  | [], _, w, _, h, hx, _, _, _ => ⟨.refl w, h, hx⟩
  | p :: params, [], _, _, _, _, _, _, hlength => nomatch hlength
  | p :: params, v :: args, w, frame, h, hx, hparams, hargs, hlength => by
      have hextends := w.extends_define x p.lexeme v
      have hdefined : (w.define x p.lexeme v).Sound Good :=
        h.define (hparams p (List.mem_cons_self ..))
          ((hargs v (List.mem_cons_self ..)).mono hextends)
      obtain ⟨hrest, hsound, hrealises⟩ := bindParams_fits hdefined (hx.define h p.lexeme v)
        (fun q hq => hparams q (List.mem_cons_of_mem _ hq))
        (fun u hu => (hargs u (List.mem_cons_of_mem _ hu)).mono hextends)
        (Nat.succ.inj hlength)
      exact ⟨hextends.trans hrest, hsound, hrealises⟩

/-- Adds a scope for a call, with the parameters in it. -/
def enter (w : World) (f : Closure) (args : List Value) : World :=
  (w.addScope ⟨∅, some f.scope⟩ (.call f.declared)).bindParams ⟨w.heap.scopes.size⟩
    f.declared.params args

/-- Names of parameters and of the body of a function. -/
theorem plain_of_names {f : Function} (h : ∀ t ∈ f.names, Plain t.lexeme) :
    (∀ p ∈ f.params, Plain p.lexeme) ∧ ∀ t ∈ Stmt.namesAll f.body, Plain t.lexeme := by
  cases f with
  | mk name params body =>
      exact ⟨fun p hp => h p (List.mem_cons_of_mem _ (List.mem_append_left _ hp)),
        fun t ht => h t (List.mem_cons_of_mem _ (List.mem_append_right _ ht))⟩

theorem allFit_body {site : Site} {f : Function} (h : f.Fits Good site) :
    Stmt.AllFit Good (site.inFunction f) f.body := by
  obtain ⟨huses, hnames⟩ := h
  refine ⟨?_, (plain_of_names hnames).2⟩
  cases f with
  | mk name params body => exact huses

/-- The scope of a call realises the site of the body. -/
theorem enter_fits (h : w.Sound Good) {f : Closure} {site : Site} (hscope : w.Realises f.scope site)
    (hfits : f.declared.Fits Good site) {args : List Value} (hargs : ∀ v ∈ args, w.Holds Good v)
    (hlength : args.length = f.declared.arity) :
    w.Extends (w.enter f args) ∧ (w.enter f args).Sound Good ∧
      (w.enter f args).Realises ⟨w.heap.scopes.size⟩ (site.inFunction f.declared) := by
  have hextends := extends_addScope h ⟨∅, some f.scope⟩ (.call f.declared)
  have hsound : (w.addScope ⟨∅, some f.scope⟩ (.call f.declared)).Sound Good :=
    h.addScope (fun name v hv => by simp at hv) (fun _ hregion => nomatch hregion)
      (fun _ hregion => nomatch hregion)
  have hrealises := hscope.addScope h (.call f.declared) [] ∅
    (fun name hname => nomatch hname)
  obtain ⟨hbound, hsound', hrealises'⟩ := bindParams_fits hsound hrealises
    (plain_of_names hfits.names).1 (fun v hv => (hargs v hv).mono hextends) hlength
  exact ⟨hextends.trans hbound, hsound', hrealises'⟩

/-! ## Classes -/

theorem fold_addMethod_fits {scope : ScopeId} {site : Site} :
    ∀ {methods : List Function} {w : World} {table : Std.TreeMap String FunctionId},
      w.Sound Good → w.Realises scope site → Function.AllFit Good site methods →
      (∀ (name : String) f, table[name]? = some f → w.Method Good f) →
      let result := methods.foldl (Machine.addMethod scope) (table, w.heap)
      let w' : World := { w with heap := result.2 }
      w.Extends w' ∧ w'.Sound Good ∧ (∀ (name : String) f, result.1[name]? = some f → w'.Method Good f)
  | [], w, _, h, _, _, htable => ⟨.refl w, h, htable⟩
  | declared :: methods, w, table, h, hscope, hfit, htable => by
      have hextends := w.extends_addFunction ⟨declared, scope, declared.isNamedInitializer⟩
      have hmethod : (w.addFunction ⟨declared, scope, declared.isNamedInitializer⟩).Method Good
          ⟨w.heap.functions.size⟩ :=
        method_addFunction hscope ⟨fun p hp => hfit.uses p (List.mem_append_left _ hp),
          fun t ht => hfit.names t (List.mem_append_left _ ht)⟩
      have hrest : Function.AllFit Good site methods :=
        ⟨fun p hp => hfit.uses p (List.mem_append_right _ hp),
          fun t ht => hfit.names t (List.mem_append_right _ ht)⟩
      have hadded : ∀ (name : String) f,
          (table.insert declared.name.lexeme ⟨w.heap.functions.size⟩)[name]? = some f →
          (w.addFunction ⟨declared, scope, declared.isNamedInitializer⟩).Method Good f := by
        intro name f hf
        rw [Std.TreeMap.getElem?_insert] at hf
        split at hf
        · cases hf
          exact hmethod
        · exact (htable name f hf).mono hextends
      obtain ⟨hextends', hsound, hmethods⟩ := fold_addMethod_fits (h.addFunction _)
        (hscope.mono hextends) hrest hadded
      exact ⟨hextends.trans hextends', hsound, hmethods⟩

/-- The last part of a class declaration: the methods, the class, and its name. -/
theorem addClass_fits (h : w.Sound Good) {y : ScopeId} {around : Site}
    (hy : w.Realises y around) {methods : List Function} (hfit : Function.AllFit Good around methods)
    {name : String} (hname : Plain name) (x : ScopeId) (superclass : Option ClassId) :
    let w' : World := { w with heap := w.heap.addDeclared x name superclass y methods }
    w.Extends w' ∧ w'.Sound Good := by
  intro w'
  obtain ⟨hextends, hsound, hmethods⟩ := fold_addMethod_fits h hy hfit
    (fun name f hf => by simp at hf : ∀ (name : String) f,
      (∅ : Std.TreeMap String FunctionId)[name]? = some f → w.Method Good f)
  have hclass := hsound.addClass
    (c := ⟨name, superclass, (Machine.addMethods y methods w.heap).1⟩) hmethods
  exact ⟨(hextends.trans (extends_addClass _ _)).trans (extends_define _ _ _ _),
    hclass.define hname (holds_of_ne nofun)⟩

end World

/-- The regions that a class declaration makes scopes for. -/
def Region.ofClass (superclass : Option ClassId) (methods : List Function) : List Region :=
  superclass.toList.map fun _ => .parent methods

theorem State.declareClass_fits {Good : Use → Site → Prop} {st : State} {labels : List Region}
    (h : (st.world labels).Sound Good) {site : Site}
    (hscope : (st.world labels).Realises st.scope site) {name : Token} (hname : Plain name.lexeme)
    (superclass : Option Reference) (parent : Option ClassId)
    (hsame : superclass.isSome = parent.isSome) {methods : List Function}
    (hfit : Function.AllFit Good ((site.define name.lexeme).inClass superclass methods) methods) :
    let w := (Machine.declareClass st name parent methods).world
      (labels ++ Region.ofClass parent methods)
    (st.world labels).Extends w ∧ w.Sound Good ∧ w.Realises st.scope (site.define name.lexeme) := by
  have hnil : (st.world labels).Holds Good .nil := World.holds_of_ne nofun
  have hextends := (st.world labels).extends_define st.scope name.lexeme .nil
  have hdefined : ((st.world labels).define st.scope name.lexeme .nil).Sound Good :=
    h.define hname (hnil.mono hextends)
  have hinside := hscope.define h name.lexeme .nil
  cases parent with
  | none =>
      cases superclass with
      | some use => exact nomatch hsame
      | none =>
          obtain ⟨hextends', hsound⟩ := World.addClass_fits hdefined hinside hfit hname st.scope none
          have hlabels : labels ++ Region.ofClass none methods = labels := List.append_nil labels
          rw [hlabels]
          exact ⟨hextends.trans hextends', hsound, hinside.mono hextends'⟩
  | some parent =>
      cases superclass with
      | none => exact nomatch hsame
      | some use =>
          -- the scope of `super` is there before the methods are closed over it
          have hadded := World.extends_addScope hdefined
            ⟨(∅ : Bindings).insert "super" (.classObject parent), some st.scope⟩ (.parent methods)
          have hsuper := hinside.addScope hdefined (.parent methods) [("super", true)]
            ((∅ : Bindings).insert "super" (.classObject parent)) World.bound_of_ready
          have hparent : (((st.world labels).define st.scope name.lexeme .nil).addScope
              ⟨(∅ : Bindings).insert "super" (.classObject parent), some st.scope⟩
              (.parent methods)).Sound Good := by
            refine hdefined.addScope (fun other v hv => ?_) (fun _ hregion => nomatch hregion)
              fun _ _ => ⟨parent, ?_⟩
            · rw [World.bindings_singleton] at hv
              split at hv
              · cases hv
                exact World.holds_of_ne nofun
              · exact nomatch hv
            · rw [World.bindings_singleton, if_pos rfl]
          obtain ⟨hextends', hsound⟩ :=
            World.addClass_fits hparent hsuper hfit hname st.scope (some parent)
          dsimp only [State.world]
          rw [Machine.heap_declareClass]
          exact ⟨(hextends.trans hadded).trans hextends', hsound,
            (hinside.mono hadded).mono hextends'⟩

end Lox
