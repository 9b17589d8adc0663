import Lox.Proofs.Receivers.Methods
import Lox.Proofs.Returns
import Lox.Proofs.Scopes.Agreement

/-!
# How methods get their receivers

A method is bound to an object as a property of the object, as a method of a superclass, or as the
initializer of a class that is called. So every scope that was made for the `this` of a method belongs
to a function that is this method, bound to some object. And a class is made only by its declaration,
which puts the scope of `super` around its methods.
-/

namespace Lox

namespace Machine

variable {Good : Use → Site → Prop} {target : Station} {labels : List Region} {m : Machine}

/-! ## Special names -/

/-- No special name is declared. -/
theorem Fits.declaring_plain (h : m.Fits Good labels) {t : Token} (ht : m.declaring? = some t) :
    Plain t.lexeme := by
  obtain ⟨control, frames, st⟩ := m
  obtain ⟨-, site, hcontrol, hframes⟩ := h
  unfold declaring? at ht
  dsimp only at ht hcontrol hframes
  split at ht
  · cases hcontrol with
    | exec _ hs => exact hs.names t (Stmt.declaredName_mem ht)
  · cases ht
    cases hframes with
    | cons _ hframe _ =>
        cases hframe with
        | define hname => exact hname
  · cases ht
    cases hframes with
    | cons _ hframe _ =>
        cases hframe with
        | superclass hname _ => exact hname
  · exact nomatch ht

/-- No step gives a special name another value. -/
theorem Fits.step_keeps (hgood : ∀ u site, Good u site → u.Spelled) (h : m.Fits Good labels) :
    m.state.heap.Keeps m.step.state.heap := by
  refine ⟨m.step_grows, fun x hx name hname => ?_⟩
  rcases m.step_binds hx name with hsame | hbinds
  · exact hsame
  · cases hbinds with
    | declares ht hlexeme _ => exact absurd (hlexeme ▸ h.declaring_plain ht) hname
    | @assigns v use frames hcontrol hframes hlexeme =>
        obtain ⟨control, allFrames, st⟩ := m
        dsimp only at hcontrol hframes
        subst hcontrol hframes
        obtain ⟨site, huse, -⟩ := h.exists_site (.assign v use frames st)
        have hplain : Plain use.name.lexeme := hgood _ _ huse
        exact absurd (hlexeme ▸ hplain) hname

/-! ## Classes -/

theorem step_of_makesClass {superclass : Option ClassId} {methods : List Function}
    (h : m.makesClass? = some (superclass, methods)) :
    ∃ t, m.declaring? = some t ∧ m.step.state = declareClass m.state t superclass methods := by
  obtain ⟨control, frames, st⟩ := m
  unfold makesClass? at h
  dsimp only at h
  split at h
  · cases h
    exact ⟨_, rfl, rfl⟩
  · cases h
    exact ⟨_, rfl, rfl⟩
  · exact nomatch h

/-- Classes are made by declarations only. -/
theorem step_classes (m : Machine) : m.step.state.heap.classes = m.state.heap.classes ∨
    ∃ superclass methods, m.makesClass? = some (superclass, methods) := by
  have heffect := m.step_effect
  generalize m.step.state.heap = h' at heffect
  cases heffect with
  | classDecl _ hmakes => exact .inr ⟨_, _, hmakes⟩
  | call f args => exact .inl (bindParams_same _ f.declared.params args _).2
  | construction c init args => exact .inl (bindParams_same _ _ args _).2
  | _ => exact .inl rfl

end Machine

theorem Function.mem_usesAll {site : Site} {f : Function} {p : Use × Site}
    (hp : p ∈ f.uses (site.inReceiver f)) : ∀ {methods : List Function}, f ∈ methods →
      p ∈ Function.usesAll site methods
  | _ :: _, hf => by
      rcases List.mem_cons.mp hf with rfl | hf
      · exact List.mem_append_left _ hp
      · exact List.mem_append_right _ (Function.mem_usesAll hp hf)

section

variable {Good : Use → Site → Prop}
  (hsuper : ∀ u site, Good u site → u.kind = .super → site.InheritedMethod)

include hsuper

/-- No method of a class without a superclass uses `super` itself. -/
theorem Stmt.Orderly.no_super {context : Scoping.FunctionContext} {name : Token}
    {methods : List Function} (h : (Stmt.classDecl name none methods).Orderly Good context) :
    ∀ f ∈ methods, ∀ own ∈ f.ownUses 0, own.1.kind ≠ .super := by
  intro f hf own hown hkind
  obtain ⟨-, -, site, hproper, huses, -⟩ := h
  have hwithin : Use.Within (f.uses ((site.define name.lexeme).inReceiver f))
      ((site.define name.lexeme).inReceiver f) 0 own := f.own_within own hown
  obtain ⟨site', hu, hmethod, houter⟩ := hwithin.inMethod (.receiver _ f)
  have hmem : (own.1, site') ∈ (Stmt.classDecl name none methods).uses site :=
    List.mem_append_right _ (Function.mem_usesAll hu hf)
  obtain ⟨depth, method, methods', hmethod', hparent⟩ := hsuper _ _ (huses _ hmem) hkind
  obtain ⟨rfl, rfl⟩ := hmethod.unique hmethod'
  -- right around the method is what is around the declaration, and that is no class
  rw [houter 1] at hparent
  have hparent : (site.define name.lexeme).regions[0]? = some (.parent methods') := hparent
  rw [Site.regions_define] at hparent
  cases hproper <;> exact nomatch hparent

end

/-! ## Methods that are bound -/

namespace Machine

variable {m : Machine} {f : FunctionId} {o : ObjectId}

/-- A method that is bound is one of a class. -/
theorem BindsMethod.exists_class (h : m.BindsMethod f o) :
    ∃ (c : ClassId) (name : String), (m.state.heap.classAt c).methods[name]? = some f := by
  cases h with
  | property _ _ _ hfound =>
      obtain ⟨c, hc⟩ := m.state.heap.exists_class_of_findMethodFrom hfound
      exact ⟨c, _, hc⟩
  | super _ _ _ _ hfound =>
      obtain ⟨c, hc⟩ := m.state.heap.exists_class_of_findMethodFrom hfound
      exact ⟨c, _, hc⟩
  | construction _ hfound _ _ =>
      obtain ⟨c, hc⟩ := m.state.heap.exists_class_of_findMethodFrom hfound
      exact ⟨c, _, hc⟩

/-- The step ends with the function that is bound, or it enters its body, for a new object. -/
theorem BindsMethod.step_cases (h : m.BindsMethod f o) :
    (m.step.control = .complete (.normal (.function ⟨m.state.heap.functions.size⟩)) ∧
      m.step.state.heap = (m.state.heap.bindMethod f o).2) ∨
    (m.Enters { m.state.heap.functionAt f with scope := ⟨m.state.heap.scopes.size⟩ }
        (.constructed o) ∧
      ∃ object args, m.step.state.heap = ((m.state.heap.addObject object).2.bindMethod f o).2.enter
        { m.state.heap.functionAt f with scope := ⟨m.state.heap.scopes.size⟩ } args) := by
  cases h with
  | @property _ _ name frames hcontrol hframes hfield hfound =>
      obtain ⟨control, allFrames, st⟩ := m
      dsimp only at hcontrol hframes hfield hfound
      subst hcontrol hframes
      have hproperty : Machine.property st o name = (.normal (.function (st.heap.bindMethod f o).1),
          { st with heap := (st.heap.bindMethod f o).2 }) := by
        unfold Machine.property
        rw [hfield]
        dsimp only
        rw [hfound]
      have hstep : step ⟨.complete (.normal (.object o)), .get name :: frames, st⟩
          = ⟨.complete (Machine.property st o name).1, frames, (Machine.property st o name).2⟩ := rfl
      rw [hproperty] at hstep
      rw [hstep]
      exact .inl ⟨rfl, rfl⟩
  | @super _ _ use name distance parent hcontrol haddress hsuper hthis hfound =>
      obtain ⟨control, frames, st⟩ := m
      dsimp only at hcontrol haddress hsuper hthis hfound
      subst hcontrol
      have hstep : step ⟨.eval (.super use name), frames, st⟩
          = ⟨.complete (superMethod st use name).1, frames, (superMethod st use name).2⟩ := rfl
      rw [superMethod_of_bound haddress hsuper hthis, hfound] at hstep
      rw [hstep]
      exact .inl ⟨rfl, rfl⟩
  | @construction c _ paren args hcall hfound hlength hdepth =>
      refine .inr ⟨.construction hcall hfound hlength hdepth, ⟨c, ∅⟩, args, ?_⟩
      rw [step_of_calling hcall, call_initializer hfound hlength hdepth]
      rfl

/-- **The method is bound to the object then, in a new scope.** -/
theorem BindsMethod.step (h : m.BindsMethod f o) (hf : f.index < m.state.heap.functions.size) :
    m.step.state.heap.IsBound f o ⟨m.state.heap.functions.size⟩ ∧
      (m.step.state.heap.functionAt ⟨m.state.heap.functions.size⟩).scope
        = ⟨m.state.heap.scopes.size⟩ := by
  rcases h.step_cases with ⟨-, hstep⟩ | ⟨-, object, args, hstep⟩
  · rw [hstep]
    exact m.state.heap.isBound_bindMethod o hf
  · have hbound := (m.state.heap.addObject object).2.isBound_bindMethod o hf
    have hkeeps := ((m.state.heap.addObject object).2.bindMethod f o).2.keeps_enter
      { m.state.heap.functionAt f with scope := ⟨m.state.heap.scopes.size⟩ } args
    rw [hstep]
    exact ⟨hbound.1.keeps hkeeps,
      (congrArg Closure.scope (hkeeps.grows.functionAt hbound.1.index)).trans hbound.2⟩

/-! ### Scopes for receivers -/

theorem boundRegion_receiver {m : Machine} {i : Nat} {method : Function}
    (h : m.boundRegion[i]? = some (.receiver method)) :
    i = 0 ∧ ∃ g, m.control = .complete (.normal (.function g)) ∧
      (m.state.heap.functionAt g).declared = method := by
  obtain ⟨control, frames, st⟩ := m
  unfold boundRegion at h
  dsimp only at h
  split at h
  · next g =>
    cases i with
    | zero =>
        cases h
        exact ⟨rfl, g, rfl, rfl⟩
    | succ i => exact nomatch h
  · exact nomatch h

/-- An access that makes a scope binds a method. -/
theorem Accesses.binds {r : Completion × State} (h : m.Accesses r)
    (hsize : r.2.heap.scopes.size ≠ m.state.heap.scopes.size) {g : FunctionId}
    (hg : r.1 = .normal (.function g)) :
    ∃ f o, m.BindsMethod f o ∧
      (r.2.heap.functionAt g).declared = (m.state.heap.functionAt f).declared := by
  cases h with
  | field v => exact absurd rfl hsize
  | @method f o hbinds =>
      obtain rfl : (m.state.heap.bindMethod f o).1 = g := Value.function.inj (Completion.normal.inj hg)
      have hdeclared := congrArg Closure.declared (m.state.heap.functionAt_bindMethod f o)
      exact ⟨f, o, hbinds, hdeclared⟩
  | fault t _ => exact absurd rfl hsize

/-- A call that makes scopes has the right number of arguments, and is not nested too deeply. -/
theorem call_made {callee : Value} {paren : Token} {args : List Value} {frames : List Frame}
    {st : State} (h : (call callee paren args frames st).state.heap.scopes.size
      ≠ st.heap.scopes.size) :
    st.heap.arity? callee = some args.length ∧ st.depth < State.maxDepth := by
  unfold call at h
  split at h
  · exact absurd rfl h
  · next harity =>
    split at h
    · exact absurd rfl h
    · next hlength =>
      split at h
      · exact absurd rfl h
      · next hdepth =>
        rw [harity, Decidable.of_not_not hlength]
        exact ⟨rfl, Nat.lt_of_not_le hdepth⟩

/-- What a call of a class makes the scope of a receiver for. -/
theorem entered_receiver {h : Heap} {callee : Value} {i : Nat} {method : Function}
    (hi : (entered h callee)[i]? = some (.receiver method)) :
    i = 0 ∧ ∃ c init, callee = .classObject c ∧
      h.findMethod? c Function.initializerName = some init ∧
      (h.functionAt init).declared = method := by
  unfold entered at hi
  split at hi
  · cases i <;> exact nomatch hi
  · next c =>
    split at hi
    · next init hinit =>
      match i with
      | 0 =>
          cases hi
          exact ⟨rfl, c, init, rfl, hinit, rfl⟩
      | 1 => exact nomatch hi
    · exact nomatch hi
  · exact nomatch hi

theorem entered_binds {callee : Value} {paren : Token} {args : List Value}
    (hcall : m.calling? = some (callee, paren, args))
    (hsize : m.step.state.heap.scopes.size ≠ m.state.heap.scopes.size) {i : Nat}
    {method : Function} (hi : (entered m.state.heap callee)[i]? = some (.receiver method)) :
    i = 0 ∧ ∃ f o, m.BindsMethod f o ∧ (m.state.heap.functionAt f).declared = method := by
  obtain ⟨hfirst, c, init, rfl, hinit, hmethod⟩ := entered_receiver hi
  rw [step_of_calling hcall] at hsize
  obtain ⟨harity, hdepth⟩ := call_made hsize
  have hlength : args.length = (m.state.heap.functionAt init).declared.arity := by
    have harity : some (m.state.heap.classArity c) = some args.length := harity
    unfold Heap.classArity at harity
    rw [hinit] at harity
    exact (Option.some.inj harity).symm
  exact ⟨hfirst, init, _, .construction hcall hinit hlength hdepth, hmethod⟩

/-- **A scope is made for the `this` of a method only when the method is bound.** -/
theorem opened_receiver {i : Nat} {method : Function}
    (h : m.opened[i]? = some (.receiver method)) :
    i = 0 ∧ ∃ f o, m.BindsMethod f o ∧ (m.state.heap.functionAt f).declared = method := by
  unfold opened at h
  split at h
  · exact nomatch h
  · next hsize =>
    obtain ⟨control, frames, st⟩ := m
    unfold opening at h
    dsimp only at h hsize
    split at h
    · -- a block has one region, which is not of a receiver
      cases i <;> exact nomatch h
    · next use name =>
      obtain ⟨hi, g, hg, rfl⟩ := boundRegion_receiver h
      obtain ⟨f, o, hbinds, hdeclared⟩ :=
        (superMethod_accesses use name frames st).binds hsize (Control.complete.inj hg)
      exact ⟨hi, f, o, hbinds, hdeclared.symm⟩
    · next v name frames =>
      obtain ⟨hi, g, hg, rfl⟩ := boundRegion_receiver h
      cases v with
      | object o =>
          obtain ⟨f, o', hbinds, hdeclared⟩ :=
            (property_accesses o name frames st).binds hsize (Control.complete.inj hg)
          exact ⟨hi, f, o', hbinds, hdeclared.symm⟩
      | _ => exact absurd rfl hsize
    · cases i <;> exact nomatch h
    -- of the calls only that of a class binds a method, its initializer
    · exact entered_binds rfl hsize h
    · exact entered_binds rfl hsize h
    · exact nomatch h

end Machine

/-! ## Runs -/

/-- The scope is the one that a method of a class has been bound in, to some object. -/
def Heap.Receives (h : Heap) (x : ScopeId) (method : Function) : Prop :=
  ∃ (c : ClassId) (name : String) (f : FunctionId) (o : ObjectId) (g : FunctionId),
    (h.classAt c).methods[name]? = some f ∧ (h.functionAt f).declared = method ∧ h.IsBound f o g ∧
      (h.functionAt g).scope = x

theorem Heap.Receives.keeps {h h' : Heap} (hk : h.Keeps h') {x : ScopeId} {method : Function}
    (hx : h.Receives x method) : h'.Receives x method := by
  obtain ⟨c, name, f, o, g, hf, hdeclared, hbound, hscope⟩ := hx
  have hflt := Nat.lt_trans hbound.order hbound.index
  refine ⟨c, name, f, o, g, ?_, ?_, hbound.keeps hk, ?_⟩
  · rw [hk.grows.classAt (Heap.class_lt hf), hf]
  · rw [hk.grows.functionAt hflt, hdeclared]
  · rw [hk.grows.functionAt hbound.index, hscope]

/-- In every class `super` is the superclass, and every scope that was made for the `this` of a method
is one that the method has been bound in. -/
structure World.Lexical (w : World) : Prop where
  classes : ∀ (c : ClassId) (name : String) f, (w.heap.classAt c).methods[name]? = some f →
    f.index < w.heap.functions.size ∧ w.heap.Inherits (w.heap.classAt c).superclass f
  receivers : ∀ (x : ScopeId) method, w.labels[x.index]? = some (.receiver method) →
    w.heap.Receives x method

namespace Machine

variable {Good : Use → Site → Prop} {target : Station} {labels : List Region} {m : Machine}
  (hsuper : ∀ u site, Good u site → u.kind = .super → site.InheritedMethod)

include hsuper

theorem Flows.no_super (h : m.Flows Good target) {methods : List Function}
    (hmakes : m.makesClass? = some (none, methods)) :
    ∀ f ∈ methods, ∀ own ∈ f.ownUses 0, own.1.kind ≠ .super := by
  obtain ⟨control, frames, st⟩ := m
  obtain ⟨-, station, hcontrol, -⟩ := h
  unfold makesClass? at hmakes
  dsimp only at hmakes hcontrol
  split at hmakes
  · cases hmakes
    cases hcontrol with
    | exec hs => exact hs.no_super hsuper
  · exact nomatch hmakes
  · exact nomatch hmakes

variable (hgood : ∀ u site, Good u site → u.Spelled)

include hgood

/-- **No step takes a class its superclass or a method its receiver.** -/
theorem lexical_step (hfits : m.Fits Good labels) (hflows : m.Flows Good target)
    (h : (m.state.world labels).Lexical) :
    (m.step.state.world (labels ++ m.opened)).Lexical := by
  have hkeeps := hfits.step_keeps hgood
  have hlength : labels.length = m.state.heap.scopes.size := hfits.sound.length
  obtain ⟨hclasses, hreceivers⟩ := h
  -- a class that was there before has the same methods
  have hold (c : ClassId) (hc : m.step.state.heap.classAt c = m.state.heap.classAt c)
      (name : String) (f : FunctionId)
      (hf : (m.step.state.heap.classAt c).methods[name]? = some f) :
      f.index < m.step.state.heap.functions.size ∧
        m.step.state.heap.Inherits (m.step.state.heap.classAt c).superclass f := by
    rw [hc] at hf ⊢
    obtain ⟨hlt, hinherits⟩ := hclasses c name f hf
    exact ⟨Nat.lt_of_lt_of_le hlt hkeeps.grows.functions_size, hinherits.keeps hkeeps hlt⟩
  refine ⟨fun c name f hf => ?_, fun x method hx => ?_⟩
  · have hf : (m.step.state.heap.classAt c).methods[name]? = some f := hf
    rcases m.step_classes with hsame | ⟨superclass, methods, hmakes⟩
    · have hc : m.step.state.heap.classAt c = m.state.heap.classAt c := by
        rw [Heap.classAt, Heap.classAt, hsame]
      exact hold c hc name f hf
    · -- the step makes a class, and leaves the others as they are
      obtain ⟨t, ht, hstate⟩ := step_of_makesClass hmakes
      obtain ⟨hother, hnew, hinherits⟩ := declareClass_class m.state (hfits.declaring_plain ht)
        superclass fun hnone => hflows.no_super hsuper (hnone ▸ hmakes)
      rw [← hstate] at hother hnew hinherits
      by_cases hc : c = ⟨m.state.heap.classes.size⟩
      · subst hc
        rw [State.world]
        dsimp only
        rw [hnew.superclass]
        exact ⟨(hnew.methods name f hf).1, hinherits name f hf⟩
      · exact hold c (hother c hc) name f hf
  · have hx : (labels ++ m.opened)[x.index]? = some (.receiver method) := hx
    by_cases hlt : x.index < labels.length
    · rw [List.getElem?_append_left hlt] at hx
      exact (hreceivers x method hx).keeps hkeeps
    · -- the scope is new, so the step has bound a method
      have hle := Nat.le_of_not_lt hlt
      rw [List.getElem?_append_right hle] at hx
      obtain ⟨hindex, f, o, hbinds, rfl⟩ := opened_receiver hx
      obtain ⟨c, name, hf⟩ := hbinds.exists_class
      obtain ⟨hflt, -⟩ := hclasses c name f hf
      obtain ⟨hbound, hscope⟩ := hbinds.step hflt
      have hx' : (⟨m.state.heap.scopes.size⟩ : ScopeId) = x := by
        rw [← hlength, Nat.le_antisymm hle (Nat.le_of_sub_eq_zero hindex)]
      refine ⟨c, name, f, o, _, ?_, ?_, hbound, hscope.trans hx'⟩
      · show (m.step.state.heap.classAt c).methods[name]? = some f
        rw [hkeeps.grows.classAt (Heap.class_lt hf), hf]
      · exact congrArg Closure.declared (hkeeps.grows.functionAt hflt)

theorem lexical_run : ∀ (limit : Nat) {labels : List Region} {m : Machine}, m.Fits Good labels →
    m.Flows Good target → (m.state.world labels).Lexical →
      ((m.run limit).state.world (labels ++ m.openedIn limit)).Lexical
  | 0, labels, m, _, _, h => by
      rw [openedIn, List.append_nil]
      exact h
  | limit + 1, labels, m, hfits, hflows, h => by
      rw [run_succ, openedIn, ← List.append_assoc]
      exact lexical_run limit (hfits.step hgood) hflows.step
        (lexical_step hsuper hgood hfits hflows h)

end Machine

end Lox
