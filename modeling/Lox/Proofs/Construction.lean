import Lox.Proofs.Construction.Origins

/-!
# Constructors and initializers yield the instance

A class that is called yields the object that the call has made, whatever the body of the initializer does.
An initializer that is called by itself yields what `this` is bound to around its body; and as only methods
that were bound to an object are ever at hand, this is an object, the one that the initializer was taken
from. For all this, only the flag of the function counts, and not its name.
-/

namespace Lox

/-! ## Initializers are bound to objects -/

namespace Heap

/-- A function that is an initializer is a method that was bound to an object. -/
def Initialized (h : Heap) (v : Value) : Prop :=
  ∀ g, v = .function g → h.Has (.function g) ∧
    ((h.functionAt g).isInitializer = true → ∃ method o, h.IsBound method o g)

theorem Initialized.of_plain {h : Heap} {v : Value} (hv : ∀ g, v ≠ .function g) : h.Initialized v :=
  fun g hg => absurd hg (hv g)

theorem Initialized.keeps {h h' : Heap} (hk : h.Keeps h') {v : Value} (hv : h.Initialized v) :
    h'.Initialized v := by
  intro g hg
  obtain ⟨hlt, hbound⟩ := hv g hg
  refine ⟨hk.grows.has hlt, fun hinitializer => ?_⟩
  rw [hk.grows.functionAt hlt] at hinitializer
  obtain ⟨method, o, hbound⟩ := hbound hinitializer
  exact ⟨method, o, hbound.keeps hk⟩

end Heap

namespace Machine

/-- All initializers that the machine has at hand are bound to objects, and those that are running have been
called so. -/
structure Initialized (m : Machine) : Prop where
  values : m.AllValues m.state.heap.Initialized
  calls : ∀ caller scope, .activation caller (.receiver scope) ∈ m.frames →
    ∃ o, m.state.heap.bound? scope "this" = some (.object o)

variable {m : Machine}

/-- What is called is at hand. -/
theorem AllValues.callee {P : Value → Prop} (h : m.AllValues P) {callee : Value} {paren : Token}
    {args : List Value} (hcall : m.calling? = some (callee, paren, args)) : P callee := by
  obtain ⟨control, frames, st⟩ := m
  obtain ⟨hcontrol, hframes, -⟩ := h
  unfold calling? at hcall
  dsimp only at hcall
  split at hcall
  · cases hcall
    exact hcontrol _ (List.mem_cons_self ..)
  · cases hcall
    exact hframes _ (List.mem_cons_self ..) _ (List.mem_cons_self ..)
  · cases hcall

/-- The frame of a call comes about when its body is entered. -/
theorem step_activation {caller : ScopeId} {result : CallResult}
    (h : .activation caller result ∈ m.step.frames) :
    .activation caller result ∈ m.frames ∨ ∃ f, m.Enters f result := by
  suffices ∀ m', m.Moves m' → .activation caller result ∈ m'.frames →
      .activation caller result ∈ m.frames ∨ ∃ f, m.Enters f result from this _ m.step_moves h
  intro m' hmoves hmem
  have below {frames : List Frame} (hbelow : frames <:+ m.frames)
      (hmem : .activation caller result ∈ frames) :
      .activation caller result ∈ m.frames ∨ ∃ f, m.Enters f result := .inl (hbelow.subset hmem)
  have gone {frame : Frame} {frames : List Frame} (hat : m.frames = frame :: frames) :
      frames <:+ m.frames := by
    rw [hat]
    exact List.suffix_cons _ _
  -- the other frames that a step adds are of other kinds
  cases hmoves with
  | rests _ _ _ hbelow _ => exact below hbelow.suffix hmem
  | waits hbelow _ hpart =>
      rcases List.mem_cons.mp hmem with rfl | hmem
      · cases hpart
      · exact below hbelow.suffix hmem
  | awaits _ =>
      rcases List.mem_cons.mp hmem with heq | hmem
      · cases heq
      · exact .inl hmem
  | leaves _ => exact .inl hmem
  | givesBack _ hat => exact below (gone hat) hmem
  | passes _ hat _ => exact below (gone hat) hmem
  | opens _ =>
      rcases List.mem_cons.mp hmem with heq | hmem
      · cases heq
      · rcases List.mem_cons.mp hmem with heq | hmem
        · cases heq
        · exact .inl hmem
  | closes _ hat _ => exact below (gone hat) hmem
  | enters args henters _ =>
      rcases List.mem_cons.mp hmem with heq | hmem
      · cases heq
      · rcases List.mem_cons.mp hmem with heq | hmem
        · cases heq
          exact .inr ⟨_, henters⟩
        · exact below henters.below.suffix hmem
  | overflows hcall _ _ => exact below (below_of_calling hcall).suffix hmem
  | returns _ hat _ => exact below (gone hat) hmem
  | next _ hat =>
      rcases List.mem_cons.mp hmem with heq | hmem
      · cases heq
      · exact below (gone hat) hmem
  | ends _ hat _ => exact below (gone hat) hmem
  | aborts _ hat => exact below (gone hat) hmem
  | halted _ => exact .inl hmem

/-- A call that is to yield its receiver is one of an initializer that is at hand. -/
theorem Enters.receiver {f : Closure} {scope : ScopeId} (h : m.Enters f (.receiver scope)) :
    ∃ g paren args, m.calling? = some (.function g, paren, args) ∧
      (m.state.heap.functionAt g).isInitializer = true ∧
      scope = (m.state.heap.functionAt g).scope := by
  generalize hresult : CallResult.receiver scope = result at h
  cases h with
  | @function g paren args hcall _ _ =>
      split at hresult
      · next hinitializer => exact ⟨g, paren, args, hcall, hinitializer, CallResult.receiver.inj hresult⟩
      · cases hresult
  | construction => cases hresult

theorem has_functionDecl {declared : Function} (hcontrol : m.control = .exec (.functionDecl declared)) :
    m.step.state.heap.Has (.function ⟨m.state.heap.functions.size⟩) := by
  obtain ⟨control, frames, st⟩ := m
  dsimp only at hcontrol
  subst hcontrol
  exact (Heap.Grows.define _ _ _ _).has (Heap.has_addFunction ⟨declared, st.scope, false⟩)

theorem BindsMethod.lt (hm : m.Intact) {method : FunctionId} {o : ObjectId}
    (h : m.BindsMethod method o) : method.index < m.state.heap.functions.size := by
  obtain ⟨c, name, hmethod⟩ := h.exists_class
  exact hm.state.heap.refers (.classObject c) (.function method) (Heap.class_lt hmethod) (.method hmethod)

/-- **No step comes by an initializer that is bound to nothing.** -/
theorem Initialized.step (h : m.Initialized) (hm : m.Intact)
    (hk : m.state.heap.Keeps m.step.state.heap) : m.step.Initialized := by
  refine ⟨?_, fun caller scope hcall => ?_⟩
  · refine step_values (fun v => Heap.Initialized.of_plain)
      (h.values.imp fun v hv => hv.keeps hk) (fun declared hcontrol g hg => ?_)
      fun method o hbinds g hg => ?_
    · cases hg
      refine ⟨has_functionDecl hcontrol, fun hinitializer => ?_⟩
      rw [step_functionDecl hcontrol] at hinitializer
      cases hinitializer
    · cases hg
      obtain ⟨hbound, -⟩ := hbinds.step (hbinds.lt hm)
      exact ⟨hbound.index, fun _ => ⟨method, o, hbound⟩⟩
  · rcases step_activation hcall with hold | ⟨f, henters⟩
    · obtain ⟨o, ho⟩ := h.calls caller scope hold
      exact ⟨o, hk.bound not_plain_this ho⟩
    · obtain ⟨g, paren, args, hcalling, hinitializer, rfl⟩ := henters.receiver
      obtain ⟨-, hbound⟩ := h.values.callee hcalling g rfl
      obtain ⟨method, o, hbound⟩ := hbound hinitializer
      exact ⟨o, hk.bound not_plain_this hbound.this⟩

end Machine

namespace Moment

variable {a b : Moment}

def Initialized : Moment → Prop
  | between s => s.state.heap.AllValues s.state.heap.Initialized
  | during _ m => m.Initialized

theorem natives_values {P : Value → Prop} (hplain : ∀ v, (∀ g, v ≠ .function g) → P v)
    (globals : ScopeId) (natives : List Native) {h : Heap} (hh : h.AllValues P) :
    (natives.foldl (fun h f => h.define globals f.name (.native f)) h).AllValues P :=
  natives.foldlRecOn _ hh fun _ hh f _ => hh.define globals f.name (hplain (.native f) nofun)

theorem Initialized.fresh (output : Sink) (clock : Clock) :
    (between (.fresh output clock)).Initialized := by
  have htop : (Heap.empty.addScope ⟨∅, none⟩).2.AllValues
      (State.initial output clock).heap.Initialized := by
    refine ⟨fun x name v hv => ?_, fun o name v hv => absurd (Heap.object_lt hv) (Nat.not_lt_zero _)⟩
    rw [Heap.bound?_addScope] at hv
    split at hv
    · simp at hv
    · exact absurd (Heap.scope_lt hv) (Nat.not_lt_zero _)
  exact natives_values (fun v => Heap.Initialized.of_plain) ⟨0⟩ Native.all htop

theorem Reached.next (h : a.Reached) (hnext : a.Next b) : b.Reached := by
  obtain ⟨output, clock, hleads⟩ := h
  exact ⟨output, clock, hleads.tail hnext⟩

theorem Reached.leads (h : a.Reached) (hleads : a.Leads b) : b.Reached := by
  obtain ⟨output, clock, hbefore⟩ := h
  exact ⟨output, clock, hbefore.trans hleads⟩

theorem Initialized.next (h : a.Initialized) (ha : a.Reached) (hnext : a.Next b) : b.Initialized := by
  cases hnext with
  | @rejected s s' source e hload =>
      cases Session.Loads.of_load hload with
      | unread _ => exact h
      | unscoped _ _ => exact h
  | @loaded s loaded source m hload =>
      cases Session.Loads.of_load hload with
      | @loaded P _ _ =>
          -- a program starts with nothing at hand
          have hplain : s.state.heap.Initialized .nil := .of_plain nofun
          refine ⟨⟨List.forall_mem_singleton.mpr hplain, fun frame hframe v hv => ?_, h⟩,
            fun caller scope hcall => ?_⟩
          · rw [List.mem_singleton.mp hframe] at hv
            cases hv
          · exact nomatch List.mem_singleton.mp hcall
  | step loaded m => exact Machine.Initialized.step h ha.intact (ha.arises.keeps_next (.step loaded m))
  | @concluded loaded m c hc =>
      show (loaded.conclude c m.state).1.state.heap.AllValues _
      rw [Session.conclude_state]
      exact Machine.AllValues.heap (Machine.Initialized.values h)
  | parse s source => exact h
  | resetErrors s => exact h
  | host s output clock => exact h

theorem Reached.initialized (h : a.Reached) : a.Initialized := by
  obtain ⟨output, clock, hleads⟩ := h
  induction hleads with
  | refl => exact .fresh output clock
  | tail hleads hnext ih => exact ih.next ⟨output, clock, hleads⟩ hnext

/-- What is reached while a program runs belongs to the session that has loaded it. -/
theorem Reached.belongs {loaded : Session} {m : Machine} (h : (during loaded m).Reached) :
    ∃ programs labels, m.Belongs loaded programs ∧ m.Fits (Use.Among programs) labels ∧
      (m.state.world labels).Lexical ∧ ∀ P ∈ programs, (Scoping.ofProgram P).faults = [] := by
  obtain ⟨s, source, m₀, n, hs, hload, rfl⟩ := h.arises
  exact hs.lexical hload n

end Moment

/-! ## The end of a call -/

namespace Machine

variable {m : Machine} {frames : List Frame} {st : State} {k : Nat} {done : Completion}

/-- A call that is not made has failed at once. -/
theorem Ends.at_once {c : Completion} (h : (⟨.complete c, frames, st⟩ : Machine).Ends frames k done) :
    done = c :=
  (h.first (Nat.zero_le k) rfl rfl).2

/-- A body that has ended without a failure ends its call with the value that the call is to have. -/
theorem step_ended {c : Completion} (hc : ∀ failure, c ≠ .raised failure) {caller : ScopeId}
    {result : CallResult} (hcontrol : m.control = .complete c)
    (hframes : m.frames = .activation caller result :: frames) :
    m.step.frames = frames ∧
      ∃ v, m.step.control = .complete (.normal (callValue m.step.state.heap result v)) := by
  obtain ⟨control, allFrames, st⟩ := m
  dsimp only at hcontrol hframes
  subst hcontrol hframes
  cases c with
  | normal v => exact ⟨rfl, .nil, rfl⟩
  | returned v => exact ⟨rfl, v, rfl⟩
  | raised failure => exact absurd rfl (hc failure)

/-- **A call fails, or it has the value that it is to have.** -/
theorem enter_ends {f : Closure} {result : CallResult} {args : List Value}
    (h : (enter f result args frames st).Ends frames k done) :
    (∃ failure, done = .raised failure) ∨
      ∃ v, done = .normal (callValue ((enter f result args frames st).run k).state.heap result v) := by
  have habove : enter f result args frames st = (⟨.complete .done, [.sequence f.declared.body],
      (enter f result args frames st).state⟩ : Machine).above (.activation st.scope result :: frames) := rfl
  obtain ⟨j, c, hj, hended⟩ := h.inner habove
  generalize enter f result args frames st = entered at h hended
  by_cases hraised : ∃ failure, c = .raised failure
  · -- a failure of the body is one of the call
    obtain ⟨failure, rfl⟩ := hraised
    exact .inl ⟨failure, h.of_raised (Nat.le_of_lt hj) hended.control⟩
  · obtain ⟨hframes, v, hcontrol⟩ := step_ended (fun failure hc => hraised ⟨failure, hc⟩)
      hended.control hended.frames
    rw [← run_succ_last] at hframes hcontrol
    obtain ⟨rfl, hdone⟩ := h.first hj hcontrol hframes
    exact .inr ⟨v, hdone⟩

/-! ### Classes -/

/-- The new object is there before anything else is done. -/
theorem construct_grows (c : ClassId) (args : List Value) (frames : List Frame) (st : State) :
    (st.heap.addObject ⟨c, ∅⟩).2.Grows (construct c args frames st).state.heap := by
  unfold construct
  dsimp only
  split
  · exact (Heap.Grows.bindMethod _ _ _).trans (.enter _ _ args)
  · exact .refl _

/-- What a call of a class constructs is an object of this class, then and later. -/
theorem construct_ofClass (c : ClassId) (args : List Value) (frames : List Frame) (st : State)
    (k : Nat) : (((construct c args frames st).run k).state.heap.objectAt
      ⟨st.heap.objects.size⟩).ofClass = c := by
  have hadded : (st.heap.addObject ⟨c, ∅⟩).2.Has (.object ⟨st.heap.objects.size⟩) :=
    Heap.has_addObject _
  have hgrows := (construct_grows c args frames st).trans (run_grows k _)
  rw [hgrows.ofClass hadded, Heap.objectAt_addObject, if_pos rfl]

theorem construct_ends {c : ClassId} {args : List Value}
    (h : (construct c args frames st).Ends frames k done) :
    (∃ failure, done = .raised failure) ∨ done = .normal (.object ⟨st.heap.objects.size⟩) := by
  unfold construct at h
  dsimp only at h
  split at h
  · rcases enter_ends h with hraised | ⟨v, hdone⟩
    · exact .inl hraised
    · exact .inr hdone
  · exact .inr h.at_once

/-- **A call of a class fails, or it yields the new object.** -/
theorem call_class_ends {c : ClassId} {paren : Token} {args : List Value}
    (h : (call (.classObject c) paren args frames st).Ends frames k done) :
    (∃ failure, done = .raised failure) ∨
      done = .normal (.object ⟨st.heap.objects.size⟩) ∧
        (((call (.classObject c) paren args frames st).run k).state.heap.objectAt
          ⟨st.heap.objects.size⟩).ofClass = c := by
  unfold call at h ⊢
  dsimp only [Heap.arity?] at h ⊢
  split at h
  · exact .inl ⟨_, h.at_once⟩
  · next hlength =>
    rw [if_neg hlength]
    split at h
    · exact .inl ⟨_, h.at_once⟩
    · next hdepth =>
      rw [if_neg hdepth]
      rcases construct_ends h with hraised | hdone
      · exact .inl hraised
      · exact .inr ⟨hdone, construct_ofClass c args frames st k⟩

/-! ### Functions and initializers -/

/-- A call of a function has failed at once, or the body of the function is entered. -/
theorem call_function_made {g : FunctionId} {paren : Token} {args : List Value}
    (h : (call (.function g) paren args frames st).Ends frames k done) :
    (∃ failure, done = .raised failure) ∨
      args.length = (st.heap.functionAt g).declared.arity ∧ st.depth < State.maxDepth ∧
        call (.function g) paren args frames st = enter (st.heap.functionAt g)
          (if (st.heap.functionAt g).isInitializer then .receiver (st.heap.functionAt g).scope
            else .ofBody) args frames st := by
  unfold call at h ⊢
  dsimp only [Heap.arity?] at h ⊢
  split at h
  · exact .inl ⟨_, h.at_once⟩
  · next hlength =>
    rw [if_neg hlength]
    split at h
    · exact .inl ⟨_, h.at_once⟩
    · next hdepth =>
      rw [if_neg hdepth]
      exact .inr ⟨Decidable.of_not_not hlength, Nat.lt_of_not_le hdepth, rfl⟩

/-- **A call of an initializer fails, or it yields what `this` is bound to around the body.** -/
theorem call_initializer_ends {g : FunctionId} {paren : Token} {args : List Value}
    (hinitializer : (st.heap.functionAt g).isInitializer = true)
    (h : (call (.function g) paren args frames st).Ends frames k done) :
    (∃ failure, done = .raised failure) ∨
      done = .normal ((((call (.function g) paren args frames st).run k).state.heap.bound?
        (st.heap.functionAt g).scope "this").getD .nil) := by
  rcases call_function_made h with hraised | ⟨-, -, hcall⟩
  · exact .inl hraised
  · rw [if_pos hinitializer] at hcall
    rw [hcall] at h ⊢
    rcases enter_ends h with hraised | ⟨v, hdone⟩
    · exact .inl hraised
    · exact .inr hdone

/-- The next step takes the initializer of this object: as a property, which is no field; or as a method of
`super`, in a method that was bound to the object. -/
inductive TakesInitializer (m : Machine) : ObjectId → Prop where
  | property {o : ObjectId} {name : Token} {frames : List Frame} :
      m.control = .complete (.normal (.object o)) → m.frames = .get name :: frames →
      name.lexeme = Function.initializerName →
      (m.state.heap.objectAt o).fields[name.lexeme]? = none → TakesInitializer m o
  | super {o : ObjectId} {use : Reference} {name : Token} {c : ClassId} {method : FunctionId} :
      m.control = .eval (.super use name) → name.lexeme = Function.initializerName →
      m.state.InMethod ⟨.super, use⟩ c method o → TakesInitializer m o

section

variable {loaded : Session} {programs : List (List Stmt)} {labels : List Region}
  (hbelongs : m.Belongs loaded programs) (hfits : m.Fits (Use.Among programs) labels)
  (hlexical : (m.state.world labels).Lexical)
  (haccepted : ∀ P ∈ programs, (Scoping.ofProgram P).faults = [])

include hbelongs hfits hlexical haccepted

/-- What is taken is a method that was found by its name, bound to the object. -/
theorem TakesInitializer.binds {o : ObjectId} (h : m.TakesInitializer o) {g : FunctionId}
    (hg : m.step.control = .complete (.normal (.function g))) :
    g = ⟨m.state.heap.functions.size⟩ ∧ ∃ c method,
      m.state.heap.findMethod? c Function.initializerName = some method ∧
        m.step.state.heap = (m.state.heap.bindMethod method o).2 := by
  cases h with
  | @property name frames hcontrol hframes hname hnone =>
      cases hfound : m.state.heap.findMethod? (m.state.heap.objectAt o).ofClass name.lexeme with
      | some method =>
          have hbinds : m.BindsMethod method o := .property hcontrol hframes hnone hfound
          rw [hname] at hfound
          rcases hbinds.step_cases with ⟨hstep, hheap⟩ | ⟨henters, -⟩
          · rw [hg] at hstep
            cases hstep
            exact ⟨rfl, _, method, hfound, hheap⟩
          · rw [henters.step.1] at hg
            cases hg
      | none =>
          -- there is no such method, and so no value
          obtain ⟨control, allFrames, st⟩ := m
          dsimp only at hcontrol hframes hnone hfound
          subst hcontrol hframes
          have hstep : step ⟨.complete (.normal (.object o)), .get name :: frames, st⟩
              = ⟨.complete (Machine.property st o name).1, frames, (Machine.property st o name).2⟩ := rfl
          rw [hstep] at hg
          unfold Machine.property at hg
          rw [hnone] at hg
          dsimp only at hg
          rw [hfound] at hg
          cases hg
  | @super use name c method hcontrol hname hmethod =>
      have huse : m.use? = some ⟨.super, use⟩ := by rw [use?, hcontrol]
      obtain ⟨site, depth, declared, hstands⟩ :=
        hbelongs.stands hfits haccepted (evaluates huse) (.inr rfl)
      obtain ⟨parent, -, hstep⟩ := hstands.super_value hbelongs hfits hlexical hmethod hcontrol huse
      cases hfound : m.state.heap.findMethod? parent name.lexeme with
      | some found =>
          rw [hfound] at hstep
          rw [hname] at hfound
          rw [hstep] at hg ⊢
          cases hg
          exact ⟨rfl, parent, found, hfound, rfl⟩
      | none =>
          rw [hfound] at hstep
          rw [hstep] at hg
          cases hg

/-- By way of `super` the initializer is always taken from the object that `this` is there. -/
theorem takesInitializer_super {use : Reference} {name : Token}
    (hcontrol : m.control = .eval (.super use name)) (hname : name.lexeme = Function.initializerName) :
    ∃ o depth, m.TakesInitializer o ∧ m.state.addresses[use.id]? = some (depth + 1) ∧
      m.state.heap.lookupAt? m.state.scope depth "this" = some (.object o) := by
  have huse : m.use? = some ⟨.super, use⟩ := by rw [use?, hcontrol]
  obtain ⟨site, depth, declared, hstands⟩ :=
    hbelongs.stands hfits haccepted (evaluates huse) (.inr rfl)
  obtain ⟨c, method, o, hmethod⟩ := hstands.exists_method hlexical
  refine ⟨o, depth, .super hcontrol hname hmethod, hstands.super rfl, ?_⟩
  obtain ⟨⟨entry, hentry⟩, g, depth', hbound, hown, hscope⟩ := hmethod
  obtain rfl := hstands.depth_eq hbelongs hfits hentry hown
  rw [Heap.lookupAt?, hscope.ancestor]
  exact hbound.this

/-- **An initializer that is taken is bound to the object, and stays an initializer.** -/
theorem TakesInitializer.step {o : ObjectId} (h : m.TakesInitializer o) {g : FunctionId}
    (hg : m.step.control = .complete (.normal (.function g))) :
    (m.step.state.heap.functionAt g).isInitializer = true ∧
      ∃ method, m.step.state.heap.IsBound method o g := by
  obtain ⟨rfl, c, method, hfound, hheap⟩ := h.binds hbelongs hfits hlexical haccepted hg
  obtain ⟨d, hmethod⟩ := m.state.heap.exists_class_of_findMethodFrom hfound
  obtain ⟨hlt, hinitializer⟩ := hbelongs.flows.heap.methods d _ method hmethod
  rw [beq_self_eq_true] at hinitializer
  rw [hheap]
  refine ⟨?_, method, (m.state.heap.isBound_bindMethod o hlt).1⟩
  have hfunction := m.state.heap.functionAt_bindMethod method o
  exact (congrArg Closure.isInitializer hfunction).trans hinitializer

end

end Machine

/-! ## In a session -/

namespace Moment

variable {loaded loaded' : Session} {m m' : Machine}

/-- What is bound to an object yields the object whenever it is called, if it is an initializer. -/
theorem Leads.initializer_ends {a : Moment} (ha : a.Reached) (h : a.Leads (during loaded m))
    {method g : FunctionId} {o : ObjectId} (hbound : a.heap.IsBound method o g)
    (hinitializer : (a.heap.functionAt g).isInitializer = true) {paren : Token} {args : List Value}
    (hcall : m.calling? = some (.function g, paren, args)) {k : Nat} {done : Completion}
    (hends : m.step.Ends m.frames.tail k done) :
    (∃ failure, done = .raised failure) ∨ done = .normal (.object o) := by
  have hgrows := (h.keeps ha.arises).grows
  have hkept : (during loaded m).heap.functionAt g = a.heap.functionAt g := hgrows.functionAt hbound.index
  have hkept : m.state.heap.functionAt g = a.heap.functionAt g := hkept
  -- the scope of `this` is still the same when the call ends
  have hlater : a.Leads (during loaded (m.step.run k)) :=
    (h.tail (.step loaded m)).trans (leads_run loaded m.step k)
  have hthis : (m.step.run k).state.heap.bound? (a.heap.functionAt g).scope "this" = some (.object o) :=
    (hlater.keeps ha.arises).bound not_plain_this hbound.this
  rw [Machine.step_of_calling hcall] at hends hthis
  rcases Machine.call_initializer_ends (by rw [hkept, hinitializer]) hends with hraised | hdone
  · exact .inl hraised
  · rw [hkept, hthis] at hdone
    exact .inr hdone

/-- A function that was declared yields what its body gives back, whatever its name is. -/
theorem Leads.function_ends {a : Moment} (ha : a.Reached) (h : a.Leads (during loaded m))
    {g : FunctionId} (hg : a.heap.Has (.function g))
    (hinitializer : (a.heap.functionAt g).isInitializer = false) {paren : Token} {args : List Value}
    (hcall : m.calling? = some (.function g, paren, args)) {k : Nat} {w : Value}
    (hends : m.step.Ends m.frames.tail k (.normal w)) :
    ∃ j c, k = j + 1 ∧ m.step.Ends (m.waiting .ofBody) j c ∧ m.step.Gives (m.waiting .ofBody) j c w := by
  obtain ⟨programs, labels, hbelongs, -⟩ := (ha.leads h).belongs
  have hkept : m.state.heap.functionAt g = a.heap.functionAt g := (h.keeps ha.arises).grows.functionAt hg
  have hno : (m.state.heap.functionAt g).isInitializer = false := by rw [hkept, hinitializer]
  have hmade := hends
  rw [Machine.step_of_calling hcall] at hmade
  rcases Machine.call_function_made hmade with ⟨failure, hraised⟩ | ⟨hlength, hdepth, -⟩
  · cases hraised
  have henters : m.Enters (m.state.heap.functionAt g) .ofBody := by
    have h := Machine.Enters.function hcall hlength hdepth
    rwa [if_neg (by rw [hno]; exact Bool.false_ne_true)] at h
  obtain ⟨j, c, v, hk, hended, hgives, hvalue⟩ := henters.yields hbelongs.flows hends
  obtain rfl := hvalue rfl
  exact ⟨j, c, hk, hended, hgives⟩

end Moment

/-- **Constructors and initializers yield the instance.** At every moment of a program, a call of a class fails
or yields an object of this class that is none of those that can be reached before, whatever arguments it has
and whatever the initializer does, if there is one. An initializer that is taken from an object, or by way of
`super` from the object that `this` is there, yields the object whenever it is called after that, or the call
fails. Every call of an initializer that is running has an object to yield. A function that was declared
yields what its own body gives back, whatever it is called. -/
theorem constructors_and_initializers_yield_the_instance {loaded : Session} {m : Machine}
    (h : (Moment.during loaded m).Reached) :
    (∀ o, (Moment.during loaded m).Reaches (.object o) → o ≠ ⟨m.state.heap.objects.size⟩) ∧
    (∀ c paren args, m.calling? = some (.classObject c, paren, args) →
      m.step = Machine.call (.classObject c) paren args m.frames.tail m.state) ∧
    (∀ c paren args frames k done,
      (Machine.call (.classObject c) paren args frames m.state).Ends frames k done →
      (∃ failure, done = .raised failure) ∨
        done = .normal (.object ⟨m.state.heap.objects.size⟩) ∧
          (((Machine.call (.classObject c) paren args frames m.state).run k).state.heap.objectAt
            ⟨m.state.heap.objects.size⟩).ofClass = c) ∧
    (∀ o g, m.TakesInitializer o → m.step.control = .complete (.normal (.function g)) →
      ∀ loaded' m', (Moment.during loaded m.step).Leads (.during loaded' m') →
        ∀ paren args, m'.calling? = some (.function g, paren, args) →
          ∀ k done, m'.step.Ends m'.frames.tail k done →
            (∃ failure, done = .raised failure) ∨ done = .normal (.object o)) ∧
    (∀ use name, m.control = .eval (.super use name) → name.lexeme = Function.initializerName →
      ∃ o depth, m.TakesInitializer o ∧ m.state.addresses[use.id]? = some (depth + 1) ∧
        m.state.heap.lookupAt? m.state.scope depth "this" = some (.object o)) ∧
    (∀ caller scope, .activation caller (.receiver scope) ∈ m.frames →
      ∃ o, ∀ v, Machine.callValue m.state.heap (.receiver scope) v = .object o) ∧
    ∀ declared, m.control = .exec (.functionDecl declared) →
      ∀ loaded' m', (Moment.during loaded m.step).Leads (.during loaded' m') →
        ∀ paren args, m'.calling? = some (.function ⟨m.state.heap.functions.size⟩, paren, args) →
          ∀ k w, m'.step.Ends m'.frames.tail k (.normal w) →
            ∃ j c, k = j + 1 ∧ m'.step.Ends (m'.waiting .ofBody) j c ∧
              m'.step.Gives (m'.waiting .ofBody) j c w := by
  have hnext : (Moment.during loaded m.step).Reached := h.next (.step loaded m)
  refine ⟨fun o ho => ?_, fun c paren args hcall => Machine.step_of_calling hcall,
    fun c paren args frames k done hends => Machine.call_class_ends hends,
    fun o g htakes hg loaded' m' hleads paren args hcall k done hends => ?_,
    fun use name hcontrol hname => ?_, fun caller scope hcall => ?_,
    fun declared hdeclared loaded' m' hleads paren args hcall k w hends => ?_⟩
  · -- what can be reached is on the heap
    rintro rfl
    exact Nat.lt_irrefl _ (h.intact.has ho)
  · obtain ⟨programs, labels, hbelongs, hfits, hlexical, haccepted⟩ := h.belongs
    obtain ⟨hinitializer, method, hbound⟩ := htakes.step hbelongs hfits hlexical haccepted hg
    exact hleads.initializer_ends hnext hbound hinitializer hcall hends
  · obtain ⟨programs, labels, hbelongs, hfits, hlexical, haccepted⟩ := h.belongs
    exact Machine.takesInitializer_super hbelongs hfits hlexical haccepted hcontrol hname
  · have hinitialized : m.Initialized := h.initialized
    obtain ⟨o, ho⟩ := hinitialized.calls caller scope hcall
    exact ⟨o, fun v => congrArg (·.getD .nil) ho⟩
  · have hfunction := Machine.step_functionDecl hdeclared
    exact hleads.function_ends hnext (Machine.has_functionDecl hdeclared)
      (congrArg Closure.isInitializer hfunction) hcall hends

/-- One initializer gives its object a field with its own name and calls another, which returns early. A function
has the name of initializers as well. -/
def initializersCalled : String :=
  "class A \x7b init() \x7b return; \x7d \x7d class B < A \x7b init() \x7b this.init = nil; super.init(); \x7d \x7d fun init() \x7b return true; \x7d B(); A().init(); init();"

/-- The moments of this program at which something is called or taken. -/
theorem run_instances :
    ∃ (loaded : Session) (m : Machine) (declared : Function) (frames : List Frame)
      (paren paren' paren'' : Token),
      (Session.fresh .unlimited ⟨0⟩).load initializersCalled = (loaded, .ok m) ∧
      ((m.run 7).control = .exec (.functionDecl declared) ∧ (m.run 7).state.heap.functions.size = 2) ∧
      ((m.run 12).calling? = some (.classObject ⟨1⟩, paren, []) ∧
        (m.run 12).state.heap.objects.size = 0 ∧
        ∃ k, (m.run 12).step.Ends (m.run 12).frames.tail k (.normal (.object ⟨0⟩))) ∧
      ((m.run 42).control = .complete (.normal (.object ⟨1⟩)) ∧
        (m.run 42).frames = .get ⟨.identifier, "init", 1⟩ :: frames ∧
        ((m.run 42).state.heap.objectAt ⟨1⟩).fields["init"]? = none ∧
        (m.run 42).step.control = .complete (.normal (.function ⟨6⟩)) ∧
        (m.run 43).calling? = some (.function ⟨6⟩, paren', []) ∧
        ∃ k done, (m.run 43).step.Ends (m.run 43).frames.tail k done ∧
          ∀ failure, done ≠ .raised failure) ∧
      (m.run 52).calling? = some (.function ⟨2⟩, paren'', []) ∧
        ∃ k, (m.run 52).step.Ends (m.run 52).frames.tail k (.normal (.bool true)) := by
  have hall : ((Session.fresh .unlimited ⟨0⟩).load initializersCalled).2.toOption.map
      (fun m => ((m.run 7).control, (m.run 7).state.heap.functions.size,
        (m.run 12).calling?, (m.run 12).state.heap.objects.size,
        (({ m.run 12 with frames := (m.run 12).frames.take 1 } : Machine).step.run 30).result?,
        (m.run 42).control, (m.run 42).frames.head?,
        ((m.run 42).state.heap.objectAt ⟨1⟩).fields["init"]?, (m.run 42).step.control,
        (m.run 43).calling?,
        (({ m.run 43 with frames := (m.run 43).frames.take 1 } : Machine).step.run 10).result?,
        (m.run 52).calling?,
        (({ m.run 52 with frames := (m.run 52).frames.take 1 } : Machine).step.run 10).result?))
      = some (.exec (.functionDecl (.mk ⟨.identifier, "init", 1⟩ []
            [.giveBack ⟨.keyword .returnWord, "return", 1⟩ (some (.literal (.bool true)))])), 2,
          some (.classObject ⟨1⟩, ⟨.symbol .rightParen, ")", 1⟩, []), 0,
          some (.normal (.object ⟨0⟩)),
          .complete (.normal (.object ⟨1⟩)), some (.get ⟨.identifier, "init", 1⟩), none,
          .complete (.normal (.function ⟨6⟩)),
          some (.function ⟨6⟩, ⟨.symbol .rightParen, ")", 1⟩, []), some (.normal (.object ⟨1⟩)),
          some (.function ⟨2⟩, ⟨.symbol .rightParen, ")", 1⟩, []), some (.normal (.bool true))) := by
    cbv
  obtain ⟨loaded, m, hload, hall⟩ := Session.exists_loaded hall
  simp only [Prod.mk.injEq] at hall
  obtain ⟨hdeclared, hsize, hclass, hobjects, hmade, hobject, hhead, hfield, htaken, hinit, hresult,
    hcall, hvalue⟩ := hall
  obtain ⟨frames, hframes⟩ := List.head?_eq_some_iff.mp hhead
  -- what a call by itself comes to it comes to above what waits for it
  have hends {n k : Nat} {call : Value × Token × List Value} {done : Completion}
      (hcalling : (m.run n).calling? = some call)
      (hdone : (({ m.run n with frames := (m.run n).frames.take 1 } : Machine).step.run k).result?
        = some done) : ∃ k, (m.run n).step.Ends (m.run n).frames.tail k done := by
    obtain ⟨k', -, h⟩ := Machine.exists_ends (m.run n).frames.tail hdone
    rw [Machine.step_call_above hcalling] at h
    exact ⟨k', h⟩
  obtain ⟨k, hk⟩ := hends hinit hresult
  have hcompletes (failure : Failure) : Completion.normal (.object ⟨1⟩) ≠ .raised failure := by
    intro hraised
    cases hraised
  exact ⟨loaded, m, _, frames, _, _, _, hload, ⟨hdeclared, hsize⟩,
    ⟨hclass, hobjects, hends hclass hmade⟩,
    ⟨hobject, hframes, hfield, htaken, hinit, k, _, hk, hcompletes⟩, hcall, hends hcall hvalue⟩

/-- A call of `B` yields its object, whatever becomes of the field and of the initializer of `A`. The initializer
that is taken from an object of `A` yields this object, and the function yields its value. -/
theorem constructors_and_initializers_yield_the_instance_named :
    ∃ (loaded : Session) (m : Machine) (paren : Token) (k k' j : Nat) (c : Completion),
      (Session.fresh .unlimited ⟨0⟩).load initializersCalled = (loaded, .ok m) ∧
      ((m.run 12).calling? = some (.classObject ⟨1⟩, paren, []) ∧
        (m.run 12).step.Ends (m.run 12).frames.tail k (.normal (.object ⟨0⟩)) ∧
        (((m.run 12).step.run k).state.heap.objectAt ⟨0⟩).ofClass = ⟨1⟩) ∧
      ((m.run 42).TakesInitializer ⟨1⟩ ∧
        (m.run 43).step.Ends (m.run 43).frames.tail k' (.normal (.object ⟨1⟩))) ∧
      (m.run 52).step.Ends ((m.run 52).waiting .ofBody) j c ∧
        (m.run 52).step.Gives ((m.run 52).waiting .ofBody) j c (.bool true) := by
  obtain ⟨loaded, m, declared, frames, paren, paren', paren'', hload, ⟨hdeclared, hsize⟩,
    ⟨hclass, hobjects, k, hmade⟩, ⟨hobject, hframes, hfield, htaken, hinit, k', done, hended, hdone⟩,
    hcall, k'', hvalue⟩ := run_instances
  have hreached (n : Nat) : (Moment.during loaded (m.run n)).Reached :=
    ⟨.unlimited, ⟨0⟩, (Relation.ReflTransGen.single (.loaded hload)).trans (Moment.leads_run loaded m n)⟩
  have hleads (n i : Nat) :
      (Moment.during loaded (m.run n).step).Leads (.during loaded (m.run (n + 1 + i))) := by
    rw [Machine.run_add i (n + 1) m, Machine.run_succ_last]
    exact Moment.leads_run loaded _ i
  obtain ⟨-, hcalls, hclasses, -⟩ := constructors_and_initializers_yield_the_instance (hreached 12)
  obtain ⟨-, -, -, hinitializers, -⟩ :=
    constructors_and_initializers_yield_the_instance (hreached 42)
  obtain ⟨-, -, -, -, -, -, hfunctions⟩ :=
    constructors_and_initializers_yield_the_instance (hreached 7)
  have hconstructed : (((m.run 12).step.run k).state.heap.objectAt ⟨0⟩).ofClass = ⟨1⟩ := by
    have hmade := hmade
    rw [hcalls _ _ _ hclass] at hmade ⊢
    rcases hclasses _ _ _ _ _ _ hmade with ⟨failure, hraised⟩ | ⟨-, hofClass⟩
    · cases hraised
    · rwa [hobjects] at hofClass
  have htakes : (m.run 42).TakesInitializer ⟨1⟩ := .property hobject hframes rfl hfield
  have hyields : done = .normal (.object ⟨1⟩) := by
    rcases hinitializers _ _ htakes htaken loaded (m.run 43) (hleads 42 0) _ _ hinit k' done hended with
      ⟨failure, hraised⟩ | hyields
    · exact absurd hraised (hdone failure)
    · exact hyields
  rw [hyields] at hended
  rw [← hsize] at hcall
  obtain ⟨j, c, -, hbody, hgives⟩ :=
    hfunctions declared hdeclared loaded (m.run 52) (hleads 7 44) _ _ hcall k'' _ hvalue
  exact ⟨loaded, m, paren, k, k', j, c, hload, ⟨hclass, hmade, hconstructed⟩, ⟨htakes, hended⟩, hbody,
    hgives⟩

end Lox
