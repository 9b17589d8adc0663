import Lox.Proofs.Links.Things

/-!
# Running on intact heaps

Between two steps a machine refers to things, too: to the value that was computed last, and in its frames
to values, to the scopes that are to be put back and to what calls yield. All of these are on the heap, and
no step makes up a reference: whatever it stores was there before, or it has just been added. So a run keeps
the heap intact.
-/

namespace Lox

/-! ## What a machine refers to -/

def Control.things : Control → List Thing
  | .complete (.normal v) => v.thing?.toList
  | .complete (.returned v) => v.thing?.toList
  | _ => []

def CallResult.things : CallResult → List Thing
  | .ofBody => []
  | .receiver x => [.scope x]
  | .constructed o => [.object o]

def Frame.things : Frame → List Thing
  | .binaryRight left _ => left.thing?.toList
  | .argument function _ evaluated _ => (function :: evaluated).filterMap Value.thing?
  | .setValue o _ => [.object o]
  | .block outer => [.scope outer]
  | .activation caller result => .scope caller :: result.things
  | _ => []

/-- The heap is intact, and the innermost scope and all that the frames refer to is on it. -/
structure State.Intact (st : State) (frames : List Frame) : Prop where
  heap : st.heap.Intact st.globals
  scope : st.heap.Has (.scope st.scope)
  frames : ∀ frame ∈ frames, ∀ t ∈ frame.things, st.heap.Has t

/-- Besides, what the control refers to is on the heap. -/
structure Machine.Intact (m : Machine) : Prop where
  state : m.state.Intact m.frames
  control : ∀ t ∈ m.control.things, m.state.heap.Has t

namespace State.Intact

variable {st : State} {frames : List Frame}

/-! ## Ways to go on -/

theorem normal (hs : st.Intact frames) {v : Value} (hv : st.heap.Holds v) :
    Machine.Intact ⟨.complete (.normal v), frames, st⟩ :=
  ⟨hs, fun t ht => hv t (Option.mem_toList.mp ht)⟩

theorem returned (hs : st.Intact frames) {v : Value} (hv : st.heap.Holds v) :
    Machine.Intact ⟨.complete (.returned v), frames, st⟩ :=
  ⟨hs, fun t ht => hv t (Option.mem_toList.mp ht)⟩

theorem plain (hs : st.Intact frames) {v : Value} (hv : v.thing? = none) :
    Machine.Intact ⟨.complete (.normal v), frames, st⟩ :=
  hs.normal (.of_none hv)

/-- The machine goes on with something that refers to nothing. -/
theorem rests (hs : st.Intact frames) {control : Control} (hcontrol : control.things = []) :
    Machine.Intact ⟨control, frames, st⟩ := by
  refine ⟨hs, fun t ht => ?_⟩
  rw [show (⟨control, frames, st⟩ : Machine).control.things = [] from hcontrol] at ht
  exact nomatch ht

theorem push (hs : st.Intact frames) {frame : Frame} (hframe : ∀ t ∈ frame.things, st.heap.Has t) :
    st.Intact (frame :: frames) :=
  ⟨hs.heap, hs.scope, List.forall_mem_cons.mpr ⟨hframe, hs.frames⟩⟩

/-- Besides, a frame waits that refers to nothing. -/
theorem waits (hs : st.Intact frames) {control : Control} {frame : Frame}
    (hframe : frame.things = []) (hcontrol : control.things = []) :
    Machine.Intact ⟨control, frame :: frames, st⟩ := by
  refine State.Intact.rests (hs.push fun t ht => ?_) hcontrol
  rw [hframe] at ht
  exact nomatch ht

theorem result (hs : st.Intact frames) {r : Except Failure Value}
    (hr : ∀ v, r = .ok v → v.isAtomic = true) :
    Machine.Intact ⟨.complete (.ofResult r), frames, st⟩ := by
  cases r with
  | ok v => exact hs.plain (Value.thing?_of_isAtomic (hr v rfl))
  | error f => exact hs.rests rfl

/-- The heap has grown, and is intact. -/
theorem grown (hs : st.Intact frames) {h : Heap} (hi : h.Intact st.globals) (hg : st.heap.Grows h) :
    ({ st with heap := h } : State).Intact frames :=
  ⟨hi, hg.has hs.scope, fun frame hframe t ht => hg.has (hs.frames frame hframe t ht)⟩

/-- Another scope, which is on the heap, is innermost. -/
theorem moved (hs : st.Intact frames) {x : ScopeId} (hx : st.heap.Has (.scope x)) (depth : Nat) :
    ({ st with scope := x, depth } : State).Intact frames :=
  ⟨hs.heap, hx, hs.frames⟩

theorem define (hs : st.Intact frames) (name : Token) {v : Value} (hv : st.heap.Holds v) :
    (st.define name v).Intact frames :=
  hs.grown (hs.heap.define _ _ hv) (.define _ _ _ _)

theorem declareClass (hs : st.Intact frames) {superclass : Option ClassId}
    (hsuperclass : ∀ d, superclass = some d → st.heap.Has (.classObject d)) (name : Token)
    (methods : List Function) : (Machine.declareClass st name superclass methods).Intact frames :=
  hs.grown (hs.heap.declareClass hs.scope hsuperclass name methods) (.declareClass _ _ _ _)

/-! ## Expressions -/

theorem bind (hs : st.Intact frames) {f : FunctionId} (hf : st.heap.Has (.function f)) {o : ObjectId}
    (ho : st.heap.Has (.object o)) :
    Machine.Intact ⟨.complete (.normal (.function (st.heap.bindMethod f o).1)), frames,
      { st with heap := (st.heap.bindMethod f o).2 }⟩ := by
  have hbound : (st.heap.bindMethod f o).2.Has (.function (st.heap.bindMethod f o).1) :=
    Heap.has_addFunction _
  exact (hs.grown (hs.heap.bindMethod hf ho) (.bindMethod _ f o)).normal (.of_thing rfl hbound)

theorem superMethod (hs : st.Intact frames) (use : Reference) (method : Token) :
    Machine.Intact ⟨.complete (Machine.superMethod st use method).1, frames,
      (Machine.superMethod st use method).2⟩ := by
  unfold Machine.superMethod
  split
  · exact hs.rests rfl
  · split
    · split
      · next o hthis =>
        split
        · next found hfound =>
          exact hs.bind (hs.heap.method hfound) (hs.heap.bound hthis _ rfl)
        · exact hs.rests rfl
      · exact hs.rests rfl
    · exact hs.rests rfl

theorem property (hs : st.Intact frames) {o : ObjectId} (ho : st.heap.Has (.object o)) (name : Token) :
    Machine.Intact ⟨.complete (Machine.property st o name).1, frames,
      (Machine.property st o name).2⟩ := by
  unfold Machine.property
  split
  · next v hv => exact hs.normal (hs.heap.field hv)
  · split
    · next method hfound => exact hs.bind (hs.heap.method hfound) ho
    · exact hs.rests rfl

theorem lookup (hs : st.Intact frames) {use : Reference} {v : Value} (hv : st.lookup? use = some v) :
    st.heap.Holds v := by
  obtain ⟨x, hx⟩ := State.bound_of_lookup? hv
  exact hs.heap.bound hx

theorem evaluate (hs : st.Intact frames) (e : Expr) : (Machine.evaluate e frames st).Intact := by
  cases e with
  | literal value => cases value <;> exact hs.plain rfl
  | grouping inner => exact hs.rests rfl
  | ident use =>
      simp only [Machine.evaluate]
      split
      · next v hv => exact hs.normal (hs.lookup hv)
      · exact hs.rests rfl
  | this use =>
      simp only [Machine.evaluate]
      split
      · next v hv => exact hs.normal (hs.lookup hv)
      · exact hs.rests rfl
  | super use method => exact hs.superMethod use method
  | _ => exact hs.waits rfl rfl

/-! ## Calls -/

theorem enter (hs : st.Intact frames) {f : Closure} (hf : st.heap.Has (.scope f.scope))
    {result : CallResult} (hresult : ∀ t ∈ result.things, st.heap.Has t) {args : List Value}
    (hargs : ∀ v ∈ args, st.heap.Holds v) : (Machine.enter f result args frames st).Intact := by
  have hgrows := Heap.Grows.enter st.heap f args
  have hcall : st.Intact (.activation st.scope result :: frames) :=
    hs.push (List.forall_mem_cons.mpr ⟨hs.scope, hresult⟩)
  have hentered := hcall.grown (hs.heap.enter hf hargs) hgrows
  have hscope : (st.heap.enter f args).Has (.scope ⟨st.heap.scopes.size⟩) :=
    (Heap.Grows.bindParams _ f.declared.params args _).has (hs.heap.addInnerScope hf).2
  exact (hentered.moved hscope (st.depth + 1)).waits rfl rfl

theorem construct (hs : st.Intact frames) {c : ClassId} (hc : st.heap.Has (.classObject c))
    {args : List Value} (hargs : ∀ v ∈ args, st.heap.Holds v) :
    (Machine.construct c args frames st).Intact := by
  have hgrows := Heap.Grows.addObject st.heap ⟨c, ∅⟩
  have hadded := hs.grown (hs.heap.addObject hc) hgrows
  have hobject : (st.heap.addObject ⟨c, ∅⟩).2.Has (.object ⟨st.heap.objects.size⟩) :=
    Heap.has_addObject _
  unfold Machine.construct
  dsimp only
  split
  · next init hinit =>
    -- the initializer is bound to the object before its body is entered
    have hbinds := Heap.Grows.bindMethod (st.heap.addObject ⟨c, ∅⟩).2 init ⟨st.heap.objects.size⟩
    have hbound := hadded.bind (hadded.heap.method hinit) hobject
    refine hbound.state.enter (hbound.state.heap.closure (hbound.control _ (List.mem_cons_self ..)))
      (fun t ht => ?_) fun v hv => (hargs v hv).grows (hgrows.trans hbinds)
    obtain rfl := List.mem_singleton.mp ht
    exact hbinds.has hobject
  · exact hadded.normal (.of_thing rfl hobject)

theorem invoke (hs : st.Intact frames) {callee : Value} (hcallee : st.heap.Holds callee)
    (paren : Token) {args : List Value} (hargs : ∀ v ∈ args, st.heap.Holds v) :
    (Machine.invoke callee paren args frames st).Intact := by
  unfold Machine.invoke
  split
  · next f =>
    split
    · next v clock hcall =>
      have hclock : ({ st with clock } : State).Intact frames := ⟨hs.heap, hs.scope, hs.frames⟩
      exact hclock.plain (Value.thing?_of_isAtomic (Native.call_isAtomic (congrArg Prod.fst hcall)))
    · next clock _ =>
      have hclock : ({ st with clock } : State).Intact frames := ⟨hs.heap, hs.scope, hs.frames⟩
      exact hclock.rests rfl
  · next f =>
    have hscope := hs.heap.closure (hcallee _ rfl)
    refine hs.enter hscope (fun t ht => ?_) hargs
    split at ht
    · obtain rfl := List.mem_singleton.mp ht
      exact hscope
    · exact nomatch ht
  · next c => exact hs.construct (hcallee _ rfl) hargs
  · exact hs.rests rfl

theorem call (hs : st.Intact frames) {callee : Value} (hcallee : st.heap.Holds callee) (paren : Token)
    {args : List Value} (hargs : ∀ v ∈ args, st.heap.Holds v) :
    (Machine.call callee paren args frames st).Intact := by
  unfold Machine.call
  split
  · exact hs.rests rfl
  · split
    · exact hs.rests rfl
    · split
      · exact hs.rests rfl
      · exact hs.invoke hcallee paren hargs

theorem nextArgument (hs : st.Intact frames) {callee : Value} (hcallee : st.heap.Holds callee)
    (paren : Token) {evaluated : List Value} (hevaluated : ∀ v ∈ evaluated, st.heap.Holds v)
    (rest : List Expr) : (Machine.nextArgument callee paren evaluated rest frames st).Intact := by
  cases rest with
  | nil => exact hs.call hcallee paren fun v hv => hevaluated v (List.mem_reverse.mp hv)
  | cons e es =>
      have hheld : ∀ v ∈ callee :: evaluated, st.heap.Holds v :=
        List.forall_mem_cons.mpr ⟨hcallee, hevaluated⟩
      have hwaits : st.Intact (.argument callee paren evaluated es :: frames) := hs.push fun t ht => by
        obtain ⟨v, hv, ht⟩ := List.mem_filterMap.mp ht
        exact hheld v hv t ht
      exact hwaits.rests rfl

theorem callValue (hs : st.Intact frames) {result : CallResult}
    (hresult : ∀ t ∈ result.things, st.heap.Has t) {v : Value} (hv : st.heap.Holds v) :
    st.heap.Holds (Machine.callValue st.heap result v) := by
  cases result with
  | ofBody => exact hv
  | constructed o => exact .of_thing rfl (hresult _ (List.mem_singleton_self _))
  | receiver x =>
      unfold Machine.callValue
      dsimp only
      cases hthis : st.heap.bound? x "this" with
      | none => exact .of_none rfl
      | some u => exact hs.heap.bound hthis

/-! ## Statements -/

theorem execute (hs : st.Intact frames) (s : Stmt) : (Machine.execute s frames st).Intact := by
  cases s with
  | expression e => exact hs.rests rfl
  | variableDecl name value =>
      cases value with
      | none => exact (hs.define name (.of_none rfl)).rests rfl
      | some e => exact hs.waits rfl rfl
  | block body =>
      obtain ⟨hinner, hscope⟩ := hs.heap.addInnerScope hs.scope
      have hblock : st.Intact (.block st.scope :: frames) :=
        hs.push (List.forall_mem_singleton.mpr hs.scope)
      exact ((hblock.grown hinner (.addScope _ _)).moved hscope st.depth).waits rfl rfl
  | functionDecl declared =>
      have hadded := hs.grown (hs.heap.addFunction (f := ⟨declared, st.scope, false⟩) hs.scope)
        (.addFunction _ _)
      exact (hadded.define declared.name (.of_thing rfl (Heap.has_addFunction _))).rests rfl
  | giveBack keyword value =>
      cases value with
      | none => exact hs.returned (.of_none rfl)
      | some e => exact hs.waits rfl rfl
  | classDecl name superclass methods =>
      cases superclass with
      | none =>
          have hnone : ∀ d, (none : Option ClassId) = some d → st.heap.Has (.classObject d) := nofun
          exact (hs.declareClass hnone name methods).rests rfl
      | some use => exact hs.waits rfl rfl
  | _ => exact hs.waits rfl rfl

/-! ## Frames -/

theorem assign (hs : st.Intact frames) (use : Reference) {v : Value} (hv : st.heap.Holds v) :
    Machine.Intact ⟨.complete (st.assign use v).1, frames, (st.assign use v).2⟩ := by
  rcases st.assign_cases use v with ⟨x, hassign⟩ | hassign
  · rw [hassign]
    have hgrows := Heap.Grows.define st.heap x use.name.lexeme v
    exact (hs.grown (hs.heap.define _ _ hv) hgrows).normal (hv.grows hgrows)
  · rw [hassign]
    exact hs.rests rfl

theorem program (hs : st.Intact frames) (rest : List Stmt) (v : Value) :
    (Machine.continueWith (.program rest) v frames st).Intact := by
  cases rest with
  | nil =>
      simp only [Machine.continueWith]
      split
      · exact hs.rests rfl
      · exact hs.rests rfl
  | cons s rest => exact hs.waits rfl rfl

theorem continueWith (hs : st.Intact frames) {frame : Frame}
    (hframe : ∀ t ∈ frame.things, st.heap.Has t) {v : Value} (hv : st.heap.Holds v) :
    (Machine.continueWith frame v frames st).Intact := by
  cases frame with
  | unary operator => exact hs.result fun _ => Operator.unary_isAtomic
  | binaryLeft operator right =>
      have hwaits : st.Intact (.binaryRight v operator :: frames) :=
        hs.push fun t ht => hv t (Option.mem_toList.mp ht)
      exact hwaits.rests rfl
  | binaryRight left operator => exact hs.result fun _ => Operator.binary_isAtomic
  | logical operator right =>
      simp only [Machine.continueWith]
      split
      · exact hs.normal hv
      · exact hs.rests rfl
  | assign use => exact hs.assign use hv
  | callee paren arguments =>
      have hnone : ∀ u ∈ ([] : List Value), st.heap.Holds u := List.forall_mem_nil _
      exact hs.nextArgument hv paren hnone arguments
  | argument callee paren evaluated rest =>
      have hheld : ∀ u ∈ callee :: evaluated, st.heap.Holds u :=
        fun u hu t ht => hframe t (List.mem_filterMap.mpr ⟨u, hu, ht⟩)
      refine hs.nextArgument (hheld callee (List.mem_cons_self ..)) paren
        (List.forall_mem_cons.mpr ⟨hv, fun u hu => ?_⟩) rest
      exact hheld u (List.mem_cons_of_mem _ hu)
  | get name =>
      cases v with
      | object o => exact hs.property (hv _ rfl) name
      | _ => exact hs.rests rfl
  | setObject name value =>
      cases v with
      | object o =>
          have hwaits : st.Intact (.setValue o name :: frames) :=
            hs.push (List.forall_mem_singleton.mpr (hv _ rfl))
          exact hwaits.rests rfl
      | _ => exact hs.rests rfl
  | setValue o name =>
      have hgrows := Heap.Grows.setField st.heap o name.lexeme v
      exact (hs.grown (hs.heap.setField _ _ hv) hgrows).normal (hv.grows hgrows)
  | print =>
      have houtput : ∀ output, ({ st with output } : State).Intact frames :=
        fun _ => ⟨hs.heap, hs.scope, hs.frames⟩
      simp only [Machine.continueWith]
      split
      · exact (houtput _).rests rfl
      · exact (houtput _).rests rfl
  | define name => exact (hs.define name hv).rests rfl
  | branch yes no =>
      simp only [Machine.continueWith]
      split
      · exact hs.rests rfl
      · split
        · exact hs.rests rfl
        · exact hs.rests rfl
  | loopTest condition body =>
      simp only [Machine.continueWith]
      split
      · exact hs.waits rfl rfl
      · exact hs.rests rfl
  | loopBody condition body => exact hs.waits rfl rfl
  | giveBack => exact hs.returned hv
  | superclass name use methods =>
      cases v with
      | classObject parent =>
          refine (hs.declareClass (fun d hd => ?_) name methods).rests rfl
          cases hd
          exact hv _ rfl
      | _ => exact hs.rests rfl
  | sequence rest =>
      cases rest with
      | nil => exact hs.rests rfl
      | cons s rest => exact hs.waits rfl rfl
  | block outer =>
      exact (hs.moved (hframe _ (List.mem_cons_self ..)) st.depth).rests rfl
  | activation caller result =>
      obtain ⟨hcaller, hresult⟩ := List.forall_mem_cons.mp hframe
      exact (hs.moved hcaller (st.depth - 1)).normal (hs.callValue hresult (.of_none rfl))
  | program rest => exact hs.program rest v

/-- A frame that is left with a `return` or a failure puts back its scope, if it has one. -/
theorem returnFrom (hs : st.Intact frames) {frame : Frame}
    (hframe : ∀ t ∈ frame.things, st.heap.Has t) {v : Value} (hv : st.heap.Holds v) :
    (Machine.returnFrom frame v frames st).Intact := by
  cases frame with
  | block outer => exact (hs.moved (hframe _ (List.mem_cons_self ..)) st.depth).returned hv
  | activation caller result =>
      obtain ⟨hcaller, hresult⟩ := List.forall_mem_cons.mp hframe
      exact (hs.moved hcaller (st.depth - 1)).normal (hs.callValue hresult hv)
  | program rest => exact hs.program rest v
  | _ => exact hs.returned hv

theorem raiseFrom (hs : st.Intact frames) {frame : Frame}
    (hframe : ∀ t ∈ frame.things, st.heap.Has t) (f : Failure) :
    (Machine.raiseFrom frame f frames st).Intact := by
  cases frame with
  | block outer => exact (hs.moved (hframe _ (List.mem_cons_self ..)) st.depth).rests rfl
  | activation caller result =>
      exact (hs.moved (hframe _ (List.mem_cons_self ..)) (st.depth - 1)).rests rfl
  | program rest => exact (hs.moved hs.heap.top.1 0).rests rfl
  | _ => exact hs.rests rfl

end State.Intact

/-! ## Steps and runs -/

namespace Machine

variable {m : Machine}

/-- **No step makes up a reference.** -/
theorem Intact.step (h : m.Intact) : m.step.Intact := by
  obtain ⟨control, frames, st⟩ := m
  obtain ⟨hs, hcontrol⟩ := h
  cases control with
  | eval e => exact hs.evaluate e
  | exec s => exact hs.execute s
  | complete c =>
      cases frames with
      | nil => exact ⟨hs, hcontrol⟩
      | cons frame frames =>
          obtain ⟨hframe, hframes⟩ := List.forall_mem_cons.mp hs.frames
          have hbelow : st.Intact frames := ⟨hs.heap, hs.scope, hframes⟩
          cases c with
          | normal v =>
              exact hbelow.continueWith hframe fun t ht => hcontrol t (Option.mem_toList.mpr ht)
          | returned v =>
              exact hbelow.returnFrom hframe fun t ht => hcontrol t (Option.mem_toList.mpr ht)
          | raised f => exact hbelow.raiseFrom hframe f

end Machine

end Lox
