import Lox.Proofs.Links

/-!
# Where functions come from

A program has a function at hand only because it has executed its declaration or bound a method: all else
that a step puts anywhere was somewhere before, or is no function. So whatever is true of these functions is
true of every function that a program comes by. In particular, the methods of a class as they stand in the
class are never at hand, and a function that is an initializer is one that was bound to an object.
-/

namespace Lox

/-! ## The values of a machine -/

def Control.values : Control → List Value
  | .complete (.normal v) => [v]
  | .complete (.returned v) => [v]
  | _ => []

def Frame.values : Frame → List Value
  | .binaryRight left _ => [left]
  | .argument function _ evaluated _ => function :: evaluated
  | _ => []

/-- All values in scopes and fields are like this. -/
structure Heap.AllValues (P : Value → Prop) (h : Heap) : Prop where
  bound : ∀ (x : ScopeId) (name : String) v, h.bound? x name = some v → P v
  fields : ∀ (o : ObjectId) (name : String) v, (h.objectAt o).fields[name]? = some v → P v

/-- All values that the machine has at hand are like this. -/
structure Machine.AllValues (P : Value → Prop) (m : Machine) : Prop where
  control : ∀ v ∈ m.control.values, P v
  frames : ∀ frame ∈ m.frames, ∀ v ∈ frame.values, P v
  heap : m.state.heap.AllValues P

section

variable {P Q : Value → Prop}

theorem Machine.AllValues.imp {m : Machine} (h : m.AllValues P) (himp : ∀ v, P v → Q v) :
    m.AllValues Q where
  control v hv := himp v (h.control v hv)
  frames frame hframe v hv := himp v (h.frames frame hframe v hv)
  heap := ⟨fun x name v hv => himp v (h.heap.bound x name v hv),
    fun o name v hv => himp v (h.heap.fields o name v hv)⟩

/-! ## Operations on the heap -/

namespace Heap.AllValues

variable {h h' : Heap}

/-- Only scopes and objects have values. -/
theorem same (hh : h.AllValues P) (hscopes : h'.scopes = h.scopes) (hobjects : h'.objects = h.objects) :
    h'.AllValues P := by
  refine ⟨fun x name v hv => hh.bound x name v ?_, fun o name v hv => hh.fields o name v ?_⟩
  · rwa [bound?, scopeAt, hscopes] at hv
  · rwa [objectAt, hobjects] at hv

theorem define (hh : h.AllValues P) (x : ScopeId) (name : String) {v : Value} (hv : P v) :
    (h.define x name v).AllValues P := by
  refine ⟨fun y other u hu => ?_, hh.fields⟩
  rw [bound?_define] at hu
  split at hu
  · cases hu
    exact hv
  · exact hh.bound y other u hu

theorem setField (hh : h.AllValues P) (o : ObjectId) (name : String) {v : Value} (hv : P v) :
    (h.setField o name v).AllValues P := by
  refine ⟨hh.bound, fun x other u hu => ?_⟩
  rw [objectAt_setField] at hu
  split at hu
  · dsimp only at hu
    rw [Std.TreeMap.getElem?_insert] at hu
    split at hu
    · cases hu
      exact hv
    · exact hh.fields x other u hu
  · exact hh.fields x other u hu

theorem addInnerScope (hh : h.AllValues P) (outer : ScopeId) : (h.addInnerScope outer).2.AllValues P := by
  refine ⟨fun x name v hv => ?_, hh.fields⟩
  unfold Heap.addInnerScope at hv
  rw [bound?_addScope] at hv
  split at hv
  · simp at hv
  · exact hh.bound x name v hv

theorem addObject (hh : h.AllValues P) (c : ClassId) : (h.addObject ⟨c, ∅⟩).2.AllValues P := by
  refine ⟨hh.bound, fun o name v hv => ?_⟩
  rw [objectAt_addObject] at hv
  split at hv
  · simp at hv
  · exact hh.fields o name v hv

theorem bindParams (x : ScopeId) : ∀ (params : List Token) {args : List Value} {h : Heap},
    h.AllValues P → (∀ v ∈ args, P v) → (Machine.bindParams x params args h).AllValues P
  | [], _, _, hh, _ => hh
  | _ :: _, [], _, hh, _ => hh
  | p :: params, _ :: _, _, hh, hargs => by
      obtain ⟨hv, hargs⟩ := List.forall_mem_cons.mp hargs
      exact bindParams x params (hh.define x p.lexeme hv) hargs

theorem enter (hh : h.AllValues P) (f : Closure) {args : List Value} (hargs : ∀ v ∈ args, P v) :
    (h.enter f args).AllValues P :=
  bindParams _ f.declared.params (hh.addInnerScope f.scope) hargs

theorem foldMethods (scope : ScopeId) : ∀ (methods : List Function)
    {table : Std.TreeMap String FunctionId} {h : Heap}, h.AllValues P →
      (methods.foldl (Machine.addMethod scope) (table, h)).2.AllValues P
  | [], _, _, hh => hh
  | _ :: methods, _, _, hh => foldMethods scope methods (hh.same rfl rfl)

variable (hplain : ∀ v, (∀ g, v ≠ .function g) → P v)
include hplain

theorem bindMethod (hh : h.AllValues P) (method : FunctionId) (o : ObjectId) :
    (h.bindMethod method o).2.AllValues P := by
  have hthis := (hh.addInnerScope (h.functionAt method).scope).define ⟨h.scopes.size⟩ "this"
    (hplain (.object o) nofun)
  exact hthis.same rfl rfl

theorem addDeclared (hh : h.AllValues P) (x : ScopeId) (name : String) (superclass : Option ClassId)
    (scope : ScopeId) (methods : List Function) :
    (h.addDeclared x name superclass scope methods).AllValues P := by
  have hadded : (Machine.addMethods scope methods h).2.AllValues P := foldMethods scope methods hh
  have hclass : ((Machine.addMethods scope methods h).2.addClass
      ⟨name, superclass, (Machine.addMethods scope methods h).1⟩).2.AllValues P := hadded.same rfl rfl
  exact hclass.define x name (hplain (.classObject _) nofun)

theorem declareClass {st : State} (hh : st.heap.AllValues P) (t : Token) (superclass : Option ClassId)
    (methods : List Function) : (Machine.declareClass st t superclass methods).heap.AllValues P := by
  have hnil := hh.define st.scope t.lexeme (hplain .nil nofun)
  rw [Machine.heap_declareClass]
  cases superclass with
  | none => exact hnil.addDeclared hplain _ _ none _ methods
  | some parent =>
      have hsuper := (hnil.addInnerScope st.scope).define
        ⟨(st.heap.define st.scope t.lexeme .nil).scopes.size⟩ "super"
        (hplain (.classObject parent) nofun)
      dsimp only
      rw [← addInnerScope_define]
      exact hsuper.addDeclared hplain _ _ (some parent) _ methods

theorem callValue (hh : h.AllValues P) (result : CallResult) {v : Value} (hv : P v) :
    P (Machine.callValue h result v) := by
  cases result with
  | ofBody => exact hv
  | constructed o => exact hplain (.object o) nofun
  | receiver x =>
      unfold Machine.callValue
      dsimp only
      cases hthis : h.bound? x "this" with
      | none => exact hplain .nil nofun
      | some u => exact hh.bound x _ u hthis

end Heap.AllValues

namespace Machine

/-! ## Steps -/

section

variable {st : State} {frames : List Frame} (hplain : ∀ v, (∀ g, v ≠ .function g) → P v)
  (hh : st.heap.AllValues P) (hframes : ∀ frame ∈ frames, ∀ v ∈ frame.values, P v)

section

include hh hframes

theorem normal_values {v : Value} (hv : P v) :
    AllValues P ⟨.complete (.normal v), frames, st⟩ :=
  ⟨List.forall_mem_singleton.mpr hv, hframes, hh⟩

theorem returned_values {v : Value} (hv : P v) :
    AllValues P ⟨.complete (.returned v), frames, st⟩ :=
  ⟨List.forall_mem_singleton.mpr hv, hframes, hh⟩

theorem rests_values {control : Control} (hcontrol : control.values = []) :
    AllValues P ⟨control, frames, st⟩ := by
  refine ⟨fun v hv => ?_, hframes, hh⟩
  rw [show (⟨control, frames, st⟩ : Machine).control.values = [] from hcontrol] at hv
  cases hv

theorem waits_values {control : Control} {frame : Frame} (hcontrol : control.values = [])
    (hframe : ∀ v ∈ frame.values, P v) : AllValues P ⟨control, frame :: frames, st⟩ :=
  rests_values hh (List.forall_mem_cons.mpr ⟨hframe, hframes⟩) hcontrol

theorem lookup_values (use : Reference) :
    AllValues P (match st.lookup? use with
      | some v => ⟨.complete (.normal v), frames, st⟩
      | none => ⟨.complete (.faultAt use.name (.undefinedVariable use.name.lexeme)), frames, st⟩) := by
  split
  · next v hv =>
    obtain ⟨x, hx⟩ := State.bound_of_lookup? hv
    exact normal_values hh hframes (hh.bound x _ v hx)
  · exact rests_values hh hframes rfl

end

include hplain hh hframes

theorem plain_values {v : Value} (hv : v.thing? = none) :
    AllValues P ⟨.complete (.normal v), frames, st⟩ := by
  refine normal_values hh hframes (hplain v fun g hg => ?_)
  rw [hg] at hv
  cases hv

theorem done_values : AllValues P ⟨.complete .done, frames, st⟩ :=
  plain_values hplain hh hframes rfl

theorem result_values {r : Except Failure Value} (hr : ∀ v, r = .ok v → v.isAtomic = true) :
    AllValues P ⟨.complete (.ofResult r), frames, st⟩ := by
  cases r with
  | ok v => exact plain_values hplain hh hframes (Value.thing?_of_isAtomic (hr v rfl))
  | error f => exact rests_values hh hframes rfl

/-! ### Expressions -/

theorem bind_values (f : FunctionId) (o : ObjectId) (hnew : P (.function ⟨st.heap.functions.size⟩)) :
    AllValues P ⟨.complete (.normal (.function (st.heap.bindMethod f o).1)), frames,
      { st with heap := (st.heap.bindMethod f o).2 }⟩ :=
  have hbound : ({ st with heap := (st.heap.bindMethod f o).2 } : State).heap.AllValues P :=
    hh.bindMethod hplain f o
  normal_values hbound hframes hnew

theorem superMethod_values (use : Reference) (method : Token)
    (hbinds : ∀ f o, BindsMethod ⟨.eval (.super use method), frames, st⟩ f o →
      P (.function ⟨st.heap.functions.size⟩)) :
    AllValues P ⟨.complete (superMethod st use method).1, frames, (superMethod st use method).2⟩ := by
  unfold superMethod
  split
  · exact rests_values hh hframes rfl
  · next distance haddress =>
    split
    · next parent hsuper =>
      split
      · next o hthis =>
        split
        · next found hfound =>
          exact bind_values hplain hh hframes found o
            (hbinds found o (.super rfl haddress hsuper hthis hfound))
        · exact rests_values hh hframes rfl
      · exact rests_values hh hframes rfl
    · exact rests_values hh hframes rfl

theorem property_values (o : ObjectId) (name : Token)
    (hbinds : ∀ f o', BindsMethod ⟨.complete (.normal (.object o)), .get name :: frames, st⟩ f o' →
      P (.function ⟨st.heap.functions.size⟩)) :
    AllValues P ⟨.complete (property st o name).1, frames, (property st o name).2⟩ := by
  unfold property
  split
  · next v hv => exact normal_values hh hframes (hh.fields o _ v hv)
  · next hnone =>
    split
    · next method hfound =>
      exact bind_values hplain hh hframes method o (hbinds method o (.property rfl rfl hnone hfound))
    · exact rests_values hh hframes rfl

theorem evaluate_values (e : Expr)
    (hbinds : ∀ f o, BindsMethod ⟨.eval e, frames, st⟩ f o → P (.function ⟨st.heap.functions.size⟩)) :
    (evaluate e frames st).AllValues P := by
  cases e with
  | literal value => cases value <;> exact plain_values hplain hh hframes rfl
  | grouping inner => exact rests_values hh hframes rfl
  | ident use => exact lookup_values hh hframes use
  | this use => exact lookup_values hh hframes use
  | super use method => exact superMethod_values hplain hh hframes use method hbinds
  | _ => exact waits_values hh hframes rfl (List.forall_mem_nil _)

/-! ### Calls -/

theorem enter_values (f : Closure) (result : CallResult) {args : List Value} (hargs : ∀ v ∈ args, P v) :
    (enter f result args frames st).AllValues P := by
  have hentered : ∀ frame ∈ .sequence f.declared.body :: .activation st.scope result :: frames,
      ∀ v ∈ frame.values, P v :=
    List.forall_mem_cons.mpr ⟨List.forall_mem_nil _, List.forall_mem_cons.mpr
      ⟨List.forall_mem_nil _, hframes⟩⟩
  exact ⟨List.forall_mem_singleton.mpr (hplain .nil nofun), hentered, hh.enter f hargs⟩

theorem construct_values (c : ClassId) {args : List Value} (hargs : ∀ v ∈ args, P v) :
    (construct c args frames st).AllValues P := by
  have hobject : (st.heap.addObject ⟨c, ∅⟩).2.AllValues P := hh.addObject c
  unfold construct
  dsimp only
  split
  · next init _ =>
    have hbound : ({ st with heap := ((st.heap.addObject ⟨c, ∅⟩).2.bindMethod init
        ⟨st.heap.objects.size⟩).2 } : State).heap.AllValues P := hobject.bindMethod hplain init _
    exact enter_values hplain hbound hframes _ _ hargs
  · have hadded : ({ st with heap := (st.heap.addObject ⟨c, ∅⟩).2 } : State).heap.AllValues P := hobject
    exact normal_values hadded hframes (hplain (.object _) nofun)

theorem call_values (callee : Value) (paren : Token) {args : List Value} (hargs : ∀ v ∈ args, P v) :
    (call callee paren args frames st).AllValues P := by
  unfold call
  split
  · exact rests_values hh hframes rfl
  · split
    · exact rests_values hh hframes rfl
    · split
      · exact rests_values hh hframes rfl
      · unfold invoke
        split
        · next f =>
          split
          · next v clock hcall =>
            have hclock : ({ st with clock } : State).heap.AllValues P := hh
            exact plain_values hplain hclock hframes
              (Value.thing?_of_isAtomic (Native.call_isAtomic (congrArg Prod.fst hcall)))
          · next clock _ =>
            have hclock : ({ st with clock } : State).heap.AllValues P := hh
            exact rests_values hclock hframes rfl
        · exact enter_values hplain hh hframes _ _ hargs
        · exact construct_values hplain hh hframes _ hargs
        · exact rests_values hh hframes rfl

theorem nextArgument_values {callee : Value} (hcallee : P callee) (paren : Token)
    {evaluated : List Value} (hevaluated : ∀ v ∈ evaluated, P v) (rest : List Expr) :
    (nextArgument callee paren evaluated rest frames st).AllValues P := by
  cases rest with
  | nil =>
      exact call_values hplain hh hframes callee paren
        fun v hv => hevaluated v (List.mem_reverse.mp hv)
  | cons e es => exact waits_values hh hframes rfl (List.forall_mem_cons.mpr ⟨hcallee, hevaluated⟩)

/-! ### Statements and frames -/

theorem define_values (name : Token) {v : Value} (hv : P v) :
    AllValues P ⟨.complete .done, frames, st.define name v⟩ :=
  have hdefined : (st.define name v).heap.AllValues P := hh.define _ _ hv
  done_values hplain hdefined hframes

theorem declareClass_values (name : Token) (superclass : Option ClassId) (methods : List Function) :
    AllValues P ⟨.complete .done, frames, declareClass st name superclass methods⟩ :=
  done_values hplain (hh.declareClass hplain name superclass methods) hframes

theorem execute_values (s : Stmt)
    (hdeclared : ∀ declared, s = .functionDecl declared → P (.function ⟨st.heap.functions.size⟩)) :
    (execute s frames st).AllValues P := by
  have hnone : ∀ v ∈ ([] : List Value), P v := List.forall_mem_nil _
  cases s with
  | expression e => exact rests_values hh hframes rfl
  | variableDecl name value =>
      cases value with
      | none => exact define_values hplain hh hframes name (hplain .nil nofun)
      | some e => exact waits_values hh hframes rfl hnone
  | block body =>
      have hinner : ({ st with
          heap := (st.heap.addInnerScope st.scope).2
          scope := (st.heap.addInnerScope st.scope).1 } : State).heap.AllValues P :=
        hh.addInnerScope st.scope
      have hopened : ∀ frame ∈ .sequence body :: .block st.scope :: frames,
          ∀ v ∈ frame.values, P v :=
        List.forall_mem_cons.mpr ⟨hnone, List.forall_mem_cons.mpr ⟨hnone, hframes⟩⟩
      exact done_values hplain hinner hopened
  | functionDecl declared =>
      have hadded : ({ st with heap := (st.heap.addFunction
          ⟨declared, st.scope, false⟩).2 } : State).heap.AllValues P := hh.same rfl rfl
      exact define_values hplain hadded hframes declared.name (hdeclared declared rfl)
  | giveBack keyword value =>
      cases value with
      | none => exact returned_values hh hframes (hplain .nil nofun)
      | some e => exact waits_values hh hframes rfl hnone
  | classDecl name superclass methods =>
      cases superclass with
      | none => exact declareClass_values hplain hh hframes name none methods
      | some use => exact waits_values hh hframes rfl hnone
  | _ => exact waits_values hh hframes rfl hnone

theorem program_values (rest : List Stmt) (v : Value) :
    (continueWith (.program rest) v frames st).AllValues P := by
  cases rest with
  | nil =>
      simp only [continueWith]
      split
      · exact done_values hplain hh hframes
      · exact rests_values hh hframes rfl
  | cons s rest => exact waits_values hh hframes rfl (List.forall_mem_nil _)

theorem continueWith_values {frame : Frame} (hframe : ∀ v ∈ frame.values, P v) {v : Value} (hv : P v)
    (hbinds : ∀ f o, BindsMethod ⟨.complete (.normal v), frame :: frames, st⟩ f o →
      P (.function ⟨st.heap.functions.size⟩)) :
    (continueWith frame v frames st).AllValues P := by
  have hnone : ∀ v ∈ ([] : List Value), P v := List.forall_mem_nil _
  cases frame with
  | unary operator => exact result_values hplain hh hframes fun _ => Operator.unary_isAtomic
  | binaryLeft operator right =>
      exact waits_values hh hframes rfl (List.forall_mem_singleton.mpr hv)
  | binaryRight left operator => exact result_values hplain hh hframes fun _ => Operator.binary_isAtomic
  | logical operator right =>
      simp only [continueWith]
      split
      · exact normal_values hh hframes hv
      · exact rests_values hh hframes rfl
  | assign use =>
      rcases continueWith_assign use v frames st with ⟨x, hassign⟩ | hassign
      · rw [hassign]
        have hdefined : ({ st with
            heap := st.heap.define x use.name.lexeme v } : State).heap.AllValues P := hh.define _ _ hv
        exact normal_values hdefined hframes hv
      · rw [hassign]
        exact rests_values hh hframes rfl
  | callee paren arguments => exact nextArgument_values hplain hh hframes hv paren hnone arguments
  | argument callee paren evaluated rest =>
      obtain ⟨hcallee, hevaluated⟩ := List.forall_mem_cons.mp hframe
      exact nextArgument_values hplain hh hframes hcallee paren
        (List.forall_mem_cons.mpr ⟨hv, hevaluated⟩) rest
  | get name =>
      cases v with
      | object o => exact property_values hplain hh hframes o name hbinds
      | _ => exact rests_values hh hframes rfl
  | setObject name value =>
      cases v with
      | object o => exact waits_values hh hframes rfl hnone
      | _ => exact rests_values hh hframes rfl
  | setValue o name =>
      have hset : ({ st with heap := st.heap.setField o name.lexeme v } : State).heap.AllValues P :=
        hh.setField _ _ hv
      exact normal_values hset hframes hv
  | print =>
      have houtput : ∀ output, ({ st with output } : State).heap.AllValues P := fun _ => hh
      simp only [continueWith]
      split
      · exact done_values hplain (houtput _) hframes
      · exact rests_values (houtput _) hframes rfl
  | define name => exact define_values hplain hh hframes name hv
  | branch yes no =>
      simp only [continueWith]
      split
      · exact rests_values hh hframes rfl
      · split
        · exact rests_values hh hframes rfl
        · exact done_values hplain hh hframes
  | loopTest condition body =>
      simp only [continueWith]
      split
      · exact waits_values hh hframes rfl hnone
      · exact done_values hplain hh hframes
  | loopBody condition body => exact waits_values hh hframes rfl hnone
  | giveBack => exact returned_values hh hframes hv
  | superclass name use methods =>
      cases v with
      | classObject parent => exact declareClass_values hplain hh hframes name (some parent) methods
      | _ => exact rests_values hh hframes rfl
  | sequence rest =>
      cases rest with
      | nil => exact done_values hplain hh hframes
      | cons s rest => exact waits_values hh hframes rfl hnone
  | block outer =>
      have hleft : ({ st with scope := outer } : State).heap.AllValues P := hh
      exact done_values hplain hleft hframes
  | activation caller result =>
      have hleft : ({ st with scope := caller, depth := st.depth - 1 } : State).heap.AllValues P := hh
      have hnil : P .nil := hplain .nil fun g h => by cases h
      exact normal_values hleft hframes (hh.callValue hplain result hnil)
  | program rest => exact program_values hplain hh hframes rest v

theorem returnFrom_values (frame : Frame) {v : Value} (hv : P v) :
    (returnFrom frame v frames st).AllValues P := by
  cases frame with
  | block outer =>
      have hleft : ({ st with scope := outer } : State).heap.AllValues P := hh
      exact returned_values hleft hframes hv
  | activation caller result =>
      have hleft : ({ st with scope := caller, depth := st.depth - 1 } : State).heap.AllValues P := hh
      exact normal_values hleft hframes (hh.callValue hplain result hv)
  | program rest => exact program_values hplain hh hframes rest v
  | _ => exact returned_values hh hframes hv

end

/-- **No step makes up a function.** The functions that are at hand after a step were at hand before, or the
step has executed a declaration or bound a method. -/
theorem step_values (hplain : ∀ v, (∀ g, v ≠ .function g) → P v) {m : Machine} (h : m.AllValues P)
    (hdeclared : ∀ declared, m.control = .exec (.functionDecl declared) →
      P (.function ⟨m.state.heap.functions.size⟩))
    (hbinds : ∀ f o, m.BindsMethod f o → P (.function ⟨m.state.heap.functions.size⟩)) :
    m.step.AllValues P := by
  obtain ⟨control, frames, st⟩ := m
  obtain ⟨hcontrol, hframes, hh⟩ := h
  cases control with
  | eval e => exact evaluate_values hplain hh hframes e hbinds
  | exec s =>
      exact execute_values hplain hh hframes s fun declared hs => hdeclared declared (congrArg _ hs)
  | complete c =>
      cases frames with
      | nil => exact ⟨hcontrol, hframes, hh⟩
      | cons frame frames =>
          obtain ⟨hframe, hrest⟩ := List.forall_mem_cons.mp hframes
          cases c with
          | normal v =>
              exact continueWith_values hplain hh hrest hframe
                (List.forall_mem_singleton.mp hcontrol) hbinds
          | returned v =>
              exact returnFrom_values hplain hh hrest frame (List.forall_mem_singleton.mp hcontrol)
          | raised f =>
              -- what is put back when a failure passes holds no values
              cases frame <;> exact ⟨List.forall_mem_nil _, hrest, hh⟩

end Machine

end

end Lox
