import Lox.Proofs.Properties.Classes
import Lox.Proofs.Properties.Sets

/-!
# Properties follow the history of the object

A session is followed from moment to moment, and two things are noted: each Set when it ends, and each
declaration of a class. What the fields of all objects are can be read off the Sets alone, and what methods
there are can be read off the declarations. So the value of a property is that of the latest Set, or else the
nearest method of that name, bound anew; by which way the object was come to does not matter.
-/

namespace Lox

/-! ## Histories -/

namespace Moment

/-- The Set that ends from this moment to the next one. -/
def sets? : Moment → Option FieldSet
  | between _ => none
  | during _ m => m.sets?

/-- The superclass and the methods of the class that is made from this moment to the next one. -/
def makesClass? : Moment → Option (Option ClassId × List Function)
  | between _ => none
  | during _ m => m.makesClass?

/-- The Sets that have ended up to this moment, the latest first, and what the classes were declared with, in
the order in which they were made. -/
inductive History : Moment → List FieldSet → List (Option ClassId × List Function) → Prop where
  | fresh (output : Sink) (clock : Clock) : History (between (.fresh output clock)) [] []
  | next {a b : Moment} {sets : List FieldSet} {classes : List (Option ClassId × List Function)} :
      History a sets classes → a.Next b →
      History b (a.sets?.toList ++ sets) (classes ++ a.makesClass?.toList)

variable {a b : Moment} {sets : List FieldSet} {classes : List (Option ClassId × List Function)}

theorem History.reached (h : a.History sets classes) : a.Reached := by
  induction h with
  | fresh output clock => exact ⟨output, clock, .refl⟩
  | next _ hnext ih =>
      obtain ⟨output, clock, hleads⟩ := ih
      exact ⟨output, clock, hleads.tail hnext⟩

/-- Every moment has a history. -/
theorem Reached.exists_history (h : a.Reached) : ∃ sets classes, a.History sets classes := by
  obtain ⟨output, clock, hleads⟩ := h
  induction hleads with
  | refl => exact ⟨_, _, .fresh output clock⟩
  | tail _ hnext ih =>
      obtain ⟨sets, classes, h⟩ := ih
      exact ⟨_, _, .next h hnext⟩

/-- Nothing is noted unless a program makes a step. -/
theorem Next.steps_or_rests (h : a.Next b) :
    (∃ loaded m, a = during loaded m ∧ b = during loaded m.step) ∨
      b.heap = a.heap ∧ a.sets? = none ∧ a.makesClass? = none := by
  cases h with
  | @rejected s s' source e hload =>
      cases Session.Loads.of_load hload with
      | unread _ => exact .inr ⟨rfl, rfl, rfl⟩
      | unscoped _ _ => exact .inr ⟨rfl, rfl, rfl⟩
  | @loaded s loaded source m hload =>
      cases Session.Loads.of_load hload with
      | loaded _ _ => exact .inr ⟨rfl, rfl, rfl⟩
  | step loaded m => exact .inl ⟨loaded, m, rfl, rfl⟩
  | @concluded loaded m c hc =>
      refine .inr ⟨congrArg State.heap (Session.conclude_state loaded c m.state), ?_, ?_⟩
      -- where nothing waits, nothing ends
      · obtain ⟨hcontrol, hframes⟩ := Machine.result?_eq_some_iff.mp hc
        rw [sets?, Machine.sets?, hframes]
        split
        · next heq => cases heq
        · rfl
      · obtain ⟨hcontrol, hframes⟩ := Machine.result?_eq_some_iff.mp hc
        rw [makesClass?, Machine.makesClass?, hframes, hcontrol]
        split
        · next heq => cases heq
        · next heq => cases heq
        · rfl
  | parse s source => exact .inr ⟨rfl, rfl, rfl⟩
  | resetErrors s => exact .inr ⟨rfl, rfl, rfl⟩
  | host s output clock => exact .inr ⟨rfl, rfl, rfl⟩

/-- The heap is as the history says. -/
structure Recorded (a : Moment) (sets : List FieldSet)
    (classes : List (Option ClassId × List Function)) : Prop where
  fields : ∀ o name, (a.heap.objectAt o).fields[name]? = FieldSet.latest sets o name
  size : classes.length = a.heap.classes.size
  classes : ∀ (c : ClassId) superclass methods, classes[c.index]? = some (superclass, methods) →
    a.heap.Declares c superclass methods

theorem natives_objects (globals : ScopeId) (natives : List Native) (h : Heap) :
    let h' := natives.foldl (fun h f => h.define globals f.name (.native f)) h
    h'.objects = h.objects ∧ h'.classes = h.classes :=
  natives.foldlRecOn (motive := fun h' : Heap => h'.objects = h.objects ∧ h'.classes = h.classes) _
    ⟨rfl, rfl⟩ fun _ hh _ _ => hh

theorem Recorded.fresh (output : Sink) (clock : Clock) :
    (between (.fresh output clock)).Recorded [] [] := by
  obtain ⟨hobjects, hclasses⟩ := natives_objects ⟨0⟩ Native.all (Heap.empty.addScope ⟨∅, none⟩).2
  have hobjects : (State.initial output clock).heap.objects = #[] := hobjects
  have hclasses : (State.initial output clock).heap.classes = #[] := hclasses
  refine ⟨fun o name => ?_, ?_, fun _ _ _ hentry => nomatch hentry⟩
  · show ((State.initial output clock).heap.objectAt o).fields[name]? = none
    rw [Heap.objectAt, hobjects]
    simp
  · show 0 = (State.initial output clock).heap.classes.size
    rw [hclasses]
    rfl

/-- **What is noted of a step is what it does to fields and classes.** -/
theorem Recorded.step {loaded : Session} {m : Machine} (h : (during loaded m).Recorded sets classes)
    (hm : m.Intact) (hk : m.state.heap.Keeps m.step.state.heap) :
    (during loaded m.step).Recorded (m.sets?.toList ++ sets) (classes ++ m.makesClass?.toList) := by
  have hfields : ∀ o name, (m.state.heap.objectAt o).fields[name]? = FieldSet.latest sets o name :=
    h.fields
  have hsize : classes.length = m.state.heap.classes.size := h.size
  have hclasses : ∀ (c : ClassId) superclass methods,
      classes[c.index]? = some (superclass, methods) → m.state.heap.Declares c superclass methods :=
    h.classes
  -- the place of a declaration is the number of its class
  refine ⟨fun o name => ?_, ?_, fun c superclass methods hentry => ?_⟩
  · show (m.step.state.heap.objectAt o).fields[name]? = _
    rw [Machine.step_fields hm]
    cases m.sets? with
    | none => exact hfields o name
    | some s =>
        show _ = FieldSet.latest (s :: sets) o name
        rw [FieldSet.latest_cons, hfields]
  · show _ = m.step.state.heap.classes.size
    cases hmakes : m.makesClass? with
    | none =>
        rcases m.step_classes with hsame | ⟨superclass, methods, hsome⟩
        · rw [hsame, ← hsize]
          exact congrArg List.length (List.append_nil classes)
        · exact nomatch hmakes.symm.trans hsome
    | some entry =>
        rw [(Machine.step_declares hmakes).2, ← hsize]
        exact List.length_append
  · cases hmakes : m.makesClass? with
    | none =>
        rw [hmakes] at hentry
        have hentry : (classes ++ [])[c.index]? = some (superclass, methods) := hentry
        rw [List.append_nil] at hentry
        exact (hclasses c superclass methods hentry).keeps hk
    | some entry =>
        rw [hmakes] at hentry
        rcases Heap.getElem?_snoc hentry with ⟨hindex, rfl⟩ | ⟨-, hold⟩
        · -- it is the class that the step has made
          have hc : c = ⟨m.state.heap.classes.size⟩ := congrArg ClassId.mk (hindex.trans hsize)
          rw [hc]
          exact (Machine.step_declares hmakes).1
        · exact (hclasses c superclass methods hold).keeps hk

theorem History.recorded (h : a.History sets classes) : a.Recorded sets classes := by
  induction h with
  | fresh output clock => exact .fresh output clock
  | @next a b sets classes h hnext ih =>
      have hreached := h.reached
      rcases id hnext.steps_or_rests with ⟨loaded, m, rfl, rfl⟩ | ⟨hheap, hsets, hmakes⟩
      · exact ih.step hreached.intact (hreached.arises.keeps_next hnext)
      · obtain ⟨hfields, hsize, hclasses⟩ := ih
        rw [hsets, hmakes]
        have hnone : classes ++ (none : Option (Option ClassId × List Function)).toList = classes :=
          List.append_nil classes
        rw [hnone]
        refine ⟨?_, ?_, ?_⟩
        · rw [hheap]
          exact hfields
        · rw [hheap]
          exact hsize
        · rw [hheap]
          exact hclasses

end Moment

/-! ## The nearest method -/

/-- The method that instances of the class have under the name, by the declarations of the classes, with the class
that declares it: the last one with this name that the class was declared with, or else the one that comes from
its superclass. -/
inductive Nearest (classes : List (Option ClassId × List Function)) (name : String) :
    ClassId → Option (ClassId × Function) → Prop where
  | here {c : ClassId} {superclass : Option ClassId} {methods : List Function} {declared : Function} :
      classes[c.index]? = some (superclass, methods) →
      Function.lastNamed methods name = some declared → Nearest classes name c (some (c, declared))
  | upwards {c parent : ClassId} {methods : List Function} {found : Option (ClassId × Function)} :
      classes[c.index]? = some (some parent, methods) → Function.lastNamed methods name = none →
      Nearest classes name parent found → Nearest classes name c found
  | nowhere {c : ClassId} {methods : List Function} : classes[c.index]? = some (none, methods) →
      Function.lastNamed methods name = none → Nearest classes name c none

/-- What a search has found is the method of this class and of this declaration. -/
inductive Heap.Finds (h : Heap) (name : String) :
    Option FunctionId → Option (ClassId × Function) → Prop where
  | method {d : ClassId} {f : FunctionId} {declared : Function} :
      (h.classAt d).methods[name]? = some f → (h.functionAt f).declared = declared →
      Finds h name (some f) (some (d, declared))
  | nothing : Finds h name none none

theorem Heap.Finds.exists_method {h : Heap} {name : String} {f : Option FunctionId} {d : ClassId}
    {declared : Function} (hfinds : h.Finds name f (some (d, declared))) :
    ∃ method, f = some method ∧ (h.classAt d).methods[name]? = some method ∧
      (h.functionAt method).declared = declared := by
  cases hfinds with
  | method hentry hmethod => exact ⟨_, rfl, hentry, hmethod⟩

theorem Heap.Finds.eq_none {h : Heap} {name : String} {f : Option FunctionId}
    (hfinds : h.Finds name f none) : f = none := by
  cases hfinds
  rfl

section

variable {classes : List (Option ClassId × List Function)} {name : String}

theorem Nearest.unique {c : ClassId} {found found' : Option (ClassId × Function)}
    (h : Nearest classes name c found) (h' : Nearest classes name c found') : found = found' := by
  induction h with
  | here hclass hlast =>
      cases h' with
      | here hclass' hlast' =>
          cases hclass.symm.trans hclass'
          cases hlast.symm.trans hlast'
          rfl
      | upwards hclass' hnone _ =>
          cases hclass.symm.trans hclass'
          exact nomatch hlast.symm.trans hnone
      | nowhere hclass' hnone =>
          cases hclass.symm.trans hclass'
          exact nomatch hlast.symm.trans hnone
  | upwards hclass hnone _ ih =>
      cases h' with
      | here hclass' hlast =>
          cases hclass.symm.trans hclass'
          exact nomatch hnone.symm.trans hlast
      | upwards hclass' _ h' =>
          cases hclass.symm.trans hclass'
          exact ih h'
      | nowhere hclass' _ => exact nomatch hclass.symm.trans hclass'
  | nowhere hclass hnone =>
      cases h' with
      | here hclass' hlast =>
          cases hclass.symm.trans hclass'
          exact nomatch hnone.symm.trans hlast
      | upwards hclass' _ _ => exact nomatch hclass.symm.trans hclass'
      | nowhere _ _ => rfl

/-- **The search along superclasses finds the nearest method.** -/
theorem Moment.Recorded.nearest {a : Moment} {sets : List FieldSet} (h : a.Recorded sets classes)
    {globals : ScopeId} (hi : a.heap.Intact globals) {c : ClassId} {f : Option FunctionId}
    (hsearch : a.heap.SearchesMethod name c f) (hc : a.heap.Has (.classObject c)) :
    ∃ found, Nearest classes name c found ∧ a.heap.Finds name f found := by
  -- every class that the search comes through has been declared
  have hentry {c : ClassId} (hc : a.heap.Has (.classObject c)) :
      ∃ superclass methods, classes[c.index]? = some (superclass, methods) ∧
        a.heap.Declares c superclass methods := by
    have hlt : c.index < classes.length := h.size ▸ hc
    exact ⟨_, _, List.getElem?_eq_getElem hlt, h.classes c _ _ (List.getElem?_eq_getElem hlt)⟩
  induction hsearch with
  | @here c f hmethod =>
      obtain ⟨superclass, methods, hclass, hdeclares⟩ := hentry hc
      refine ⟨_, .here hclass ?_, .method hmethod rfl⟩
      rw [← hdeclares.last, hmethod]
      rfl
  | @upwards c parent f hnone hparent _ ih =>
      obtain ⟨superclass, methods, hclass, hdeclares⟩ := hentry hc
      obtain rfl := hdeclares.hasClass.superclass.symm.trans hparent
      obtain ⟨found, hnearest, hfinds⟩ := ih (hi.refers _ _ hc (.superclass hparent))
      refine ⟨found, .upwards hclass ?_ hnearest, hfinds⟩
      rw [← hdeclares.last, hnone]
      rfl
  | @nowhere c hnone hparent =>
      obtain ⟨superclass, methods, hclass, hdeclares⟩ := hentry hc
      obtain rfl := hdeclares.hasClass.superclass.symm.trans hparent
      refine ⟨none, .nowhere hclass ?_, .nothing⟩
      rw [← hdeclares.last, hnone]
      rfl

end

/-! ## Sets and accesses -/

namespace Machine

variable {m : Machine}

/-- The object of a Set comes first. What is no object has no fields, and the value is not evaluated then. -/
theorem set_parts {object value : Expr} {name : Token}
    (hcontrol : m.control = .eval (.set object name value)) :
    m.step = ⟨.eval object, .setObject name value :: m.frames, m.state⟩ ∧
    ∀ j v, m.step.Ends (.setObject name value :: m.frames) j (.normal v) →
      ((∀ o, v ≠ .object o) →
        m.run (j + 2) = ⟨.complete (.faultAt name .noFields), m.frames, (m.run (j + 1)).state⟩) ∧
      ∀ o, v = .object o →
        m.run (j + 2) = ⟨.eval value, .setValue o name :: m.frames, (m.run (j + 1)).state⟩ ∧
        ∀ k w, (m.run (j + 2)).Ends (.setValue o name :: m.frames) k (.normal w) →
          ((m.run (j + 2)).run k).sets? = some ⟨o, name.lexeme, w⟩ := by
  refine ⟨?_, fun j v hends => ?_⟩
  · obtain ⟨control, frames, st⟩ := m
    dsimp only at hcontrol
    subst hcontrol
    rfl
  · have hended : m.step.run j = m.run (j + 1) := (run_succ j m).symm
    have hnext : m.run (j + 2) = (m.run (j + 1)).step := run_succ_last (j + 1) m
    have hvalue := hends.control
    have hframes := hends.frames
    rw [hended] at hvalue hframes
    rw [hnext]
    generalize m.run (j + 1) = ended at hvalue hframes
    obtain ⟨control, frames, st⟩ := ended
    dsimp only at hvalue hframes
    subst hvalue hframes
    refine ⟨fun hno => ?_, ?_⟩
    · cases v with
      | object o => exact absurd rfl (hno o)
      | _ => rfl
    · rintro o rfl
      refine ⟨rfl, fun k w hends => ?_⟩
      rw [sets?, hends.control, hends.frames]

/-- **The value of a property**, by the field and by the method that is found. -/
theorem step_get {o : ObjectId} {name : Token} {frames : List Frame}
    (hcontrol : m.control = .complete (.normal (.object o))) (hframes : m.frames = .get name :: frames) :
    m.step =
      match (m.state.heap.objectAt o).fields[name.lexeme]? with
      | some v => ⟨.complete (.normal v), frames, m.state⟩
      | none =>
        match m.state.heap.findMethod? (m.state.heap.objectAt o).ofClass name.lexeme with
        | some method => ⟨.complete (.normal (.function ⟨m.state.heap.functions.size⟩)), frames,
            { m.state with heap := (m.state.heap.bindMethod method o).2 }⟩
        | none => ⟨.complete (.faultAt name (.undefinedProperty name.lexeme)), frames, m.state⟩ := by
  obtain ⟨control, allFrames, st⟩ := m
  dsimp only at hcontrol hframes
  subst hcontrol hframes
  have hstep : step ⟨.complete (.normal (.object o)), .get name :: frames, st⟩
      = ⟨.complete (Machine.property st o name).1, frames, (Machine.property st o name).2⟩ := rfl
  rw [hstep, Machine.property]
  dsimp only
  cases (st.heap.objectAt o).fields[name.lexeme]? with
  | some v => rfl
  | none => cases st.heap.findMethod? (st.heap.objectAt o).ofClass name.lexeme <;> rfl

end Machine

/-- A function that is still to be made is no value that is there. -/
theorem Heap.Holds.ne_new {h : Heap} {v : Value} (hv : h.Holds v) :
    v.same (.function ⟨h.functions.size⟩) = false ∧
      (Value.function ⟨h.functions.size⟩).same v = false := by
  have hne : v ≠ .function ⟨h.functions.size⟩ := by
    rintro rfl
    exact Nat.lt_irrefl _ (hv _ rfl)
  cases v with
  | number value => exact ⟨rfl, rfl⟩
  | _ => exact ⟨decide_eq_false hne, decide_eq_false hne.symm⟩

namespace Moment

variable {loaded : Session} {m : Machine}

/-- What waits in a Set does so because the Set was started in its place. -/
theorem Reached.set_started (h : (during loaded m).Reached) {frame : Frame} {name : Token}
    (hset : frame.setName? = some name) {below : List Frame} (hframes : frame :: below <:+ m.frames) :
    ∃ m' object value, (during loaded m').Leads (during loaded m) ∧
      m'.control = .eval (.set object name value) ∧ m'.frames = below := by
  obtain ⟨output, clock, hleads⟩ := h
  generalize hb : during loaded m = b at hleads
  induction hleads generalizing m frame with
  | refl => cases hb
  | @tail a b hleads hnext ih =>
      subst hb
      cases hnext with
      | @loaded s _ source _ hload =>
          -- only the program waits when it is loaded
          cases Session.Loads.of_load hload with
          | loaded _ _ =>
              rcases List.suffix_cons_iff.mp hframes with heq | hnil
              · rw [(List.cons.inj heq).1] at hset
                cases hset
              · exact nomatch List.eq_nil_of_suffix_nil hnil
      | step _ m =>
          have hstep : (during loaded m).Leads (during loaded m.step) := .single (.step loaded m)
          rcases Machine.step_startsSet hset hframes with hold | hstarts
          · obtain ⟨m', object, value, hbefore, hstarted⟩ := ih hset hold rfl
            exact ⟨m', object, value, hbefore.trans hstep, hstarted⟩
          · cases hstarts with
            | @object object value name' hcontrol =>
                cases hset
                exact ⟨m, object, value, hstep, hcontrol, rfl⟩
            | @value o name' value _ hcontrol hat =>
                cases hset
                have hwaits : (Frame.setObject name value).setName? = some name := rfl
                have hat : .setObject name value :: below <:+ m.frames := by rw [hat]
                obtain ⟨m', object, value, hbefore, hstarted⟩ := ih hwaits hat rfl
                exact ⟨m', object, value, hbefore.trans hstep, hstarted⟩

/-- A Set that ends is one that was started. -/
theorem Reached.set_ends (h : (during loaded m).Reached) {s : FieldSet} (hs : m.sets? = some s) :
    ∃ m' object name value, (during loaded m').Leads (during loaded m) ∧
      m'.control = .eval (.set object name value) ∧ m'.frames = m.frames.tail ∧
      name.lexeme = s.name := by
  obtain ⟨name, frames, -, hframes, hname⟩ := Machine.sets?_eq_some hs
  have hwaits : (Frame.setValue s.object name).setName? = some name := rfl
  have hat : .setValue s.object name :: frames <:+ m.frames := by rw [hframes]
  obtain ⟨m', object, value, hleads, hcontrol, hbelow⟩ := h.set_started hwaits hat
  exact ⟨m', object, name, value, hleads, hcontrol, hbelow.trans (congrArg List.tail hframes).symm, hname⟩

/-- The class of an object that is at hand is there. -/
theorem Reached.has_class (h : (during loaded m).Reached) {o : ObjectId}
    (hcontrol : m.control = .complete (.normal (.object o))) :
    m.state.heap.Has (.classObject (m.state.heap.objectAt o).ofClass) := by
  have hm : m.Intact := h.intact
  have ho : m.state.heap.Has (.object o) := by
    refine hm.control _ ?_
    rw [hcontrol]
    exact List.mem_singleton_self _
  exact hm.state.heap.refers (.object o) _ ho .ofClass

end Moment

/-- **Property access follows the history of the object.** Every moment has a history, and what fields there
are follows from its Sets: each has the value of the latest one. Such a field is what a property is. Without
one, the property is a new function, different from every value there is: the nearest method with the name,
by the declarations of the classes, bound to the object for ever. Without such a method the access fails. Only
a Set that ends changes fields, and it was started as one; a step that fails changes none. A Set on what is no
object fails when this has been evaluated, and its value is not. -/
theorem property_access_follows_history {loaded : Session} {m : Machine}
    (h : (Moment.during loaded m).Reached) :
    (∃ sets classes, (Moment.during loaded m).History sets classes) ∧
    (∀ sets classes, (Moment.during loaded m).History sets classes →
      (∀ o name, (m.state.heap.objectAt o).fields[name]? = FieldSet.latest sets o name) ∧
      ∀ o name frames, m.control = .complete (.normal (.object o)) → m.frames = .get name :: frames →
        (∀ v, FieldSet.latest sets o name.lexeme = some v →
          m.step = ⟨.complete (.normal v), frames, m.state⟩) ∧
        (FieldSet.latest sets o name.lexeme = none →
          (∃ found, Nearest classes name.lexeme (m.state.heap.objectAt o).ofClass found) ∧
          (∀ d declared,
            Nearest classes name.lexeme (m.state.heap.objectAt o).ofClass (some (d, declared)) →
            ∃ method, (m.state.heap.classAt d).methods[name.lexeme]? = some method ∧
              (m.state.heap.functionAt method).declared = declared ∧
              m.step = ⟨.complete (.normal (.function ⟨m.state.heap.functions.size⟩)), frames,
                { m.state with heap := (m.state.heap.bindMethod method o).2 }⟩ ∧
              (∀ v, m.state.heap.Holds v → v.same (.function ⟨m.state.heap.functions.size⟩) = false ∧
                (Value.function ⟨m.state.heap.functions.size⟩).same v = false) ∧
              ∀ b, (Moment.during loaded m.step).Leads b →
                b.heap.IsBound method o ⟨m.state.heap.functions.size⟩ ∧
                (b.heap.functionAt ⟨m.state.heap.functions.size⟩).declared = declared) ∧
          (Nearest classes name.lexeme (m.state.heap.objectAt o).ofClass none →
            m.step = ⟨.complete (.faultAt name (.undefinedProperty name.lexeme)), frames, m.state⟩))) ∧
    (m.sets? = none → m.state.heap.SameFields m.step.state.heap) ∧
    (∀ s, m.sets? = some s →
      m.step = ⟨.complete (.normal s.value), m.frames.tail,
        { m.state with heap := m.state.heap.setField s.object s.name s.value }⟩ ∧
      ∃ m' object name value, (Moment.during loaded m').Leads (.during loaded m) ∧
        m'.control = .eval (.set object name value) ∧ m'.frames = m.frames.tail ∧
        name.lexeme = s.name) ∧
    (∀ failure, m.step.control = .complete (.raised failure) →
      m.state.heap.SameFields m.step.state.heap) ∧
    ∀ object name value, m.control = .eval (.set object name value) →
      m.step = ⟨.eval object, .setObject name value :: m.frames, m.state⟩ ∧
      ∀ j v, m.step.Ends (.setObject name value :: m.frames) j (.normal v) →
        ((∀ o, v ≠ .object o) →
          m.run (j + 2) = ⟨.complete (.faultAt name .noFields), m.frames, (m.run (j + 1)).state⟩) ∧
        ∀ o, v = .object o →
          m.run (j + 2) = ⟨.eval value, .setValue o name :: m.frames, (m.run (j + 1)).state⟩ ∧
          ∀ k w, (m.run (j + 2)).Ends (.setValue o name :: m.frames) k (.normal w) →
            ((m.run (j + 2)).run k).sets? = some ⟨o, name.lexeme, w⟩ := by
  have hm : m.Intact := h.intact
  refine ⟨h.exists_history, fun sets classes hhistory => ?_, Machine.step_sameFields,
    fun s hs => ⟨Machine.step_of_sets hs, h.set_ends hs⟩, fun failure hfailure => ?_,
    fun object name value => Machine.set_parts⟩
  · have hfields : ∀ o name, (m.state.heap.objectAt o).fields[name]? = FieldSet.latest sets o name :=
      hhistory.recorded.fields
    refine ⟨hfields, fun o name frames hcontrol hframes => ?_⟩
    -- the search for the method agrees with the declarations
    have hsearch := hm.state.heap.searchesMethod name.lexeme (m.state.heap.objectAt o).ofClass
    obtain ⟨found, hnearest, hfinds⟩ :=
      hhistory.recorded.nearest hm.state.heap hsearch (h.has_class hcontrol)
    have hstep := Machine.step_get hcontrol hframes
    rw [hfields] at hstep
    refine ⟨fun v hv => ?_, fun hnone => ⟨⟨_, hnearest⟩, fun d declared hdeclared => ?_, fun hno => ?_⟩⟩
    · rw [hv] at hstep
      exact hstep
    · obtain rfl := hnearest.unique hdeclared
      obtain ⟨method, hfound, hentry, hmethod⟩ := hfinds.exists_method
      rw [hnone] at hstep
      dsimp only at hstep
      rw [hfound] at hstep
      refine ⟨method, hentry, hmethod, hstep, fun v hv => hv.ne_new, fun b hb => ?_⟩
      have hbinds : m.BindsMethod method o :=
        .property hcontrol hframes ((hfields o _).trans hnone) hfound
      have hlt : m.state.heap.Has (.function method) := hm.state.heap.method hfound
      have hnext : (Moment.during loaded m).Next (.during loaded m.step) := .step loaded m
      -- what is bound stays bound, and the method stays the one of its declaration
      have hkeeps : m.step.state.heap.Keeps b.heap := hb.keeps (h.arises.next hnext)
      have hbound := (hbinds.step hlt).1.keeps hkeeps
      have hkept := (m.step_grows.trans hkeeps.grows).functionAt hlt
      refine ⟨hbound, (congrArg Closure.declared hbound.function).trans ?_⟩
      exact (congrArg Closure.declared hkept).trans hmethod
    · obtain rfl := hnearest.unique hno
      have hfound := hfinds.eq_none
      rw [hnone] at hstep
      dsimp only at hstep
      rw [hfound] at hstep
      exact hstep
  · cases hs : m.sets? with
    | none => exact Machine.step_sameFields hs
    | some s =>
        -- a Set that ends does so with its value
        rw [Machine.step_of_sets hs] at hfailure
        cases hfailure

/-- An object has two names, and its class a method that is declared twice. -/
def propertiesRead : String :=
  "class A \x7b m() \x7b\x7d m() \x7b return; \x7d \x7d class B < A \x7b\x7d var a = B(); var b = a; b.f = true; a.f; a.m; nil.g = a.f;"

/-- The moments of this program at which a property is read, or not set. -/
theorem run_properties :
    ∃ (loaded : Session) (m : Machine) (name name' name'' : Token) (frames frames' : List Frame)
      (object value : Expr),
      (Session.fresh .unlimited ⟨0⟩).load propertiesRead = (loaded, .ok m) ∧
      ((m.run 27).control = .complete (.normal (.object ⟨0⟩)) ∧ (m.run 27).frames = .get name :: frames ∧
        ((m.run 27).state.heap.objectAt ⟨0⟩).fields[name.lexeme]? = some (.bool true)) ∧
      ((m.run 32).control = .complete (.normal (.object ⟨0⟩)) ∧
        (m.run 32).frames = .get name' :: frames' ∧ name'.lexeme = "m" ∧
        ((m.run 32).state.heap.objectAt ⟨0⟩).fields[name'.lexeme]? = none ∧
        (m.run 32).state.heap.functions.size = 2 ∧
        (m.run 32).step.control = .complete (.normal (.function ⟨2⟩))) ∧
      (m.run 35).control = .eval (.set object name'' value) ∧ (m.run 36).control = .eval object ∧
        (m.run 37).control = .complete (.normal .nil) ∧ (m.run 37).frames = (m.run 36).frames := by
  have hall : ((Session.fresh .unlimited ⟨0⟩).load propertiesRead).2.toOption.map
      (fun m => ((m.run 27).control, (m.run 27).frames.head?,
        ((m.run 27).state.heap.objectAt ⟨0⟩).fields["f"]?,
        (m.run 32).control, (m.run 32).frames.head?,
        ((m.run 32).state.heap.objectAt ⟨0⟩).fields["m"]?, (m.run 32).state.heap.functions.size,
        (m.run 32).step.control,
        (m.run 35).control, (m.run 36).control, (m.run 37).control))
      = some (.complete (.normal (.object ⟨0⟩)), some (.get ⟨.identifier, "f", 1⟩), some (.bool true),
          .complete (.normal (.object ⟨0⟩)), some (.get ⟨.identifier, "m", 1⟩), none, 2,
          .complete (.normal (.function ⟨2⟩)),
          .eval (.set (.literal .nil) ⟨.identifier, "g", 1⟩
            (.get (.ident ⟨6, ⟨.identifier, "a", 1⟩⟩) ⟨.identifier, "f", 1⟩)),
          .eval (.literal .nil), .complete (.normal .nil)) := by
    cbv
  obtain ⟨loaded, m, hload, hall⟩ := Session.exists_loaded hall
  simp only [Prod.mk.injEq] at hall
  obtain ⟨hobject, hhead, hfield, hobject', hhead', hfield', hsize, hvalue, hset, hpart, hnil⟩ := hall
  obtain ⟨frames, hframes⟩ := List.head?_eq_some_iff.mp hhead
  obtain ⟨frames', hframes'⟩ := List.head?_eq_some_iff.mp hhead'
  -- a literal leaves what waits for it
  have hsame : (m.run 37).frames = (m.run 36).frames := by
    rw [Machine.run_succ_last 36]
    generalize m.run 36 = before at hpart
    obtain ⟨control, frames, st⟩ := before
    dsimp only at hpart
    subst hpart
    rfl
  exact ⟨loaded, m, _, _, _, frames, frames', _, _, hload, ⟨hobject, hframes, hfield⟩,
    ⟨hobject', hframes', rfl, hfield', hsize, hvalue⟩, hset, hpart, hnil, hsame⟩

/-- A field that is set by way of one variable is read by way of another. The method is made anew, for the object
and for ever. What is set on `nil` is not evaluated. -/
theorem property_access_follows_history_aliased :
    ∃ (loaded : Session) (m : Machine) (frames frames' : List Frame) (name : Token),
      (Session.fresh .unlimited ⟨0⟩).load propertiesRead = (loaded, .ok m) ∧
      (m.run 27).step = ⟨.complete (.normal (.bool true)), frames, (m.run 27).state⟩ ∧
      (∃ classes d declared method,
        Nearest classes "m" ((m.run 32).state.heap.objectAt ⟨0⟩).ofClass (some (d, declared)) ∧
        (m.run 32).step = ⟨.complete (.normal (.function ⟨2⟩)), frames',
          { (m.run 32).state with heap := ((m.run 32).state.heap.bindMethod method ⟨0⟩).2 }⟩ ∧
        ∀ b, (Moment.during loaded (m.run 32).step).Leads b → b.heap.IsBound method ⟨0⟩ ⟨2⟩) ∧
      (m.run 35).run 3 = ⟨.complete (.faultAt name .noFields), (m.run 35).frames, (m.run 37).state⟩ := by
  obtain ⟨loaded, m, name, name', name'', frames, frames', object, value, hload,
    ⟨hobject, hframes, hfield⟩, ⟨hobject', hframes', hname, hfield', hsize, hvalue⟩, hset, hpart, hnil,
    hsame⟩ := run_properties
  have hreached (n : Nat) : (Moment.during loaded (m.run n)).Reached :=
    ⟨.unlimited, ⟨0⟩, (Relation.ReflTransGen.single (.loaded hload)).trans (Moment.leads_run loaded m n)⟩
  obtain ⟨⟨sets, classes, hhistory⟩, haccess, -⟩ := property_access_follows_history (hreached 27)
  obtain ⟨⟨sets', classes', hhistory'⟩, haccess', -⟩ := property_access_follows_history (hreached 32)
  obtain ⟨-, -, -, -, -, hsets⟩ := property_access_follows_history (hreached 35)
  obtain ⟨hfields, hget⟩ := haccess sets classes hhistory
  obtain ⟨hfields', hget'⟩ := haccess' sets' classes' hhistory'
  rw [hfields] at hfield
  rw [hfields'] at hfield'
  have hread := (hget _ _ _ hobject hframes).1 _ hfield
  obtain ⟨⟨found, hnearest⟩, hmethod, hfault⟩ := (hget' _ _ _ hobject' hframes').2 hfield'
  obtain ⟨hstep, hends⟩ := hsets _ _ _ hset
  -- the object of the Set is a literal, and ends at once
  have hended : (m.run 35).step.Ends (.setObject name'' value :: (m.run 35).frames) 1 (.normal .nil) := by
    have hfirst : m.run 36 = (m.run 35).step := Machine.run_succ_last 35 m
    have hsecond : (m.run 36).run 1 = m.run 37 := (Machine.run_add 1 36 m).symm
    rw [← hfirst] at hstep ⊢
    refine ⟨fun j hj c hc _ => ?_, ?_, ?_⟩
    · obtain rfl := Nat.lt_one_iff.mp hj
      cases hpart.symm.trans hc
    · rw [hsecond, hnil]
    · rw [hsecond, hsame, hstep]
  have hrefused := (hends 1 _ hended).1 fun o h => by cases h
  cases found with
  | none =>
      rw [hfault hnearest] at hvalue
      cases hvalue
  | some found =>
      obtain ⟨d, declared⟩ := found
      obtain ⟨method, -, -, hbound, -, hlater⟩ := hmethod d declared hnearest
      rw [hsize] at hbound hlater
      rw [hname] at hnearest
      refine ⟨loaded, m, frames, frames', name'', hload, hread,
        ⟨classes', d, declared, method, hnearest, hbound, fun b hb => (hlater b hb).1⟩, ?_⟩
      rw [hrefused, ← Machine.run_add]

end Lox
