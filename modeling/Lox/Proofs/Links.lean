import Mathlib.Logic.Relation
import Lox.Proofs.Links.Steps
import Lox.Proofs.Links.Walks
import Lox.Proofs.Receivers

/-!
# The links between things

A session is followed from moment to moment: between two programs, and through every step of a program,
however it ends. At each of these moments all that can be reached is on the heap, every scope leads out to
the top level, and every class has a last superclass. So what walks along these links comes to an end, even
though values go round in circles.

From one moment to the next nothing takes a thing its links: scopes stay where they are, functions and
classes stay what they are, objects keep their classes, and `this` and `super` keep their values.
-/

namespace Lox

/-! ## Moments -/

/-- The session is between two programs, or it is running one. -/
inductive Moment where
  | between (s : Session)
  | during (loaded : Session) (m : Machine)

namespace Moment

def state : Moment → State
  | between s => s.state
  | during _ m => m.state

def heap (a : Moment) : Heap := a.state.heap

/-- What the running program refers to outside of the heap. -/
def held : Moment → List Thing
  | between _ => []
  | during _ m => m.control.things ++ m.frames.flatMap Frame.things

/-- What can happen next. A source is rejected, or a machine is loaded with it, makes its steps, and is
done with when it has halted. Between two programs the host may do more. -/
inductive Next : Moment → Moment → Prop where
  | rejected {s s' : Session} {source : String} {e : RunError} :
      s.load source = (s', .error e) → Next (between s) (between s')
  | loaded {s loaded : Session} {source : String} {m : Machine} :
      s.load source = (loaded, .ok m) → Next (between s) (during loaded m)
  | step (loaded : Session) (m : Machine) : Next (during loaded m) (during loaded m.step)
  | concluded {loaded : Session} {m : Machine} {c : Completion} :
      m.result? = some c → Next (during loaded m) (between (loaded.conclude c m.state).1)
  | parse (s : Session) (source : String) : Next (between s) (between (s.parse source).2)
  | resetErrors (s : Session) : Next (between s) (between s.resetErrors)
  | host (s : Session) (output : Sink) (clock : Clock) :
      Next (between s) (between { s with state := { s.state with output, clock } })

/-- The second moment comes after the first one, or is the same. -/
def Leads : Moment → Moment → Prop := Relation.ReflTransGen Next

/-- The moments that come about. -/
def Reached (a : Moment) : Prop := ∃ output clock, (between (.fresh output clock)).Leads a

/-- What can be reached: from the innermost scope and the top level, from values in scopes and fields, from
the methods of classes, and from what the running program holds. -/
inductive Reaches (a : Moment) : Thing → Prop where
  | scope : Reaches a (.scope a.state.scope)
  | globals : Reaches a (.scope a.state.globals)
  | bound {x : ScopeId} {name : String} {v : Value} {t : Thing} :
      a.heap.bound? x name = some v → v.thing? = some t → Reaches a t
  | field {o : ObjectId} {name : String} {v : Value} {t : Thing} :
      (a.heap.objectAt o).fields[name]? = some v → v.thing? = some t → Reaches a t
  | method {c : ClassId} {name : String} {f : FunctionId} :
      (a.heap.classAt c).methods[name]? = some f → Reaches a (.function f)
  | held {t : Thing} : t ∈ a.held → Reaches a t
  | along {t u : Thing} : Reaches a t → a.heap.Refers t u → Reaches a u

/-! ### Moments and runs -/

variable {a b : Moment}

theorem leads_run (loaded : Session) (m : Machine) :
    ∀ n, (during loaded m).Leads (during loaded (m.run n)) := by
  intro n
  induction n with
  | zero => exact .refl
  | succ n ih =>
      rw [Machine.run_succ_last]
      exact ih.tail (.step loaded _)

/-- Every program that a session runs to its end goes from one moment to the next. -/
theorem leads_of_run {s s' : Session} {limit : Nat} {source : String} {result : Except RunError Unit}
    (h : s.run limit source = some (s', result)) : (between s).Leads (between s') := by
  rcases Session.run_eq_some_iff.mp h with ⟨e, hload, -⟩ | ⟨loaded, m, c, hload, hc, rfl, -⟩
  · exact .single (.rejected hload)
  · have hran : (between s).Leads (during loaded (m.run limit)) :=
      .head (.loaded hload) (leads_run loaded m limit)
    exact hran.tail (.concluded hc)

theorem reached_of_session {s : Session} (h : s.Reached) : (between s).Reached := by
  induction h with
  | fresh output clock => exact ⟨output, clock, .refl⟩
  | run _ hrun ih =>
      obtain ⟨output, clock, hleads⟩ := ih
      exact ⟨output, clock, hleads.trans (leads_of_run hrun)⟩
  | parse _ ih =>
      obtain ⟨output, clock, hleads⟩ := ih
      exact ⟨output, clock, hleads.tail (.parse _ _)⟩
  | resetErrors _ ih =>
      obtain ⟨output, clock, hleads⟩ := ih
      exact ⟨output, clock, hleads.tail (.resetErrors _)⟩
  | host output' clock' _ ih =>
      obtain ⟨output, clock, hleads⟩ := ih
      exact ⟨output, clock, hleads.tail (.host _ output' clock')⟩

/-- The session of the moment comes about, or the machine is one that it has loaded. -/
def Arises : Moment → Prop
  | between s => s.Reached
  | during loaded m => ∃ (s : Session) (source : String) (m₀ : Machine) (n : Nat),
      s.Reached ∧ s.load source = (loaded, .ok m₀) ∧ m = m₀.run n

theorem Arises.next (h : a.Arises) (hnext : a.Next b) : b.Arises := by
  cases hnext with
  | @rejected s s' source e hload =>
      have hrun : s.run 0 source = some (s', .error e) := Session.run_of_error hload
      exact Session.Reached.run h hrun
  | loaded hload => exact ⟨_, _, _, 0, h, hload, rfl⟩
  | step loaded m =>
      obtain ⟨s, source, m₀, n, hs, hload, rfl⟩ := h
      exact ⟨s, source, m₀, n + 1, hs, hload, (Machine.run_succ_last n m₀).symm⟩
  | @concluded loaded _ c hc =>
      obtain ⟨s, source, m₀, n, hs, hload, rfl⟩ := h
      exact hs.run (Session.run_eq_some_iff.mpr (.inr ⟨loaded, m₀, c, hload, hc, rfl, rfl⟩))
  | parse s source => exact Session.Reached.parse h
  | resetErrors s => exact Session.Reached.resetErrors h
  | host s output clock => exact Session.Reached.host output clock h

theorem Leads.arises (h : a.Leads b) (ha : a.Arises) : b.Arises := by
  induction h with
  | refl => exact ha
  | tail _ hnext ih => exact ih.next hnext

theorem Reached.arises (h : a.Reached) : a.Arises := by
  obtain ⟨output, clock, hleads⟩ := h
  exact hleads.arises (.fresh output clock)

/-! ## Intact moments -/

/-- Nothing refers to what is not on the heap. -/
def Intact : Moment → Prop
  | between s => s.state.Intact []
  | during _ m => m.Intact

theorem Intact.state (h : a.Intact) : ∃ frames, a.state.Intact frames := by
  cases a with
  | between s => exact ⟨_, h⟩
  | during loaded m => exact ⟨_, Machine.Intact.state h⟩

/-- A heap with nothing on it but the scope of the top level. -/
theorem top_intact : (Heap.empty.addScope ⟨∅, none⟩).2.Intact ⟨0⟩ := by
  have hat : ∀ x, (Heap.empty.addScope ⟨∅, none⟩).2.scopeAt x = ⟨∅, none⟩ := by
    intro x
    rw [Heap.scopeAt_addScope]
    split
    · rfl
    · exact Heap.scopeAt_of_size_le _ (Nat.zero_le _)
  refine ⟨fun s t hs ht => ?_, ⟨Nat.zero_lt_one, rfl⟩, fun x hx hne => ?_, fun x y hy => ?_,
    fun c d hd => absurd (Heap.superclass_lt hd) (Nat.not_lt_zero _)⟩
  · cases s with
    | scope x =>
        have ht : ((Heap.empty.addScope ⟨∅, none⟩).2.scopeAt x).Refers t := ht
        rw [hat] at ht
        rcases ht with houter | ⟨hbound, -⟩
        · exact nomatch houter
        · simp at hbound
    | function f => exact absurd hs (Nat.not_lt_zero _)
    | classObject c => exact absurd hs (Nat.not_lt_zero _)
    | object o => exact absurd hs (Nat.not_lt_zero _)
  · exact absurd (congrArg ScopeId.mk (Nat.lt_one_iff.mp hx)) hne
  · rw [hat] at hy
    exact nomatch hy

theorem natives_intact {h : Heap} {globals : ScopeId} (hi : h.Intact globals) :
    ∀ natives : List Native,
      (natives.foldl (fun h f => h.define globals f.name (.native f)) h).Intact globals := by
  intro natives
  induction natives generalizing h with
  | nil => exact hi
  | cons f natives ih => exact ih (hi.define globals f.name (.of_none rfl))

theorem Intact.fresh (output : Sink) (clock : Clock) : (between (.fresh output clock)).Intact := by
  have hheap := natives_intact top_intact Native.all
  exact ⟨hheap, hheap.top.1, fun _ hframe => nomatch hframe⟩

theorem Intact.next (h : a.Intact) (hnext : a.Next b) : b.Intact := by
  cases hnext with
  | @rejected s s' source e hload =>
      have hs : s.state.Intact [] := h
      cases Session.Loads.of_load hload with
      | unread _ => exact hs
      | unscoped _ _ => exact ⟨hs.heap, hs.scope, hs.frames⟩
  | @loaded s loaded source m hload =>
      have hs : s.state.Intact [] := h
      cases Session.Loads.of_load hload with
      | @loaded P _ _ =>
          have hnoted : (s.noted source P).state.Intact [] := ⟨hs.heap, hs.scope, hs.frames⟩
          exact hnoted.waits rfl rfl
  | step loaded m => exact Machine.Intact.step h
  | @concluded loaded m c hc =>
      have hm : m.Intact := h
      show (loaded.conclude c m.state).1.state.Intact []
      rw [Session.conclude_state]
      exact ⟨hm.state.heap, hm.state.scope, fun _ hframe => nomatch hframe⟩
  | parse s source => exact h
  | resetErrors s => exact h
  | host s output clock =>
      have hs : s.state.Intact [] := h
      exact ⟨hs.heap, hs.scope, hs.frames⟩

theorem Reached.intact (h : a.Reached) : a.Intact := by
  obtain ⟨output, clock, hleads⟩ := h
  induction hleads with
  | refl => exact .fresh output clock
  | tail _ hnext ih => exact ih.next hnext

/-- All that can be reached is there. -/
theorem Intact.has (h : a.Intact) {t : Thing} (ht : a.Reaches t) : a.heap.Has t := by
  obtain ⟨frames, hs⟩ := h.state
  induction ht with
  | scope => exact hs.scope
  | globals => exact hs.heap.top.1
  | bound hv hthing => exact hs.heap.bound hv _ hthing
  | field hv hthing => exact hs.heap.field hv _ hthing
  | @method c name f hf => exact hs.heap.refers (.classObject c) _ (Heap.class_lt hf) (.method hf)
  | @held t ht =>
      cases a with
      | between s => exact nomatch ht
      | during loaded m =>
          have hm : m.Intact := h
          rcases List.mem_append.mp ht with hcontrol | hframes
          · exact hm.control t hcontrol
          · obtain ⟨frame, hframe, ht⟩ := List.mem_flatMap.mp hframes
            exact hm.state.frames frame hframe t ht
  | along _ hrefers ih => exact hs.heap.refers _ _ ih hrefers

/-! ## Links that stay -/

theorem Arises.keeps_next (h : a.Arises) (hnext : a.Next b) : a.heap.Keeps b.heap := by
  cases hnext with
  | @rejected s s' source e hload =>
      cases Session.Loads.of_load hload with
      | unread _ => exact .refl _
      | unscoped _ _ => exact .refl _
  | @loaded s loaded source m hload =>
      cases Session.Loads.of_load hload with
      | loaded _ _ => exact .refl _
  | step loaded m =>
      obtain ⟨s, source, m₀, n, hs, hload, rfl⟩ := h
      obtain ⟨programs, hbelongs⟩ := hs.belongs hload
      have hkeeps := Machine.Belongs.run_keeps hbelongs n 1
      rw [Machine.run_succ_last] at hkeeps
      exact hkeeps
  | @concluded loaded m c hc =>
      show m.state.heap.Keeps (loaded.conclude c m.state).1.state.heap
      rw [Session.conclude_state]
      exact .refl _
  | parse s source => exact .refl _
  | resetErrors s => exact .refl _
  | host s output clock => exact .refl _

theorem Leads.keeps (h : a.Leads b) (ha : a.Arises) : a.heap.Keeps b.heap := by
  induction h with
  | refl => exact .refl _
  | tail hleads hnext ih => exact ih.trans ((Leads.arises hleads ha).keeps_next hnext)

end Moment

/-- Whatever is on the first heap is on the second one, with the same links: a scope has the same scope around
it; a function has its declaration, its scope, and its being an initializer or not; a class has its name, its
superclass and its methods; an object has its class; and `this` and `super` are bound to what they were
bound to. -/
structure Heap.KeepsLinks (h h' : Heap) : Prop where
  things : ∀ t, h.Has t → h'.Has t
  outer : ∀ x, h.Has (.scope x) → (h'.scopeAt x).outer = (h.scopeAt x).outer
  functions : ∀ f, h.Has (.function f) → h'.functionAt f = h.functionAt f
  classes : ∀ c, h.Has (.classObject c) → h'.classAt c = h.classAt c
  ofClass : ∀ o, h.Has (.object o) → (h'.objectAt o).ofClass = (h.objectAt o).ofClass
  this : ∀ x, h.Has (.scope x) → h'.bound? x "this" = h.bound? x "this"
  super : ∀ x, h.Has (.scope x) → h'.bound? x "super" = h.bound? x "super"

theorem Heap.Keeps.links {h h' : Heap} (hk : h.Keeps h') : h.KeepsLinks h' where
  things _ ht := hk.grows.has ht
  outer _ hx := hk.grows.outer hx
  functions _ hf := hk.grows.functionAt hf
  classes _ hc := hk.grows.classAt hc
  ofClass _ ho := hk.grows.ofClass ho
  this x hx := hk.special x hx _ not_plain_this
  super x hx := hk.special x hx _ not_plain_super

/-- **The links between things are well-founded and permanent.** At every moment of a session all that can
be reached is on the heap. Every scope there leads out to that of the top level, which has none around it,
and every class there has a last superclass. So the searches for names and methods come to an end, and so
does the way to an ancestor. At all later moments what is on the heap has the same links. -/
theorem links_are_founded_and_permanent {a : Moment} (h : a.Reached) :
    (∀ t, a.Reaches t → a.heap.Has t) ∧
    (∀ x, a.heap.Has (.scope x) →
      (∃ d, a.heap.Outward d x a.state.globals) ∧
      (∀ distance, a.heap.Outward distance x (a.heap.ancestor x distance) ∨
        a.heap.ancestor x distance = a.state.globals) ∧
      ∀ name, ∃ found, a.heap.Searches name x found ∧
        a.heap.lookup? x name = found.bind (a.heap.bound? · name) ∧
        ∀ v, a.heap.assign? x name v = found.map (a.heap.define · name v)) ∧
    (a.heap.scopeAt a.state.globals).outer = none ∧
    (∀ c, a.heap.Has (.classObject c) →
      (∃ d last, a.heap.Upward d c last ∧ (a.heap.classAt last).superclass = none) ∧
      ∀ name, a.heap.SearchesMethod name c (a.heap.findMethod? c name)) ∧
    ∀ b, a.Leads b → a.heap.KeepsLinks b.heap := by
  obtain ⟨frames, hs⟩ := h.intact.state
  have hi : a.heap.Intact a.state.globals := hs.heap
  refine ⟨fun t ht => h.intact.has ht, fun x hx => ⟨hi.outward x hx, hi.ancestor hx,
    fun name => ⟨_, hi.searches name x, rfl, fun v => ?_⟩⟩, hi.top.2,
    fun c _ => ⟨hi.upward c, fun name => hi.searchesMethod name c⟩,
    fun b hb => (hb.keeps h.arises).links⟩
  unfold Heap.assign?
  cases a.heap.binder? x name <;> rfl

/-- An object has a field with one of its own methods, whose scope binds the object. The scope still leads
out to the top level, and binds the object from now on. -/
theorem links_are_founded_and_permanent_cycle :
    ∃ s : Session,
      (Session.fresh .unlimited ⟨0⟩).run 30
          "class A \x7b init() \x7b this.own = this.m; \x7d m() \x7b\x7d \x7d A();" = some (s, .ok ()) ∧
      (s.state.heap.objectAt ⟨0⟩).fields["own"]? = some (.function ⟨3⟩) ∧
      (s.state.heap.functionAt ⟨3⟩).scope = ⟨3⟩ ∧
      s.state.heap.bound? ⟨3⟩ "this" = some (.object ⟨0⟩) ∧
      (∃ d, s.state.heap.Outward d ⟨3⟩ s.state.globals) ∧
      ∀ b, (Moment.between s).Leads b → b.heap.bound? ⟨3⟩ "this" = some (.object ⟨0⟩) := by
  have hall : ((Session.fresh .unlimited ⟨0⟩).run 30
      "class A \x7b init() \x7b this.own = this.m; \x7d m() \x7b\x7d \x7d A();").map (fun answer =>
        (answer.2, (answer.1.state.heap.objectAt ⟨0⟩).fields["own"]?,
          (answer.1.state.heap.functionAt ⟨3⟩).scope, answer.1.state.heap.bound? ⟨3⟩ "this"))
      = some (.ok (), some (.function ⟨3⟩), ⟨3⟩, some (.object ⟨0⟩)) := by
    cbv
  obtain ⟨⟨s, result⟩, hrun, hfacts⟩ := Option.map_eq_some_iff.mp hall
  simp only [Prod.mk.injEq] at hfacts
  obtain ⟨rfl, hfield, hscope, hthis⟩ := hfacts
  have hreached : (Moment.between s).Reached :=
    Moment.reached_of_session ((Session.Reached.fresh .unlimited ⟨0⟩).run hrun)
  obtain ⟨hhas, hscopes, -, -, hkeeps⟩ := links_are_founded_and_permanent hreached
  -- the scope is reached by way of the field
  have hfunction : (Moment.between s).Reaches (.function ⟨3⟩) := .field hfield rfl
  have hlink : s.state.heap.Refers (.function ⟨3⟩) (.scope ⟨3⟩) := hscope ▸ .scope
  have hx := hhas _ (hfunction.along hlink)
  obtain ⟨hout, -⟩ := hscopes _ hx
  refine ⟨s, hrun, hfield, hscope, hthis, hout, fun b hb => ?_⟩
  exact ((hkeeps b hb).this _ hx).trans hthis

end Lox
