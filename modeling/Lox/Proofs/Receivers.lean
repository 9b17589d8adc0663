import Lox.Proofs.Receivers.Steps

/-!
# `this` and `super` are lexical

A use of `this` or `super` belongs to the method around it, and the scopes around its evaluation lead
out to one that the method has been bound in. There `this` is the object that it was bound to, and
around it `super` is the superclass that the class of the method was declared with. Neither the class of
the object nor its fields have a part in this, and neither have the variables that the classes were
bound to.
-/

namespace Lox

/-! ## All programs of a session -/

namespace Session

variable {s s₁ : Session} {history : History} {source : String} {m : Machine}

/-- Only programs without faults run. -/
theorem Traced.accepted (h : s.Traced history) :
    ∀ P ∈ history.programs, (Scoping.ofProgram P).faults = [] := by
  refine h.keeps (I := fun history _ => ∀ P ∈ history.programs, (Scoping.ofProgram P).faults = [])
    (fun _ _ _ hP => nomatch hP) (fun _ _ _ _ _ _ haccepted => haccepted) ?_
  intro s history source P limit c _ haccepted _ hfaults _
  exact List.forall_mem_cons.mpr ⟨hfaults, haccepted⟩

end Session

theorem Use.Among.inherited {programs : List (List Stmt)}
    (haccepted : ∀ P ∈ programs, (Scoping.ofProgram P).faults = []) (u : Use) (site : Site)
    (hu : Use.Among programs u site) (hkind : u.kind = .super) : site.InheritedMethod := by
  obtain ⟨P, hP, hmem⟩ := hu
  have htop : (Scoping.Context.mk .none .none).inClass.Inherits [] := nofun
  exact Scoping.ofStmts_inherited P htop (haccepted P hP) (u, site) hmem hkind

namespace Session

variable {s s₁ : Session} {history : History} {source : String} {P : List Stmt} {m : Machine}

theorem Traced.lexical_run {limit : Nat} (h : s.Traced history)
    (hlexical : (s.state.world history.labels).Lexical)
    (hread : (Source.read source s.nextId).result = .ok P)
    (hfaults : (Scoping.ofProgram P).faults = []) :
    (((Machine.ofProgram P (s.noted source P).state).run limit).state.world
      (history.labels ++ (Machine.ofProgram P (s.noted source P).state).openedIn limit)).Lexical := by
  obtain ⟨M, hsettled⟩ := h.reached.settled
  obtain ⟨hfits, hplaces⟩ := h.follows.loaded hsettled hread hfaults
  have haccepted : ∀ Q ∈ P :: history.programs, (Scoping.ofProgram Q).faults = [] :=
    List.forall_mem_cons.mpr ⟨hfaults, h.accepted⟩
  exact Machine.lexical_run (Use.Among.inherited haccepted) (Use.Among.spelled hplaces) limit hfits
    (h.flows hread hfaults 0) hlexical

theorem Traced.lexical (h : s.Traced history) : (s.state.world history.labels).Lexical := by
  refine h.keeps (I := fun history st => (st.world history.labels).Lexical) ?_ ?_ ?_
  · intro output clock
    refine ⟨fun c name f hf => ?_, fun x method hx => ?_⟩
    · have hclasses : (State.initial output clock).heap.classes = #[] := rfl
      have hf : ((State.initial output clock).heap.classAt c).methods[name]? = some f := hf
      rw [Heap.classAt, hclasses] at hf
      simp at hf
    · have hx : [Region.top][x.index]? = some (.receiver method) := hx
      cases hindex : x.index with
      | zero =>
          rw [hindex] at hx
          cases hx
      | succ i =>
          rw [hindex] at hx
          cases hx
  · intro history st st' hheap hglobals _ hlexical
    have hworld : st'.world history.labels = st.world history.labels := by
      rw [State.world, State.world, hheap, hglobals]
    rw [hworld]
    exact hlexical
  · exact fun s history source P limit c hs hlexical hread hfaults _ =>
      hs.lexical_run hlexical hread hfaults

end Session

/-! ## Uses in methods -/

/-- The next use is one in this method of the class, which was bound to this object: it belongs to the
method, and its scopes lead out to the one that the method was bound in. -/
structure State.InMethod (st : State) (u : Use) (c : ClassId) (method : FunctionId) (o : ObjectId) :
    Prop where
  ofClass : ∃ name : String, (st.heap.classAt c).methods[name]? = some method
  bound : ∃ g depth, st.heap.IsBound method o g ∧
    (u, depth) ∈ (st.heap.functionAt method).declared.ownUses 0 ∧
    st.heap.Outward depth st.scope (st.heap.functionAt g).scope

namespace Machine

variable {s : Session} {programs : List (List Stmt)} {labels : List Region} {m : Machine} {u : Use}

/-- A use of `this` or `super` stands in a method, and its address leads to the scope of the method or
to the one around it. -/
structure Stands (programs : List (List Stmt)) (labels : List Region) (m : Machine) (u : Use)
    (site : Site) (depth : Nat) (method : Function) : Prop where
  among : Use.Among programs u site
  scope : (m.state.world labels).Realises m.state.scope site
  inMethod : site.InMethod depth method
  this : u.kind = .this →
    u.name = "this" ∧ m.state.addresses[u.reference.id]? = some depth
  super : u.kind = .super → m.state.addresses[u.reference.id]? = some (depth + 1)

theorem Belongs.stands (h : m.Belongs s programs) (hfits : m.Fits (Use.Among programs) labels)
    (haccepted : ∀ P ∈ programs, (Scoping.ofProgram P).faults = []) (hu : m.Evaluates u)
    (hkind : u.kind = .this ∨ u.kind = .super) :
    ∃ site depth method, m.Stands programs labels u site depth method := by
  obtain ⟨site, hamong, hscope⟩ := hfits.exists_site hu
  obtain ⟨P, hP, hmem⟩ := id hamong
  have hplace := h.places P hP _ hmem
  have hspelled : u.Spelled := hplace.spelled
  have haddress : m.state.addresses[u.reference.id]? = Scoping.addressOf? site.scopes u.name := by
    rw [h.addresses]
    exact hplace.address
  unfold Use.Spelled at hspelled
  rcases hkind with hkind | hkind
  · rw [hkind] at hspelled
    obtain ⟨distance, hdistance⟩ := Option.isSome_iff_exists.mp (hplace.located.this hkind)
    obtain ⟨method, hmethod⟩ := hplace.used.this_inMethod hdistance
    rw [hspelled] at haddress
    exact ⟨site, distance, method, hamong, hscope, hmethod,
      fun _ => ⟨hspelled, haddress.trans hdistance⟩,
      fun hsuper => nomatch hkind.symm.trans hsuper⟩
  · rw [hkind] at hspelled
    obtain ⟨distance, hdistance⟩ := Option.isSome_iff_exists.mp (hplace.located.super hkind)
    obtain ⟨depth, method, hmethod, rfl⟩ := hplace.used.super_inMethod
      (Use.Among.inherited haccepted u site hamong hkind) hdistance
    rw [hspelled] at haddress
    exact ⟨site, depth, method, hamong, hscope, hmethod,
      fun hthis => (nomatch hkind.symm.trans hthis), fun _ => haddress.trans hdistance⟩

/-- **Every use of `this` or `super` is one in a method that was bound.** -/
theorem Stands.exists_method {site : Site} {depth : Nat} {declared : Function}
    (h : m.Stands programs labels u site depth declared)
    (hlexical : (m.state.world labels).Lexical) : ∃ c method o, m.state.InMethod u c method o := by
  obtain ⟨P, -, hmem⟩ := h.among
  have hown : (u, depth) ∈ declared.ownUses 0 := by
    rcases Stmt.usesAll_owned P (u, site) hmem depth declared h.inMethod with hown | ⟨k, hk, -⟩
    · exact hown
    · -- there is no method around a program
      exact nomatch hk.region
  obtain ⟨x, hx, hlabel⟩ := h.scope.stands.outward h.inMethod.region
  obtain ⟨c, name, method, o, g, hmethod, rfl, hbound, rfl⟩ := hlexical.receivers x declared hlabel
  exact ⟨c, method, o, ⟨name, hmethod⟩, g, depth, hbound, hown, hx⟩

/-- A use that belongs to a method stands in it, and nowhere else. -/
theorem Stands.depth_eq {site : Site} {depth depth' : Nat} {declared : Function}
    (h : m.Stands programs labels u site depth declared) (hbelongs : m.Belongs s programs)
    (hfits : m.Fits (Use.Among programs) labels) {c : ClassId} {name : String} {method : FunctionId}
    (hmethod : (m.state.heap.classAt c).methods[name]? = some method)
    (hown : (u, depth') ∈ (m.state.heap.functionAt method).declared.ownUses 0) :
    depth = depth' := by
  obtain ⟨-, around, -, hfit⟩ := hfits.sound.methods c name method hmethod
  have hwithin : Use.Within _ (around.inReceiver (m.state.heap.functionAt method).declared) 0
      (u, depth') := Function.own_within _ _ hown
  obtain ⟨site', hmem, hin, -⟩ := hwithin.inMethod (.receiver _ _)
  obtain rfl := hbelongs.unique u site site' h.among (hfit.uses _ hmem)
  exact (h.inMethod.unique hin).1

/-- **`this` is the object that the method was bound to.** -/
theorem Stands.this_value {site : Site} {depth : Nat} {declared : Function}
    (h : m.Stands programs labels u site depth declared) (hbelongs : m.Belongs s programs)
    (hfits : m.Fits (Use.Among programs) labels) {c : ClassId} {method : FunctionId} {o : ObjectId}
    (hmethod : m.state.InMethod u c method o) (hu : m.Evaluates u) (hkind : u.kind = .this) :
    m.step = ⟨.complete (.normal (.object o)), m.frames, m.state⟩ := by
  obtain ⟨⟨name, hentry⟩, g, depth', hbound, hown, hscope⟩ := hmethod
  -- the address of `this` leads as far as the scope that the method was bound in
  obtain rfl := h.depth_eq hbelongs hfits hentry hown
  obtain ⟨hname, haddress⟩ := h.this hkind
  cases hu with
  | this use frames st =>
      have hvalue : st.lookup? use = some (.object o) := by
        rw [lookup?_of_address haddress hscope]
        have hname : use.name.lexeme = "this" := hname
        rw [hname]
        exact hbound.this
      show evaluate (.this use) frames st = _
      simp only [evaluate, hvalue]
  | _ => cases hkind

/-- **`super` looks for the method in the superclass that the class was declared with, and binds it to
the object of the method around.** -/
theorem Stands.super_value {site : Site} {depth : Nat} {declared : Function}
    (h : m.Stands programs labels u site depth declared) (hbelongs : m.Belongs s programs)
    (hfits : m.Fits (Use.Among programs) labels) (hlexical : (m.state.world labels).Lexical)
    {c : ClassId} {method : FunctionId} {o : ObjectId} (hmethod : m.state.InMethod u c method o)
    {use : Reference} {name : Token} (hcontrol : m.control = .eval (.super use name))
    (hu : m.use? = some u) :
    ∃ parent, (m.state.heap.classAt c).superclass = some parent ∧
      m.step =
        match m.state.heap.findMethod? parent name.lexeme with
        | some found => ⟨.complete (.normal (.function ⟨m.state.heap.functions.size⟩)), m.frames,
            { m.state with heap := (m.state.heap.bindMethod found o).2 }⟩
        | none => ⟨.complete (.faultAt name (.undefinedProperty name.lexeme)), m.frames, m.state⟩ := by
  obtain ⟨⟨entry, hentry⟩, g, depth', hbound, hown, hscope⟩ := hmethod
  obtain rfl := h.depth_eq hbelongs hfits hentry hown
  obtain ⟨-, hinherits⟩ := hlexical.classes c entry method hentry
  obtain ⟨control, frames, st⟩ := m
  dsimp only at hcontrol
  subst hcontrol
  cases hu
  have haddress := h.super rfl
  dsimp only at hscope hbound hentry hown haddress ⊢
  unfold Heap.Inherits at hinherits
  dsimp only [State.world] at hinherits
  cases hsuperclass : (st.heap.classAt c).superclass with
  | none =>
      -- the methods of such a class do not use `super`
      rw [hsuperclass] at hinherits
      exact absurd rfl (hinherits _ hown)
  | some parent =>
      rw [hsuperclass] at hinherits
      -- `super` is bound right around the scope of `this`
      have hsuper : st.heap.lookupAt? st.scope (depth + 1) "super" = some (.classObject parent) := by
        rw [Heap.lookupAt?, (hscope.snoc hbound.outer).ancestor]
        exact hinherits
      have hthis : st.heap.lookupAt? st.scope (depth + 1 - 1) "this" = some (.object o) := by
        rw [Heap.lookupAt?, Nat.add_sub_cancel, hscope.ancestor]
        exact hbound.this
      refine ⟨parent, rfl, ?_⟩
      show (⟨.complete (superMethod st use name).1, frames, (superMethod st use name).2⟩ : Machine) = _
      rw [superMethod_of_bound haddress hsuper hthis]
      cases st.heap.findMethod? parent name.lexeme <;> rfl

end Machine

/-! ## Scopes inside scopes -/

/-- Classes and functions stay what they are, and scopes stay where they are. -/
structure Heap.LastsIn (h h' : Heap) : Prop where
  classes : ∀ c : ClassId, c.index < h.classes.size → h'.classAt c = h.classAt c
  functions : ∀ f : FunctionId, f.index < h.functions.size → h'.functionAt f = h.functionAt f
  scopes : ∀ d x y, h.Outward d x y → h'.Outward d x y

theorem Heap.Grows.lastsIn {h h' : Heap} (hg : h.Grows h') : h.LastsIn h' := by
  refine ⟨fun _ => hg.classAt, fun _ => hg.functionAt, fun d x y hxy => ?_⟩
  induction hxy with
  | zero x => exact .zero x
  | succ houter _ ih => exact .succ (hg.outer_some houter) ih

namespace Machine

variable {m : Machine}

/-- The next step goes into a new scope inside this one, for a block or for the body of a function. -/
inductive GoesInto (m : Machine) : ScopeId → Prop where
  | block {body : List Stmt} : m.control = .exec (.block body) → GoesInto m m.state.scope
  | call {f : Closure} {result : CallResult} : m.Enters f result → GoesInto m f.scope

theorem GoesInto.step {x : ScopeId} (h : m.GoesInto x) :
    m.step.state.heap.Outward 1 m.step.state.scope x := by
  cases h with
  | @block body hcontrol =>
      obtain ⟨control, frames, st⟩ := m
      dsimp only at hcontrol
      subst hcontrol
      refine .succ ?_ (.zero _)
      exact congrArg Scope.outer ((st.heap.scopeAt_addScope _ _).trans (if_pos rfl))
  | @call f result henters =>
      obtain ⟨st, args, hstep, -⟩ := henters.step_eq
      rw [hstep]
      have houter : ((st.heap.addInnerScope f.scope).2.scopeAt ⟨st.heap.scopes.size⟩).outer
          = some f.scope :=
        congrArg Scope.outer ((st.heap.scopeAt_addScope _ _).trans (if_pos rfl))
      -- the parameters are bound after that
      exact .succ ((Heap.Grows.bindParams _ f.declared.params args _).outer_some houter) (.zero _)

theorem step_functionDecl {declared : Function}
    (hcontrol : m.control = .exec (.functionDecl declared)) :
    m.step.state.heap.functionAt ⟨m.state.heap.functions.size⟩
      = ⟨declared, m.state.scope, false⟩ := by
  obtain ⟨control, frames, st⟩ := m
  dsimp only at hcontrol
  subst hcontrol
  exact (st.heap.functionAt_addFunction _ _).trans (if_pos rfl)

end Machine

/-! ## What comes later -/

namespace Machine

variable {s : Session} {programs : List (List Stmt)} {m : Machine}

theorem Belongs.run_keeps (h : ∀ n, (m.run n).Belongs s programs) (n k : Nat) :
    (m.run n).state.heap.Keeps (m.run (n + k)).state.heap := by
  induction k with
  | zero => exact .refl _
  | succ k ih =>
      obtain ⟨labels, hfits⟩ := (h (n + k)).fits
      rw [Nat.add_succ, run_succ_last]
      exact ih.trans (hfits.step_keeps (Session.Use.Among.spelled (h (n + k)).places))

end Machine

namespace Session

/-- The session comes about from an earlier one. -/
inductive Continues (s : Session) : Session → Prop where
  | refl : Continues s s
  | run {s' s'' : Session} {limit : Nat} {source : String} {result : Except RunError Unit} :
      Continues s s' → s'.run limit source = some (s'', result) → Continues s s''
  | parse {s' : Session} (source : String) : Continues s s' → Continues s (s'.parse source).2
  | resetErrors {s' : Session} : Continues s s' → Continues s s'.resetErrors
  | host {s' : Session} (output : Sink) (clock : Clock) :
      Continues s s' → Continues s { s' with state := { s'.state with output, clock } }

/-- The states that a machine comes to, and those that programs come to that the session runs after
this one has ended. -/
inductive Later (s₁ : Session) (m : Machine) : State → Prop where
  | during (k : Nat) : Later s₁ m (m.run k).state
  | afterwards {limit : Nat} {c : Completion} {s' s₂ : Session} {source : String} {m' : Machine}
      (k : Nat) : (m.run limit).result? = some c →
      (s₁.conclude c (m.run limit).state).1.Continues s' → s'.load source = (s₂, .ok m') →
      Later s₁ m (m'.run k).state

variable {s s' s₁ : Session} {source : String} {m : Machine}

theorem Reached.run_keeps (h : s.Reached) (hload : s.load source = (s₁, .ok m)) (k : Nat) :
    s.state.heap.Keeps (m.run k).state.heap := by
  obtain ⟨programs, hbelongs⟩ := h.belongs hload
  have hkeeps := Machine.Belongs.run_keeps hbelongs 0 k
  cases Loads.of_load hload with
  | loaded _ _ =>
      rw [Nat.zero_add] at hkeeps
      exact hkeeps

/-- **What a program leaves behind is kept by all that come after it.** -/
theorem Continues.keeps (h : s.Reached) (hs : s.Continues s') :
    s'.Reached ∧ s.state.heap.Keeps s'.state.heap := by
  induction hs with
  | refl => exact ⟨h, .refl _⟩
  | @run s' s'' limit source result _ hrun ih =>
      obtain ⟨hreached, hkeeps⟩ := ih
      refine ⟨hreached.run hrun, ?_⟩
      rcases run_eq_some_iff.mp hrun with ⟨e, hload, -⟩ | ⟨s₁, m, c, hload, -, rfl, -⟩
      · cases Loads.of_load hload with
        | unread _ => exact hkeeps
        | unscoped _ _ => exact hkeeps
      · rw [conclude_state]
        exact hkeeps.trans (hreached.run_keeps hload limit)
  | parse source _ ih => exact ⟨ih.1.parse, ih.2⟩
  | resetErrors _ ih => exact ⟨ih.1.resetErrors, ih.2⟩
  | host output clock _ ih => exact ⟨ih.1.host output clock, ih.2⟩

theorem Later.keeps (h : s.Reached) (hload : s.load source = (s₁, .ok m)) {n : Nat} {st : State}
    (hst : s₁.Later (m.run n) st) : (m.run n).state.heap.Keeps st.heap := by
  obtain ⟨programs, hbelongs⟩ := h.belongs hload
  cases hst with
  | during k =>
      rw [← Machine.run_add]
      exact Machine.Belongs.run_keeps hbelongs n k
  | @afterwards limit c s' s₂ source' m' k hc hcontinues hload' =>
      rw [← Machine.run_add] at hc hcontinues
      have hended := Machine.Belongs.run_keeps hbelongs n limit
      have hran : (s₁.conclude c (m.run (n + limit)).state).1.Reached :=
        h.run (run_eq_some_iff.mpr (.inr ⟨s₁, m, c, hload, hc, rfl, rfl⟩))
      obtain ⟨hreached, hkeeps⟩ := hcontinues.keeps hran
      rw [conclude_state] at hkeeps
      exact (hended.trans hkeeps).trans (hreached.run_keeps hload' k)

theorem Reached.lexical (h : s.Reached) (hload : s.load source = (s₁, .ok m)) (n : Nat) :
    ∃ programs labels, (m.run n).Belongs s₁ programs ∧
      (m.run n).Fits (Use.Among programs) labels ∧ ((m.run n).state.world labels).Lexical ∧
      ∀ P ∈ programs, (Scoping.ofProgram P).faults = [] := by
  obtain ⟨history, hs⟩ := h.traced
  obtain ⟨M, hsettled⟩ := h.settled
  cases Loads.of_load hload with
  | loaded hread hfaults =>
      obtain ⟨hfits, hplaces⟩ := hs.follows.loaded hsettled hread hfaults
      exact ⟨_, _, hs.belongs hread hfaults n, hfits.run (Use.Among.spelled hplaces) n,
        hs.lexical_run hs.lexical hread hfaults,
        List.forall_mem_cons.mpr ⟨hfaults, hs.accepted⟩⟩

/-- **`this` and `super` are lexical.** A class keeps its superclass and its methods, and a method that
is bound to an object stays bound to it, in the program and in all that come after it. The body of a
function is executed in a scope inside the one that the function was declared or bound in, and scopes
stay where they are. Every use of `this` or `super` belongs to a method that was bound: `this` is the
object that it was bound to, and `super` looks for its method in the superclass that the class of the
method was declared with, and binds it to this object. -/
theorem this_and_super_are_lexical (h : s.Reached) (hload : s.load source = (s₁, .ok m)) (n : Nat) :
    (∀ superclass methods, (m.run n).makesClass? = some (superclass, methods) →
      ∀ st, s₁.Later (m.run (n + 1)) st →
        st.heap.HasClass ⟨(m.run n).state.heap.classes.size⟩ superclass methods) ∧
    (∀ method o, (m.run n).BindsMethod method o →
      ((m.run n).step.control
          = .complete (.normal (.function ⟨(m.run n).state.heap.functions.size⟩)) ∨
        (m.run n).Enters { (m.run n).state.heap.functionAt method with
          scope := ⟨(m.run n).state.heap.scopes.size⟩ } (.constructed o)) ∧
      ∀ st, s₁.Later (m.run (n + 1)) st →
        st.heap.IsBound method o ⟨(m.run n).state.heap.functions.size⟩ ∧
        (st.heap.functionAt ⟨(m.run n).state.heap.functions.size⟩).scope
          = ⟨(m.run n).state.heap.scopes.size⟩) ∧
    (∀ declared, (m.run n).control = .exec (.functionDecl declared) →
      (m.run n).step.state.heap.functionAt ⟨(m.run n).state.heap.functions.size⟩
        = ⟨declared, (m.run n).state.scope, false⟩) ∧
    (∀ x, (m.run n).GoesInto x →
      (m.run n).step.state.heap.Outward 1 (m.run n).step.state.scope x) ∧
    (∀ st, s₁.Later (m.run n) st → (m.run n).state.heap.LastsIn st.heap) ∧
    ∀ u, (m.run n).use? = some u → u.kind = .this ∨ u.kind = .super →
      (∃ c method o, (m.run n).state.InMethod u c method o) ∧
      ∀ c method o, (m.run n).state.InMethod u c method o →
        (u.kind = .this →
          (m.run n).step = ⟨.complete (.normal (.object o)), (m.run n).frames, (m.run n).state⟩) ∧
        ∀ use name, (m.run n).control = .eval (.super use name) →
          ∃ parent, ((m.run n).state.heap.classAt c).superclass = some parent ∧
            (m.run n).step =
              match (m.run n).state.heap.findMethod? parent name.lexeme with
              | some found =>
                ⟨.complete (.normal (.function ⟨(m.run n).state.heap.functions.size⟩)),
                  (m.run n).frames,
                  { (m.run n).state with heap := ((m.run n).state.heap.bindMethod found o).2 }⟩
              | none => ⟨.complete (.faultAt name (.undefinedProperty name.lexeme)),
                  (m.run n).frames, (m.run n).state⟩ := by
  obtain ⟨programs, labels, hbelongs, hfits, hlexical, haccepted⟩ := h.lexical hload n
  -- what the step makes is kept by all that comes later
  have hlater (st : State) (hst : s₁.Later (m.run (n + 1)) st) :
      (m.run n).step.state.heap.Keeps st.heap := by
    rw [← Machine.run_succ_last]
    exact hst.keeps h hload
  refine ⟨fun superclass methods hmakes st hst => ?_, fun method o hbinds => ⟨?_, fun st hst => ?_⟩,
    fun declared => Machine.step_functionDecl, fun x hx => hx.step,
    fun st hst => (hst.keeps h hload).grows.lastsIn, fun u hu hkind => ?_⟩
  · obtain ⟨t, ht, hstate⟩ := Machine.step_of_makesClass hmakes
    obtain ⟨-, hclass, -⟩ := Machine.declareClass_class (m.run n).state (hfits.declaring_plain ht)
      superclass fun hnone =>
        hbelongs.flows.no_super (Use.Among.inherited haccepted) (hnone ▸ hmakes)
    rw [← hstate] at hclass
    exact hclass.keeps (hlater st hst)
  · rcases hbinds.step_cases with ⟨hcontrol, -⟩ | ⟨henters, -⟩
    · exact .inl hcontrol
    · exact .inr henters
  · obtain ⟨c, name, hmethod⟩ := hbinds.exists_class
    obtain ⟨hlt, -⟩ := hlexical.classes c name method hmethod
    obtain ⟨hbound, hscope⟩ := hbinds.step hlt
    have hkeeps := hlater st hst
    exact ⟨hbound.keeps hkeeps,
      (congrArg Closure.scope (hkeeps.grows.functionAt hbound.index)).trans hscope⟩
  · have hevaluates := Machine.evaluates hu
    obtain ⟨site, depth, declared, hstands⟩ := hbelongs.stands hfits haccepted hevaluates hkind
    refine ⟨hstands.exists_method hlexical, fun c method o hmethod => ⟨fun hthis => ?_,
      fun use name hcontrol => ?_⟩⟩
    · exact hstands.this_value hbelongs hfits hmethod hevaluates hthis
    · exact hstands.super_value hbelongs hfits hlexical hmethod hcontrol hu

set_option maxRecDepth 4000 in
/-- The program of the case below, up to the use of `super`. -/
theorem run_forgotten :
    ∃ (s₁ : Session) (m : Machine) (property name : Token) (frames : List Frame),
      (fresh .unlimited ⟨0⟩).load
        "class A \x7b m() \x7b\x7d \x7d class B < A \x7b m() \x7b fun f() \x7b return super.m; \x7d A = nil; return f; \x7d \x7d class C < B \x7b\x7d C().m()();"
        = (s₁, .ok m) ∧
      ((m.run 18).control = .complete (.normal (.object ⟨0⟩)) ∧
        (m.run 18).frames = .get property :: frames ∧
        ((m.run 18).state.heap.objectAt ⟨0⟩).ofClass = ⟨2⟩ ∧
        ((m.run 18).state.heap.objectAt ⟨0⟩).fields[property.lexeme]? = none ∧
        (m.run 18).state.heap.findMethod? ⟨2⟩ property.lexeme = some ⟨1⟩ ∧
        (m.run 18).state.heap.functions.size = 2) ∧
      (m.run 36).control = .eval (.super ⟨1, ⟨.keyword .superWord, "super", 1⟩⟩ name) ∧
      ((m.run 36).state.heap.classAt ⟨1⟩).methods["m"]? = some ⟨1⟩ ∧
      ((m.run 36).state.heap.classAt ⟨1⟩).superclass = some ⟨0⟩ ∧
      (((m.run 36).state.heap.functionAt ⟨1⟩).declared.ownUses 0)[0]?
        = some (⟨.super, ⟨1, ⟨.keyword .superWord, "super", 1⟩⟩⟩, 2) ∧
      ((m.run 36).state.heap.scopeAt (m.run 36).state.scope).outer = some ⟨4⟩ ∧
      ((m.run 36).state.heap.scopeAt ⟨4⟩).outer = some ⟨3⟩ ∧
      ((m.run 36).state.heap.functionAt ⟨2⟩).scope = ⟨3⟩ ∧
      (m.run 36).state.heap.findMethod? ⟨0⟩ name.lexeme = some ⟨0⟩ ∧
      (m.run 36).state.heap.functions.size = 4 ∧
      (m.run 36).state.heap.bound? (m.run 36).state.globals "A" = some .nil := by
  have hall : ((fresh .unlimited ⟨0⟩).load
      "class A \x7b m() \x7b\x7d \x7d class B < A \x7b m() \x7b fun f() \x7b return super.m; \x7d A = nil; return f; \x7d \x7d class C < B \x7b\x7d C().m()();").2.toOption.map
      (fun m => ((m.run 18).control, (m.run 18).frames.head?, (m.run 36).control,
        ((m.run 18).state.heap.objectAt ⟨0⟩).ofClass,
        ((m.run 18).state.heap.objectAt ⟨0⟩).fields["m"]?,
        (m.run 18).state.heap.findMethod? ⟨2⟩ "m",
        (m.run 18).state.heap.functions.size,
        ((m.run 36).state.heap.classAt ⟨1⟩).methods["m"]?,
        ((m.run 36).state.heap.classAt ⟨1⟩).superclass,
        (((m.run 36).state.heap.functionAt ⟨1⟩).declared.ownUses 0)[0]?,
        ((m.run 36).state.heap.scopeAt (m.run 36).state.scope).outer,
        ((m.run 36).state.heap.scopeAt ⟨4⟩).outer,
        ((m.run 36).state.heap.functionAt ⟨2⟩).scope,
        (m.run 36).state.heap.findMethod? ⟨0⟩ "m",
        (m.run 36).state.heap.functions.size,
        (m.run 36).state.heap.bound? (m.run 36).state.globals "A"))
      = some (.complete (.normal (.object ⟨0⟩)), some (.get ⟨.identifier, "m", 1⟩),
          .eval (.super ⟨1, ⟨.keyword .superWord, "super", 1⟩⟩ ⟨.identifier, "m", 1⟩),
          ⟨2⟩, none, some ⟨1⟩, 2, some ⟨1⟩, some ⟨0⟩,
          some (⟨.super, ⟨1, ⟨.keyword .superWord, "super", 1⟩⟩⟩, 2), some ⟨4⟩, some ⟨3⟩,
          ⟨3⟩, some ⟨0⟩, 4, some .nil) := by
    cbv
  rcases hload : (fresh .unlimited ⟨0⟩).load
      "class A \x7b m() \x7b\x7d \x7d class B < A \x7b m() \x7b fun f() \x7b return super.m; \x7d A = nil; return f; \x7d \x7d class C < B \x7b\x7d C().m()();"
      with ⟨s₁, e | m⟩
  · rw [hload] at hall
    cases hall
  · rw [hload] at hall
    simp only [Except.toOption, Option.map_some, Option.some.injEq, Prod.mk.injEq] at hall
    obtain ⟨hcontrol, hhead, hcontrol', hclass, hfield, hfound, hsize, hentry, hsuperclass, hown,
      houter, houter', hscope, hfound', hsize', hglobal⟩ := hall
    obtain ⟨frames, hframes⟩ := List.head?_eq_some_iff.mp hhead
    exact ⟨s₁, m, _, _, frames, rfl, ⟨hcontrol, hframes, hclass, hfield, hfound, hsize⟩,
      hcontrol', hentry, hsuperclass, hown, houter, houter', hscope, hfound', hsize', hglobal⟩

/-- The method of `B` is bound to an object of `C` and gives away a function that uses `super`. When
the function is called, the variable `A` is `nil`; `super.m` is still the method of the class that `A`
was, for the same object. -/
theorem this_and_super_are_lexical_forgotten :
    ∃ (s₁ : Session) (m : Machine) (use : Reference) (name : Token),
      (fresh .unlimited ⟨0⟩).load
        "class A \x7b m() \x7b\x7d \x7d class B < A \x7b m() \x7b fun f() \x7b return super.m; \x7d A = nil; return f; \x7d \x7d class C < B \x7b\x7d C().m()();"
        = (s₁, .ok m) ∧
      (m.run 18).BindsMethod ⟨1⟩ ⟨0⟩ ∧
      ((m.run 18).state.heap.objectAt ⟨0⟩).ofClass = ⟨2⟩ ∧
      (m.run 36).control = .eval (.super use name) ∧
      (m.run 36).state.InMethod ⟨.super, use⟩ ⟨1⟩ ⟨1⟩ ⟨0⟩ ∧
      (m.run 36).state.heap.bound? (m.run 36).state.globals "A" = some .nil ∧
      (m.run 36).step = ⟨.complete (.normal (.function ⟨4⟩)), (m.run 36).frames,
        { (m.run 36).state with heap := ((m.run 36).state.heap.bindMethod ⟨0⟩ ⟨0⟩).2 }⟩ := by
  obtain ⟨s₁, m, property, name, frames, hload, ⟨hcontrol, hframes, hclass, hfield, hfound, hsize⟩,
    hcontrol', hentry, hsuperclass, hown, houter, houter', hscope, hfound', hsize', hglobal⟩ :=
    run_forgotten
  have hbinds : (m.run 18).BindsMethod ⟨1⟩ ⟨0⟩ := by
    refine .property hcontrol hframes hfield ?_
    rw [hclass]
    exact hfound
  obtain ⟨-, hbound, -⟩ := this_and_super_are_lexical (.fresh .unlimited ⟨0⟩) hload 18
  obtain ⟨-, hbound⟩ := hbound _ _ hbinds
  -- the method is still bound to the object when its function is called
  have hlater : s₁.Later (m.run 19) (m.run 36).state := by
    have h : s₁.Later (m.run 19) ((m.run 19).run 17).state := .during 17
    rw [← Machine.run_add] at h
    exact h
  obtain ⟨hbound, -⟩ := hbound _ hlater
  rw [hsize] at hbound
  have hmethod : (m.run 36).state.InMethod
      ⟨.super, ⟨1, ⟨.keyword .superWord, "super", 1⟩⟩⟩ ⟨1⟩ ⟨1⟩ ⟨0⟩ := by
    refine ⟨⟨"m", hentry⟩, ⟨2⟩, 2, hbound, List.mem_of_getElem? hown, ?_⟩
    rw [hscope]
    exact .succ houter (.succ houter' (.zero _))
  obtain ⟨-, -, -, -, -, huses⟩ :=
    this_and_super_are_lexical (.fresh .unlimited ⟨0⟩) hload 36
  have huse : (m.run 36).use? = some ⟨.super, ⟨1, ⟨.keyword .superWord, "super", 1⟩⟩⟩ := by
    rw [Machine.use?, hcontrol']
  obtain ⟨-, hvalues⟩ := huses _ huse (.inr rfl)
  obtain ⟨-, hvalue⟩ := hvalues _ _ _ hmethod
  obtain ⟨parent, hparent, hstep⟩ := hvalue _ _ hcontrol'
  obtain rfl := Option.some.inj (hsuperclass.symm.trans hparent)
  rw [hfound', hsize'] at hstep
  exact ⟨s₁, m, _, name, hload, hbinds, hclass, hcontrol', hmethod, hglobal, hstep⟩

end Session

end Lox
