import Lox.Proofs.Scopes.Standing

/-!
# Scopes that a run makes

Every step of a machine that fits leads to one that fits, if the scopes that the step adds are
labelled with the regions that it goes into. From this a whole run is labelled.
-/

namespace Lox

namespace Machine

/-! ## The regions of new scopes -/

/-- The regions that the next step goes into, if nothing is in the way. -/
def opening (m : Machine) : List Region :=
  match m.control, m.frames with
  | .exec (.block body), _ => [.block body]
  | .eval (.super _ _), _ => m.step.boundRegion
  | .complete (.normal _), .get _ :: _ => m.step.boundRegion
  | .complete (.normal _), .superclass _ _ methods :: _ => [.parent methods]
  | .complete (.normal callee), .callee _ [] :: _ => entered m.state.heap callee
  | .complete (.normal _), .argument callee _ _ [] :: _ => entered m.state.heap callee
  | _, _ => []

/-- The regions that the next step makes scopes for, in the order in which it adds them to the heap.
-/
def opened (m : Machine) : List Region :=
  if m.step.state.heap.scopes.size = m.state.heap.scopes.size then [] else m.opening

/-- The regions that a run makes scopes for. -/
def openedIn : (limit : Nat) → Machine → List Region
  | 0, _ => []
  | limit + 1, m => m.opened ++ m.step.openedIn limit

variable {Good : Use → Site → Prop} {labels : List Region}

/-- Whether a step has gone into the regions shows in the number of scopes. -/
theorem Fits.opened {m : Machine} (h : m.Fits Good labels)
    (hstep : m.step.Fits Good labels ∨ m.step.Fits Good (labels ++ m.opening)) :
    m.step.Fits Good (labels ++ m.opened) := by
  have hlength : labels.length = m.state.heap.scopes.size := h.sound.length
  rcases hstep with hstep | hstep
  · have hlength' : labels.length = m.step.state.heap.scopes.size := hstep.sound.length
    rw [Machine.opened, if_pos (by omega), List.append_nil]
    exact hstep
  · have hlength' : (labels ++ m.opening).length = m.step.state.heap.scopes.size :=
      hstep.sound.length
    rw [List.length_append] at hlength'
    rw [Machine.opened]
    split
    · have hnil : m.opening = [] := List.eq_nil_of_length_eq_zero (by omega)
      rwa [hnil] at hstep
    · exact hstep

end Machine

namespace State.StandsAt

variable {Good : Use → Site → Prop} {labels : List Region} {st : State} {site : Site}
  {frames : List Frame}

/-! ## Expressions -/

theorem lookup_holds (h : st.StandsAt Good labels site frames) {use : Reference} {v : Value}
    (hv : st.lookup? use = some v) : (st.world labels).Holds Good v := by
  obtain ⟨x, hx⟩ := State.bound_of_lookup? hv
  exact h.sound.values x _ v hx

theorem evaluate_fits (h : st.StandsAt Good labels site frames) {e : Expr} (he : e.Fits Good site) :
    (Machine.evaluate e frames st).Fits Good labels ∨
      (Machine.evaluate e frames st).Fits Good
        (labels ++ Machine.opening ⟨.eval e, frames, st⟩) := by
  cases e with
  | literal value => cases value <;> exact .inl (h.plain nofun)
  | unary operator operand =>
      exact .inl ((h.push (.unary operator)).eval he)
  | binary left operator right =>
      have hright : right.Fits Good site := fun u hu => he u (List.mem_append_right _ hu)
      exact .inl ((h.push (.binaryLeft operator hright)).eval fun u hu =>
        he u (List.mem_append_left _ hu))
  | logical left operator right =>
      have hright : right.Fits Good site := fun u hu => he u (List.mem_append_right _ hu)
      exact .inl ((h.push (.logical operator hright)).eval fun u hu =>
        he u (List.mem_append_left _ hu))
  | grouping inner => exact .inl (h.eval he)
  | ident use =>
      refine .inl ?_
      simp only [Machine.evaluate]
      split
      · next v hv => exact h.normal (h.lookup_holds hv)
      · exact h.raised _
  | this use =>
      refine .inl ?_
      simp only [Machine.evaluate]
      split
      · next v hv => exact h.normal (h.lookup_holds hv)
      · exact h.raised _
  | assign use value =>
      have huse : Good ⟨.assign, use⟩ site :=
        he _ (List.mem_append_right _ (List.mem_singleton.mpr rfl))
      exact .inl ((h.push (.assign huse)).eval fun u hu => he u (List.mem_append_left _ hu))
  | call callee paren arguments =>
      have harguments : Expr.AllFit Good site arguments :=
        fun u hu => he u (List.mem_append_right _ hu)
      exact .inl ((h.push (.callee paren harguments)).eval fun u hu =>
        he u (List.mem_append_left _ hu))
  | get object name => exact .inl ((h.push (.get name)).eval he)
  | set object name value =>
      have hvalue : value.Fits Good site := fun u hu => he u (List.mem_append_left _ hu)
      exact .inl ((h.push (.setObject name hvalue)).eval fun u hu =>
        he u (List.mem_append_right _ hu))
  | super use method => exact h.superMethod_fits use method

/-! ## Statements -/

theorem expr_fits {e : Expr} (h : ∀ p ∈ e.usesAt site, Good p.1 p.2) : e.Fits Good site :=
  fun u hu => h (u, site) (List.mem_map_of_mem hu)

/-- A name is bound in the innermost scope, and ready from there on. -/
theorem define (hsound : (st.world labels).Sound Good)
    (hscope : (st.world labels).Realises st.scope site) {name : Token} (hname : Plain name.lexeme)
    {v : Value} (hframes : (st.world labels).FramesFit Good (site.define name.lexeme) frames)
    (hv : ((st.define name v).world labels).Holds Good v) :
    (st.define name v).StandsAt Good labels (site.define name.lexeme) frames :=
  ⟨hsound.define hname hv, hscope.define hsound name.lexeme v,
    hframes.mono ((st.world labels).extends_define st.scope name.lexeme v)⟩

/-- A function can be called only once its own name is bound. -/
theorem functionDecl_fits {declared : Function} (hsound : (st.world labels).Sound Good)
    (hscope : (st.world labels).Realises st.scope site)
    (hframes : (st.world labels).FramesFit Good (site.define declared.name.lexeme) frames)
    (hs : (Stmt.functionDecl declared).Fits Good site) :
    (Machine.execute (.functionDecl declared) frames st).Fits Good labels := by
  obtain ⟨huses, hnames⟩ := hs
  have hname : Plain declared.name.lexeme := hnames _ declared.name_mem
  let st' : State := { st with heap := (st.heap.addFunction ⟨declared, st.scope, false⟩).2 }
  let f : FunctionId := ⟨st.heap.functions.size⟩
  have hextends : (st.world labels).Extends (st'.world labels) := World.extends_addFunction _ _
  have hsound' : (st'.world labels).Sound Good := hsound.addFunction _
  have hscope' : (st'.world labels).Realises st'.scope site := hscope.mono hextends
  have hdefined := hscope'.define hsound' declared.name.lexeme (.function f)
  have hv : ((st'.define declared.name (.function f)).world labels).Holds Good (.function f) := by
    obtain ⟨hlt, hat⟩ := (st.world labels).addFunction_at ⟨declared, st.scope, false⟩
    have hat' : (st'.define declared.name (.function f)).heap.functionAt f
        = ⟨declared, st.scope, false⟩ := hat
    intro g hg
    cases hg
    exact ⟨hlt, site.define declared.name.lexeme, hat'.symm ▸ hdefined,
      hat'.symm ▸ ⟨huses, hnames⟩⟩
  exact (define hsound' hscope' hname (hframes.mono hextends) hv).done

theorem execute_fits {s : Stmt} (hsound : (st.world labels).Sound Good)
    (hscope : (st.world labels).Realises st.scope site)
    (hframes : (st.world labels).FramesFit Good (site.after s) frames) (hs : s.Fits Good site) :
    (Machine.execute s frames st).Fits Good labels ∨
      (Machine.execute s frames st).Fits Good
        (labels ++ Machine.opening ⟨.exec s, frames, st⟩) := by
  obtain ⟨huses, hnames⟩ := hs
  cases s with
  | expression e => exact .inl (StandsAt.eval ⟨hsound, hscope, hframes⟩ (expr_fits huses))
  | print e =>
      have hstands : st.StandsAt Good labels site frames := ⟨hsound, hscope, hframes⟩
      exact .inl ((hstands.push .print).eval (expr_fits huses))
  | variableDecl name value =>
      have hname : Plain name.lexeme := hnames name (List.mem_cons_self ..)
      cases value with
      | none =>
          have hnil : ((st.define name .nil).world labels).Holds Good .nil :=
            World.holds_of_ne nofun
          exact .inl (define hsound hscope hname hframes hnil).done
      | some e =>
          -- the name stands in the scope already, but promises nothing
          have hframes' := hframes.within (site.define_within_declare name.lexeme)
          have hstands : st.StandsAt Good labels (site.declare name.lexeme)
              (.define name :: frames) :=
            ⟨hsound, hscope.within (site.declare_within name.lexeme), hframes'.push (.define hname)⟩
          exact .inl (hstands.eval (expr_fits huses))
  | block body =>
      have hextends := World.extends_addScope hsound ⟨∅, some st.scope⟩ (.block body)
      have hbody : Stmt.AllFit Good ((.block body, []) :: site) body := ⟨huses, hnames⟩
      have hframes' := ((hframes.mono hextends).push (.block (hscope.mono hextends))).push
        (.sequence hbody)
      refine .inr (StandsAt.done ⟨?_, ?_, hframes'⟩)
      · exact hsound.addScope (fun name v hv => by simp at hv) (fun _ hregion => nomatch hregion)
          (fun _ hregion => nomatch hregion)
      · exact hscope.addScope hsound (.block body) [] ∅ fun name hname => nomatch hname
  | conditional condition yes no =>
      have hstands : st.StandsAt Good labels site frames := ⟨hsound, hscope, hframes⟩
      cases no with
      | none =>
          have hyes : yes.Fits Good site :=
            ⟨fun p hp => huses p (List.mem_append_right _ hp), hnames⟩
          have hno : ∀ s : Stmt, none = some s → s.Fits Good site := fun s hs => nomatch hs
          exact .inl ((hstands.push (.branch hyes hno)).eval
            (expr_fits fun p hp => huses p (List.mem_append_left _ hp)))
      | some no =>
          have hbranches : ∀ p ∈ yes.uses site ++ no.uses site, Good p.1 p.2 :=
            fun p hp => huses p (List.mem_append_right _ hp)
          have hyes : yes.Fits Good site :=
            ⟨fun p hp => hbranches p (List.mem_append_left _ hp),
              fun t ht => hnames t (List.mem_append_left _ ht)⟩
          have hno : no.Fits Good site :=
            ⟨fun p hp => hbranches p (List.mem_append_right _ hp),
              fun t ht => hnames t (List.mem_append_right _ ht)⟩
          exact .inl ((hstands.push (.branch hyes fun s hs => Option.some.inj hs ▸ hno)).eval
            (expr_fits fun p hp => huses p (List.mem_append_left _ hp)))
  | loop condition body =>
      have hstands : st.StandsAt Good labels site frames := ⟨hsound, hscope, hframes⟩
      have hcondition : condition.Fits Good site :=
        expr_fits fun p hp => huses p (List.mem_append_left _ hp)
      have hbody : body.Fits Good site :=
        ⟨fun p hp => huses p (List.mem_append_right _ hp), hnames⟩
      exact .inl ((hstands.push (.loopTest hcondition hbody)).eval hcondition)
  | functionDecl declared => exact .inl (functionDecl_fits hsound hscope hframes ⟨huses, hnames⟩)
  | giveBack keyword value =>
      have hstands : st.StandsAt Good labels site frames := ⟨hsound, hscope, hframes⟩
      cases value with
      | none =>
          exact .inl ⟨hsound, site, .returned hscope.stands (World.holds_of_ne nofun), hframes⟩
      | some e => exact .inl ((hstands.push .giveBack).eval (expr_fits huses))
  | classDecl name superclass methods =>
      have hname : Plain name.lexeme := hnames name (List.mem_cons_self ..)
      have hmethods : Function.AllFit Good ((site.define name.lexeme).inClass superclass methods)
          methods :=
        ⟨fun p hp => huses p (List.mem_append_right _ hp),
          fun t ht => hnames t (List.mem_cons_of_mem _ ht)⟩
      cases superclass with
      | none =>
          obtain ⟨hextends, hsound', hscope'⟩ :=
            State.declareClass_fits hsound hscope hname none none rfl hmethods
          rw [show labels ++ Region.ofClass none methods = labels from List.append_nil labels]
            at hextends hsound' hscope'
          exact .inl (StandsAt.done ⟨hsound', hscope', hframes.mono hextends⟩)
      | some use =>
          have huse : Expr.Fits Good site (.ident use) := by
            intro u hu
            rw [List.mem_singleton.mp hu]
            exact huses (⟨.read, use⟩, site) (List.mem_cons_self ..)
          have hstands : st.StandsAt Good labels site (.superclass name use methods :: frames) :=
            ⟨hsound, hscope, hframes.push (.superclass hname hmethods)⟩
          exact .inl (hstands.eval huse)

/-! ## Frames -/

/-- Giving a name a new value leaves special names as they are. -/
theorem assign_fits (h : st.StandsAt Good labels site frames) {use : Reference}
    (hname : Plain use.name.lexeme) {v : Value} (hv : (st.world labels).Holds Good v) :
    Machine.Fits Good labels ⟨.complete (st.assign use v).1, frames, (st.assign use v).2⟩ := by
  have hdefine : ∀ x, State.StandsAt Good labels
      { st with heap := st.heap.define x use.name.lexeme v } site frames ∧
      (({ st with heap := st.heap.define x use.name.lexeme v } : State).world labels).Holds Good v := by
    intro x
    have hextends := (st.world labels).extends_define x use.name.lexeme v
    exact ⟨h.moved hextends (h.sound.define hname (hv.mono hextends)) rfl, hv.mono hextends⟩
  unfold State.assign
  dsimp only
  split
  · exact (hdefine _).1.normal (hdefine _).2
  · split
    · exact (hdefine _).1.normal (hdefine _).2
    · exact h.raised _

theorem nextArgument_fits (h : st.StandsAt Good labels site frames) {callee : Value}
    (hcallee : (st.world labels).Holds Good callee) (paren : Token) {evaluated : List Value}
    (hevaluated : ∀ v ∈ evaluated, (st.world labels).Holds Good v) {rest : List Expr}
    (hrest : Expr.AllFit Good site rest) :
    let m := Machine.nextArgument callee paren evaluated rest frames st
    m.Fits Good labels ∨ (rest = [] ∧ m.Fits Good (labels ++ Machine.entered st.heap callee)) := by
  intro m
  cases rest with
  | cons e es =>
      have hes : Expr.AllFit Good site es := fun u hu => hrest u (List.mem_append_right _ hu)
      exact .inl ((h.push (.argument paren hcallee hevaluated hes)).eval fun u hu =>
        hrest u (List.mem_append_left _ hu))
  | nil =>
      rcases h.call_fits hcallee (fun v hv => hevaluated v (List.mem_reverse.mp hv)) paren
        with hcall | hcall
      · exact .inl hcall
      · exact .inr ⟨rfl, hcall⟩

/-- What a call yields can be called if it is a function. -/
theorem callValue_holds (h : (st.world labels).Sound Good) (result : CallResult) {v : Value}
    (hv : (st.world labels).Holds Good v) :
    (st.world labels).Holds Good (Machine.callValue st.heap result v) := by
  cases result with
  | ofBody => exact hv
  | constructed o => exact World.holds_of_ne nofun
  | receiver x =>
      unfold Machine.callValue
      dsimp only
      cases hthis : st.heap.bound? x "this" with
      | none => exact World.holds_of_ne nofun
      | some u => exact h.values x "this" u hthis

theorem program_fits {rest : List Stmt} (h : st.StandsAt Good labels [] frames)
    (hrest : Stmt.AllFit Good [] rest) (v : Value) :
    (Machine.continueWith (.program rest) v frames st).Fits Good labels := by
  cases rest with
  | nil =>
      simp only [Machine.continueWith]
      split
      · exact h.done
      · exact h.raised _
  | cons s rest =>
      have hs : s.Fits Good [] := ⟨fun p hp => hrest.uses p (List.mem_append_left _ hp),
        fun t ht => hrest.names t (List.mem_append_left _ ht)⟩
      have hafter : Stmt.AllFit Good [] rest := by
        refine ⟨fun p hp => hrest.uses p (List.mem_append_right _ ?_),
          fun t ht => hrest.names t (List.mem_append_right _ ht)⟩
        rwa [World.after_top]
      exact (h.push (.program hafter)).exec hs

variable (hgood : ∀ u site, Good u site → u.Spelled)

include hgood in
theorem continueWith_fits {frame : Frame} {outer : Site} {v : Value}
    (hsound : (st.world labels).Sound Good) (hscope : (st.world labels).Realises st.scope site)
    (hv : (st.world labels).Holds Good v)
    (hframe : (st.world labels).FrameFits Good frame site outer)
    (hframes : (st.world labels).FramesFit Good outer frames) :
    (Machine.continueWith frame v frames st).Fits Good labels ∨
      (Machine.continueWith frame v frames st).Fits Good
        (labels ++ Machine.opening ⟨.complete (.normal v), frame :: frames, st⟩) := by
  -- most frames go on at the site where they have waited
  have hstay : outer = site → st.StandsAt Good labels site frames :=
    fun houter => ⟨hsound, hscope, houter ▸ hframes⟩
  cases hframe with
  | unary operator => exact .inl ((hstay rfl).result fun _ => Operator.unary_isAtomic)
  | binaryLeft operator hright =>
      exact .inl (((hstay rfl).push (.binaryRight v operator)).eval hright)
  | binaryRight left operator =>
      exact .inl ((hstay rfl).result fun _ => Operator.binary_isAtomic)
  | logical operator hright =>
      refine .inl ?_
      simp only [Machine.continueWith]
      split
      · exact (hstay rfl).normal hv
      · exact (hstay rfl).eval hright
  | assign huse => exact .inl ((hstay rfl).assign_fits (hgood _ _ huse) hv)
  | callee paren harguments =>
      have hnone : ∀ u ∈ ([] : List Value), (st.world labels).Holds Good u :=
        List.forall_mem_nil _
      rcases (hstay rfl).nextArgument_fits hv paren hnone harguments with hnext | ⟨rfl, hnext⟩
      · exact .inl hnext
      · exact .inr hnext
  | argument paren hcallee hevaluated hrest =>
      rcases (hstay rfl).nextArgument_fits hcallee paren (List.forall_mem_cons.mpr ⟨hv, hevaluated⟩)
        hrest with hnext | ⟨rfl, hnext⟩
      · exact .inl hnext
      · exact .inr hnext
  | get name =>
      cases v with
      | object o => exact (hstay rfl).property_fits o name
      | _ => exact .inl ((hstay rfl).raised _)
  | setObject name hvalue =>
      cases v with
      | object o => exact .inl (((hstay rfl).push (.setValue o name)).eval hvalue)
      | _ => exact .inl ((hstay rfl).raised _)
  | setValue o name =>
      have hextends := (st.world labels).extends_setField o name.lexeme v
      have hmoved : State.StandsAt Good labels
          { st with heap := st.heap.setField o name.lexeme v } site frames :=
        (hstay rfl).moved hextends (hsound.setField hv o name.lexeme) rfl
      exact .inl (hmoved.normal (hv.mono hextends))
  | print =>
      refine .inl ?_
      have hmoved : ∀ output, State.StandsAt Good labels { st with output } site frames :=
        fun output => (hstay rfl).moved (.refl _) hsound rfl
      simp only [Machine.continueWith]
      split
      · exact (hmoved _).done
      · exact (hmoved _).raised _
  | @define _ name hname =>
      have hextends := (st.world labels).extends_define st.scope name.lexeme v
      exact .inl (define hsound hscope hname hframes (hv.mono hextends)).done
  | branch hyes hno =>
      refine .inl ?_
      simp only [Machine.continueWith]
      split
      · exact (hstay rfl).exec hyes
      · split
        · exact (hstay rfl).exec (hno _ rfl)
        · exact (hstay rfl).done
  | loopTest hcondition hbody =>
      refine .inl ?_
      simp only [Machine.continueWith]
      split
      · exact ((hstay rfl).push (.loopBody hcondition hbody)).exec hbody
      · exact (hstay rfl).done
  | loopBody hcondition hbody =>
      exact .inl (((hstay rfl).push (.loopTest hcondition hbody)).eval hcondition)
  | giveBack => exact .inl ⟨hsound, site, .returned hscope.stands hv, hframes⟩
  | @superclass _ name use methods hname hmethods =>
      have hregions := site.regions_define name.lexeme
      have hfault : ∀ f, Machine.Fits Good labels ⟨.complete (.raised f), frames, st⟩ :=
        fun f => ⟨hsound, _, .raised f (hregions.symm ▸ hscope.stands), hframes⟩
      cases v with
      | classObject parent =>
          obtain ⟨hextends, hsound', hscope'⟩ :=
            State.declareClass_fits hsound hscope hname (some use) (some parent) rfl hmethods
          exact .inr (StandsAt.done ⟨hsound', hscope', hframes.mono hextends⟩)
      | _ => exact .inl (hfault _)
  | @sequence _ rest hrest =>
      refine .inl ?_
      cases rest with
      | nil => exact (hstay rfl).done
      | cons s rest =>
          have hs : s.Fits Good site := ⟨fun p hp => hrest.uses p (List.mem_append_left _ hp),
            fun t ht => hrest.names t (List.mem_append_left _ ht)⟩
          have hafter : Stmt.AllFit Good (site.after s) rest :=
            ⟨fun p hp => hrest.uses p (List.mem_append_right _ hp),
              fun t ht => hrest.names t (List.mem_append_right _ ht)⟩
          exact ⟨hsound, site.after s, .exec hscope hs, hframes.push (.sequence hafter)⟩
  | block houter => exact .inl (StandsAt.done ⟨hsound, houter, hframes⟩)
  | @activation _ outside caller result hcaller =>
      have hstands : State.StandsAt Good labels
          { st with scope := caller, depth := st.depth - 1 } outer frames :=
        ⟨hsound, hcaller, hframes⟩
      have hnil : (st.world labels).Holds Good .nil := World.holds_of_ne fun _ hf => by cases hf
      exact .inl (hstands.normal (callValue_holds hsound result hnil))
  | program hrest => exact .inl ((hstay rfl).program_fits hrest v)

/-! ## Abrupt ends -/

/-- What has the regions of a site, but maybe not its names. -/
theorem abrupt_stay {frame : Frame} {outer : Site}
    (hstands : (st.world labels).Stands st.scope site.regions)
    (hframe : (st.world labels).FrameFits Good frame site outer)
    (hblock : ∀ x, frame ≠ .block x) (hactivation : ∀ x r, frame ≠ .activation x r) :
    (st.world labels).Stands st.scope outer.regions := by
  cases hframe with
  | define hname => rwa [Site.regions_define]
  | superclass hname hmethods => rwa [Site.regions_define]
  | sequence hrest => rwa [Site.regions_afterAll]
  | block houter => exact absurd rfl (hblock _)
  | activation hcaller => exact absurd rfl (hactivation _ _)
  | _ => exact hstands

theorem returnFrom_fits {frame : Frame} {outer : Site} {v : Value}
    (hsound : (st.world labels).Sound Good)
    (hstands : (st.world labels).Stands st.scope site.regions)
    (hv : (st.world labels).Holds Good v)
    (hframe : (st.world labels).FrameFits Good frame site outer)
    (hframes : (st.world labels).FramesFit Good outer frames) :
    (Machine.returnFrom frame v frames st).Fits Good labels := by
  have hstay := abrupt_stay hstands hframe
  have hreturned : (∀ x, frame ≠ .block x) → (∀ x r, frame ≠ .activation x r) →
      Machine.Fits Good labels ⟨.complete (.returned v), frames, st⟩ :=
    fun hblock hactivation => ⟨hsound, outer, .returned (hstay hblock hactivation) hv, hframes⟩
  cases hframe with
  | block houter => exact ⟨hsound, outer, .returned houter.stands hv, hframes⟩
  | @activation _ outside caller result hcaller =>
      have hstands' : State.StandsAt Good labels
          { st with scope := caller, depth := st.depth - 1 } outer frames :=
        ⟨hsound, hcaller, hframes⟩
      exact hstands'.normal (callValue_holds hsound result hv)
  | program hrest => exact program_fits ⟨hsound, hstands, hframes⟩ hrest v
  | _ => exact hreturned nofun nofun

theorem raiseFrom_fits {frame : Frame} {outer : Site} {f : Failure}
    (hsound : (st.world labels).Sound Good)
    (hstands : (st.world labels).Stands st.scope site.regions)
    (hframe : (st.world labels).FrameFits Good frame site outer)
    (hframes : (st.world labels).FramesFit Good outer frames) :
    (Machine.raiseFrom frame f frames st).Fits Good labels := by
  have hstay := abrupt_stay hstands hframe
  have hraised : (∀ x, frame ≠ .block x) → (∀ x r, frame ≠ .activation x r) →
      Machine.Fits Good labels ⟨.complete (.raised f), frames, st⟩ :=
    fun hblock hactivation => ⟨hsound, outer, .raised f (hstay hblock hactivation), hframes⟩
  cases hframe with
  | block houter => exact ⟨hsound, outer, .raised f houter.stands, hframes⟩
  | activation hcaller => exact ⟨hsound, outer, .raised f hcaller.stands, hframes⟩
  | program hrest => exact ⟨hsound, [], .raised f rfl, hframes⟩
  | _ => exact hraised nofun nofun

end State.StandsAt

namespace Machine

variable {Good : Use → Site → Prop} (hgood : ∀ u site, Good u site → u.Spelled)

include hgood

/-! ## Steps and runs -/

theorem Fits.step {labels : List Region} {m : Machine} (h : m.Fits Good labels) :
    m.step.Fits Good (labels ++ m.opened) := by
  refine h.opened ?_
  obtain ⟨control, frames, st⟩ := m
  obtain ⟨hsound, site, hcontrol, hframes⟩ := h
  cases hcontrol with
  | eval hscope he => exact State.StandsAt.evaluate_fits ⟨hsound, hscope, hframes⟩ he
  | exec hscope hs => exact State.StandsAt.execute_fits hsound hscope hframes hs
  | @normal _ v hscope hv =>
      cases hframes with
      | nil => exact .inl ⟨hsound, [], .normal hscope hv, .nil⟩
      | cons hwithin hframe hframes =>
          exact State.StandsAt.continueWith_fits hgood hsound (hscope.within hwithin) hv hframe
            hframes
  | returned hstands hv =>
      cases hframes with
      | nil => exact .inl ⟨hsound, [], .returned hstands hv, .nil⟩
      | cons hwithin hframe hframes =>
          rw [← hwithin.regions] at hstands
          exact .inl (State.StandsAt.returnFrom_fits hsound hstands hv hframe hframes)
  | raised f hstands =>
      cases hframes with
      | nil => exact .inl ⟨hsound, [], .raised f hstands, .nil⟩
      | cons hwithin hframe hframes =>
          rw [← hwithin.regions] at hstands
          exact .inl (State.StandsAt.raiseFrom_fits hsound hstands hframe hframes)

theorem Fits.run : ∀ (limit : Nat) {labels : List Region} {m : Machine}, m.Fits Good labels →
    (m.run limit).Fits Good (labels ++ m.openedIn limit)
  | 0, labels, m, h => by
      rw [openedIn, List.append_nil]
      exact h
  | limit + 1, labels, m, h => by
      rw [run_succ, openedIn, ← List.append_assoc]
      exact Fits.run limit (h.step hgood)

end Machine

end Lox
