import Lox.Proofs.Scopes.Calls

/-!
# Going on from where a machine stands

A state stands at a site with frames that wait there. From this every part of a step makes a machine
that fits: it completes, starts on code that fits the site, binds a method, or calls a value. The
last two make scopes, and say for which regions.
-/

namespace Lox

/-- The state stands at the site, where the frames wait. -/
structure State.StandsAt (Good : Use → Site → Prop) (labels : List Region) (st : State)
    (site : Site) (frames : List Frame) : Prop where
  sound : (st.world labels).Sound Good
  scope : (st.world labels).Realises st.scope site
  frames : (st.world labels).FramesFit Good site frames

namespace Machine

/-- The regions that a call of the value goes into: a class with an initializer binds it to the new
object first. -/
def entered (h : Heap) (callee : Value) : List Region :=
  match callee with
  | .function f => [.call (h.functionAt f).declared]
  | .classObject c =>
    match h.findMethod? c Function.initializerName with
    | some init => [.receiver (h.functionAt init).declared, .call (h.functionAt init).declared]
    | none => []
  | _ => []

/-- The region around a method that has just been bound. -/
def boundRegion (m : Machine) : List Region :=
  match m.control with
  | .complete (.normal (.function f)) => [.receiver (m.state.heap.functionAt f).declared]
  | _ => []

end Machine

namespace State.StandsAt

variable {Good : Use → Site → Prop} {labels : List Region} {st : State} {site : Site}
  {frames : List Frame}

/-! ## Completion -/

theorem normal (h : st.StandsAt Good labels site frames) {v : Value}
    (hv : (st.world labels).Holds Good v) :
    Machine.Fits Good labels ⟨.complete (.normal v), frames, st⟩ :=
  ⟨h.sound, site, .normal h.scope hv, h.frames⟩

/-- A value that is no function needs nothing. -/
theorem plain (h : st.StandsAt Good labels site frames) {v : Value} (hv : ∀ f, v ≠ .function f) :
    Machine.Fits Good labels ⟨.complete (.normal v), frames, st⟩ :=
  h.normal (World.holds_of_ne hv)

theorem done (h : st.StandsAt Good labels site frames) :
    Machine.Fits Good labels ⟨.complete .done, frames, st⟩ :=
  h.plain nofun

theorem raised (h : st.StandsAt Good labels site frames) (f : Failure) :
    Machine.Fits Good labels ⟨.complete (.raised f), frames, st⟩ :=
  ⟨h.sound, site, .raised f h.scope.stands, h.frames⟩

theorem result (h : st.StandsAt Good labels site frames) {r : Except Failure Value}
    (hr : ∀ v, r = .ok v → v.isAtomic = true) :
    Machine.Fits Good labels ⟨.complete (.ofResult r), frames, st⟩ := by
  cases r with
  | ok v => exact h.plain (Value.ne_function_of_isAtomic (hr v rfl))
  | error f => exact h.raised f

/-! ## Code -/

theorem eval (h : st.StandsAt Good labels site frames) {e : Expr} (he : e.Fits Good site) :
    Machine.Fits Good labels ⟨.eval e, frames, st⟩ :=
  ⟨h.sound, site, .eval h.scope he, h.frames⟩

/-- A statement may declare a name that nothing waits for. -/
theorem exec (h : st.StandsAt Good labels site frames) {s : Stmt} (hs : s.Fits Good site) :
    Machine.Fits Good labels ⟨.exec s, frames, st⟩ :=
  ⟨h.sound, site.after s, .exec h.scope hs, h.frames.within (site.within_after s)⟩

theorem push (h : st.StandsAt Good labels site frames) {frame : Frame}
    (hframe : (st.world labels).FrameFits Good frame site site) :
    st.StandsAt Good labels site (frame :: frames) :=
  ⟨h.sound, h.scope, h.frames.push hframe⟩

/-! ## Changes -/

/-- Another state that extends the world and keeps the innermost scope. -/
theorem moved (h : st.StandsAt Good labels site frames) {labels' : List Region} {st' : State}
    (hextends : (st.world labels).Extends (st'.world labels'))
    (hsound : (st'.world labels').Sound Good) (hscope : st'.scope = st.scope) :
    st'.StandsAt Good labels' site frames :=
  ⟨hsound, hscope ▸ h.scope.mono hextends, h.frames.mono hextends⟩

/-- A method is bound to an object, in a new scope, and can be called then. -/
theorem bound (h : st.StandsAt Good labels site frames) {method : FunctionId}
    (hm : (st.world labels).Method Good method) (o : ObjectId) :
    let r := st.heap.bindMethod method o
    let declared := (st.heap.functionAt method).declared
    let st' : State := { st with heap := r.2 }
    let labels' := labels ++ [.receiver declared]
    (st.world labels).Extends (st'.world labels') ∧ st'.StandsAt Good labels' site frames ∧
      (st'.world labels').Callable Good r.1 ∧ (r.2.functionAt r.1).declared = declared := by
  intro r declared st' labels'
  have hr : r = _ := (st.world labels).heap_bindMethod method o
  have hworld : st'.world labels' = (st.world labels).bindMethod method o := by
    show World.mk r.2 _ _ = _
    rw [hr]
    rfl
  have hextends : (st.world labels).Extends (st'.world labels') := by
    rw [hworld]
    exact World.extends_bindMethod h.sound method o
  refine ⟨hextends, h.moved hextends ?_ rfl, ?_, ?_⟩
  · rw [hworld]
    exact h.sound.bindMethod method o
  · rw [hworld, hr]
    exact hm.bind h.sound o
  · have hat := congrArg Closure.declared (st.heap.functionAt_bindMethod method o)
    exact hat

theorem bind (h : st.StandsAt Good labels site frames) {method : FunctionId}
    (hm : (st.world labels).Method Good method) (o : ObjectId) :
    let r := st.heap.bindMethod method o
    let m : Machine := ⟨.complete (.normal (.function r.1)), frames, { st with heap := r.2 }⟩
    m.Fits Good (labels ++ m.boundRegion) := by
  intro r m
  obtain ⟨-, hstands, hcallable, hdeclared⟩ := h.bound hm o
  have hregion : m.boundRegion = [.receiver (st.heap.functionAt method).declared] :=
    congrArg (fun d => [Region.receiver d]) hdeclared
  rw [hregion]
  refine hstands.normal fun f hf => ?_
  cases hf
  exact hcallable

theorem superMethod_fits (h : st.StandsAt Good labels site frames) (use : Reference)
    (method : Token) :
    let r := Machine.superMethod st use method
    let m : Machine := ⟨.complete r.1, frames, r.2⟩
    m.Fits Good labels ∨ m.Fits Good (labels ++ m.boundRegion) := by
  dsimp only
  unfold Machine.superMethod
  split
  · exact .inl (h.raised _)
  · split
    · split
      · split
        · next found hfound => exact .inr (h.bind (h.sound.findMethod hfound) _)
        · exact .inl (h.raised _)
      · exact .inl (h.raised _)
    · exact .inl (h.raised _)

theorem property_fits (h : st.StandsAt Good labels site frames) (o : ObjectId) (name : Token) :
    let r := Machine.property st o name
    let m : Machine := ⟨.complete r.1, frames, r.2⟩
    m.Fits Good labels ∨ m.Fits Good (labels ++ m.boundRegion) := by
  dsimp only
  unfold Machine.property
  split
  · next v hv => exact .inl (h.normal (h.sound.fields o name.lexeme v hv))
  · split
    · next found hfound => exact .inr (h.bind (h.sound.findMethod hfound) o)
    · exact .inl (h.raised _)

/-! ## Calls -/

/-- The body of a function is executed in a new scope, and the frames wait for the end of the call.
-/
theorem enter_fits (h : st.StandsAt Good labels site frames) {f : Closure} {around : Site}
    (hscope : (st.world labels).Realises f.scope around) (hfits : f.declared.Fits Good around)
    {args : List Value} (hargs : ∀ v ∈ args, (st.world labels).Holds Good v)
    (hlength : args.length = f.declared.arity) (result : CallResult) :
    (Machine.enter f result args frames st).Fits Good (labels ++ [.call f.declared]) := by
  obtain ⟨hextends, hsound, hrealises⟩ := World.enter_fits h.sound hscope hfits hargs hlength
  have hstands : State.StandsAt Good (labels ++ [.call f.declared])
      (Machine.enter f result args frames st).state (around.inFunction f.declared)
      (Machine.enter f result args frames st).frames :=
    ⟨hsound, hrealises, ((h.frames.mono hextends).push (.activation (h.scope.mono hextends))).push
      (.sequence (World.allFit_body hfits))⟩
  exact hstands.done

theorem construct_fits (h : st.StandsAt Good labels site frames) {c : ClassId} {args : List Value}
    (hargs : ∀ v ∈ args, (st.world labels).Holds Good v)
    (hlength : args.length = st.heap.classArity c) :
    (Machine.construct c args frames st).Fits Good (labels ++ Machine.entered st.heap (.classObject c)) := by
  have hadded := (st.world labels).extends_addObject ⟨c, ∅⟩
  have hstands : State.StandsAt Good labels { st with heap := (st.heap.addObject ⟨c, ∅⟩).2 } site
      frames := h.moved hadded (h.sound.addObject c) rfl
  -- the new object has no part in what initializer its class has
  have hclasses : (st.heap.addObject ⟨c, ∅⟩).2.classes = st.heap.classes := rfl
  have hsame : (st.heap.addObject ⟨c, ∅⟩).2.findMethod? c Function.initializerName
      = st.heap.findMethod? c Function.initializerName :=
    Heap.findMethodFrom_classes hclasses _ _ c
  unfold Heap.classArity at hlength
  simp only [Machine.construct, Machine.entered]
  rw [hsame]
  cases hfound : st.heap.findMethod? c Function.initializerName with
  | none =>
      rw [List.append_nil]
      exact hstands.plain fun _ hf => by cases hf
  | some init =>
      rw [hfound] at hlength
      obtain ⟨hextends, hbound, ⟨-, around, hscope, hfits⟩, hdeclared⟩ :=
        hstands.bound ((h.sound.findMethod hfound).mono hadded) ⟨st.heap.objects.size⟩
      have hentered := hbound.enter_fits hscope hfits
        (fun v hv => ((hargs v hv).mono hadded).mono hextends)
        (hlength.trans (congrArg Function.arity hdeclared.symm))
        (.constructed ⟨st.heap.objects.size⟩)
      rw [List.append_assoc] at hentered
      have hlabels := congrArg
        (fun d => labels ++ [Region.receiver (st.heap.functionAt init).declared, .call d]) hdeclared
      exact Eq.subst (motive := fun labels' => Machine.Fits Good labels' _) hlabels hentered

theorem call_fits (h : st.StandsAt Good labels site frames) {callee : Value} {args : List Value}
    (hcallee : (st.world labels).Holds Good callee)
    (hargs : ∀ v ∈ args, (st.world labels).Holds Good v) (paren : Token) :
    let m := Machine.call callee paren args frames st
    m.Fits Good labels ∨ m.Fits Good (labels ++ Machine.entered st.heap callee) := by
  dsimp only
  unfold Machine.call
  cases harity : st.heap.arity? callee with
  | none => exact .inl (h.raised _)
  | some arity =>
      dsimp only
      split
      · exact .inl (h.raised _)
      · next hlength =>
        have hlength : args.length = arity := Decidable.of_not_not hlength
        split
        · exact .inl (h.raised _)
        · cases callee with
          | native f =>
              have hclock : ∀ clock, State.StandsAt Good labels { st with clock } site frames :=
                fun clock => h.moved (.refl _) h.sound rfl
              refine .inl ?_
              simp only [Machine.invoke]
              split
              · next v clock hcall =>
                have hv : v.isAtomic = true := Native.call_isAtomic (congrArg Prod.fst hcall)
                exact (hclock clock).plain (Value.ne_function_of_isAtomic hv)
              · exact (hclock _).raised _
          | function f =>
              obtain ⟨-, around, hscope, hfits⟩ := hcallee f rfl
              refine .inr (h.enter_fits hscope hfits hargs ?_ _)
              rw [hlength]
              exact (Option.some.inj harity).symm
          | classObject c =>
              refine .inr (h.construct_fits hargs ?_)
              rw [hlength]
              exact (Option.some.inj harity).symm
          | _ => exact .inl (h.raised _)

end State.StandsAt

end Lox
