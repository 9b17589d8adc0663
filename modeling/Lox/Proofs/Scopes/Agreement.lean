import Lox.Proofs.Scopes.Histories

/-!
# The static walk and the running program agree on scopes

When a running program comes to the use of a name, the scopes around it are those that were made for
the regions around the use, and the address that the walk has found leads to the scope that was made
for the nearest region with the name. So a name that has an address and may be read is always bound
where it is looked for. Without an address no region around the use has the name, and the top level
counts.

A region around a use has the use in it, and no two uses have the same number. So two regions of
different places in the programs are never taken for one another.
-/

namespace Lox

/-- From `x` there are `d` links outwards, and they lead to `y`. -/
inductive Heap.Outward (h : Heap) : (d : Nat) → (x y : ScopeId) → Prop where
  | zero (x : ScopeId) : Outward h 0 x x
  | succ {d : Nat} {x y z : ScopeId} :
      (h.scopeAt x).outer = some y → Outward h d y z → Outward h (d + 1) x z

theorem Heap.Outward.ancestor {h : Heap} {d : Nat} {x y : ScopeId} (hxy : h.Outward d x y) :
    h.ancestor x d = y := by
  induction hxy with
  | zero x => rfl
  | succ houter _ ih =>
      rw [Heap.ancestor, houter]
      exact ih

theorem Heap.Outward.snoc {h : Heap} {d : Nat} {x y z : ScopeId} (hxy : h.Outward d x y)
    (houter : (h.scopeAt y).outer = some z) : h.Outward (d + 1) x z := by
  induction hxy with
  | zero x => exact .succ houter (.zero z)
  | succ hx _ ih => exact .succ hx (ih houter)

/-- A scope without an outer one binds all that can be found from it. -/
theorem Heap.binder?_of_outermost {h : Heap} {x : ScopeId} (hx : (h.scopeAt x).outer = none)
    (name : String) : h.binder? x name = if (h.bound? x name).isSome then some x else none := by
  unfold binder? chain
  rw [chainFrom, hx]
  cases hbound : (h.bound? x name).isSome <;> simp [hbound]

theorem Heap.lookup?_of_outermost {h : Heap} {x : ScopeId} (hx : (h.scopeAt x).outer = none)
    (name : String) : h.lookup? x name = h.bound? x name := by
  unfold lookup?
  rw [binder?_of_outermost hx]
  cases hbound : h.bound? x name <;> simp [hbound]

/-! ## Walks outwards -/

namespace World

variable {w : World}

theorem Stands.outward : ∀ {regions : List Region} {x : ScopeId} {d : Nat} {region : Region},
    w.Stands x regions → regions[d]? = some region →
    ∃ y, w.heap.Outward d x y ∧ w.labels[y.index]? = some region
  | [], _, _, _, _, hd => nomatch hd
  | _ :: _, x, 0, _, ⟨hlabel, _⟩, hd => ⟨x, .zero x, hlabel.trans hd⟩
  | _ :: _, _, _ + 1, _, ⟨_, y, houter, hy⟩, hd => by
      obtain ⟨z, hz, hlabel⟩ := hy.outward hd
      exact ⟨z, .succ houter hz, hlabel⟩

/-- The scope at a distance was made for the region there, and binds its names. -/
theorem Realises.outward : ∀ {site : Site} {x : ScopeId} {d : Nat} {entry : Region × Scoping.Frame},
    w.Realises x site → site[d]? = some entry →
    ∃ y, w.heap.Outward d x y ∧ w.labels[y.index]? = some entry.1 ∧
      ∀ name, entry.2.lookup name = some true → (w.heap.bound? y name).isSome
  | [], _, _, _, _, hd => nomatch hd
  | _ :: _, x, 0, _, ⟨hlabel, hbound, _⟩, hd => by
      cases hd
      exact ⟨x, .zero x, hlabel, hbound⟩
  | _ :: _, _, _ + 1, _, ⟨_, _, y, houter, hy⟩, hd => by
      obtain ⟨z, hz, hlabel, hbound⟩ := hy.outward hd
      exact ⟨z, .succ houter hz, hlabel, hbound⟩

end World

/-! ## Uses while a program runs -/

namespace Machine

/-- The use that the next step evaluates. An assignment is evaluated when its value is there. -/
def use? (m : Machine) : Option Use :=
  match m.control, m.frames with
  | .eval (.ident use), _ => some ⟨.read, use⟩
  | .eval (.this use), _ => some ⟨.this, use⟩
  | .eval (.super use _), _ => some ⟨.super, use⟩
  | .complete (.normal _), .assign use :: _ => some ⟨.assign, use⟩
  | _, _ => none

/-- The use is evaluated in the scope `x` that is `d` links out. It was made for the nearest region
that has the name. -/
structure Reaches (labels : List Region) (m : Machine) (u : Use) (site : Site) (d : Nat)
    (x : ScopeId) : Prop where
  links : m.state.heap.Outward d m.state.scope x
  region : ∃ entry, site[d]? = some entry ∧ entry.2.has u.name = true ∧
    labels[x.index]? = some entry.1
  nearest : ∀ i, i < d → ∀ entry, site[i]? = some entry → entry.2.has u.name = false
  bound : u.kind ≠ .assign → (m.state.heap.bound? x u.name).isSome
  value : u.kind = .read ∨ u.kind = .this →
    ∃ v, m.state.heap.bound? x u.name = some v ∧ m.step = ⟨.complete (.normal v), m.frames, m.state⟩
  defined : u.kind ≠ .assign → ∀ name line,
    m.step.control ≠ .complete (.raised (.fault (.undefinedVariable name) line))
  assigned : ∀ v, u.kind = .assign → m.control = .complete (.normal v) →
    m.step = ⟨.complete (.normal v), m.frames.tail,
      { m.state with heap := m.state.heap.define x u.name v }⟩

/-- The use is evaluated at the top level, where the name need not be bound. -/
structure UsesGlobals (m : Machine) (u : Use) (site : Site) : Prop where
  nowhere : ∀ entry ∈ site, entry.2.has u.name = false
  kind : u.kind = .read ∨ u.kind = .assign
  value : u.kind = .read → m.step =
    match m.state.heap.bound? m.state.globals u.name with
    | some v => ⟨.complete (.normal v), m.frames, m.state⟩
    | none => ⟨.complete (.faultAt u.reference.name (.undefinedVariable u.name)), m.frames, m.state⟩
  assigned : ∀ v, u.kind = .assign → m.control = .complete (.normal v) → m.step =
    match m.state.heap.bound? m.state.globals u.name with
    | some _ => ⟨.complete (.normal v), m.frames.tail,
        { m.state with heap := m.state.heap.define m.state.globals u.name v }⟩
    | none =>
      ⟨.complete (.faultAt u.reference.name (.undefinedVariable u.name)), m.frames.tail, m.state⟩

/-! ## Evaluation with an address -/

variable {st : State} {use : Reference} {d : Nat} {x : ScopeId}

theorem lookup?_of_address (haddress : st.addresses[use.id]? = some d)
    (hx : st.heap.Outward d st.scope x) : st.lookup? use = st.heap.bound? x use.name.lexeme := by
  unfold State.lookup?
  rw [haddress]
  show st.heap.bound? (st.heap.ancestor st.scope d) _ = _
  rw [hx.ancestor]

theorem assign_of_address (haddress : st.addresses[use.id]? = some d)
    (hx : st.heap.Outward d st.scope x) (v : Value) :
    st.assign use v = (.normal v, { st with heap := st.heap.define x use.name.lexeme v }) := by
  unfold State.assign
  dsimp only
  rw [haddress]
  dsimp only [Heap.assignAt]
  rw [hx.ancestor]

theorem lookup?_of_none (haddress : st.addresses[use.id]? = none)
    (houter : (st.heap.scopeAt st.globals).outer = none) :
    st.lookup? use = st.heap.bound? st.globals use.name.lexeme := by
  unfold State.lookup?
  rw [haddress]
  exact Heap.lookup?_of_outermost houter _

theorem assign_of_none (haddress : st.addresses[use.id]? = none)
    (houter : (st.heap.scopeAt st.globals).outer = none) (v : Value) :
    st.assign use v =
      match st.heap.bound? st.globals use.name.lexeme with
      | some _ => (.normal v, { st with heap := st.heap.define st.globals use.name.lexeme v })
      | none => (.faultAt use.name (.undefinedVariable use.name.lexeme), st) := by
  unfold State.assign
  dsimp only
  rw [haddress]
  dsimp only
  rw [Heap.binder?_of_outermost houter]
  cases hbound : st.heap.bound? st.globals use.name.lexeme <;> simp

/-- If `super` and `this` are bound, then all that may be missing is the method. -/
theorem superMethod_of_bound {method : Token} {parent : ClassId} {o : ObjectId}
    (haddress : st.addresses[use.id]? = some d)
    (hsuper : st.heap.lookupAt? st.scope d "super" = some (.classObject parent))
    (hthis : st.heap.lookupAt? st.scope (d - 1) "this" = some (.object o)) :
    superMethod st use method =
      match st.heap.findMethod? parent method.lexeme with
      | some found => (.normal (.function (st.heap.bindMethod found o).1),
          { st with heap := (st.heap.bindMethod found o).2 })
      | none => (.faultAt method (.undefinedProperty method.lexeme), st) := by
  unfold superMethod
  cases hfound : st.heap.findMethod? parent method.lexeme <;>
    simp only [haddress, hsuper, hthis, hfound]

/-! ## Machines that fit -/

/-- The ways in which a machine comes to a use. -/
inductive Evaluates : Machine → Use → Prop where
  | read (use : Reference) (frames : List Frame) (st : State) :
      Evaluates ⟨.eval (.ident use), frames, st⟩ ⟨.read, use⟩
  | this (use : Reference) (frames : List Frame) (st : State) :
      Evaluates ⟨.eval (.this use), frames, st⟩ ⟨.this, use⟩
  | super (use : Reference) (method : Token) (frames : List Frame) (st : State) :
      Evaluates ⟨.eval (.super use method), frames, st⟩ ⟨.super, use⟩
  | assign (v : Value) (use : Reference) (frames : List Frame) (st : State) :
      Evaluates ⟨.complete (.normal v), .assign use :: frames, st⟩ ⟨.assign, use⟩

variable {Good : Use → Site → Prop} {labels : List Region} {m : Machine} {u : Use} {site : Site}

theorem evaluates (h : m.use? = some u) : m.Evaluates u := by
  obtain ⟨control, frames, st⟩ := m
  unfold use? at h
  dsimp only at h
  split at h <;> cases h <;> constructor

/-- A use is evaluated where the scopes are those of its site. -/
theorem Fits.exists_site (h : m.Fits Good labels) (hu : m.Evaluates u) :
    ∃ site, Good u site ∧ (m.state.world labels).Realises m.state.scope site := by
  obtain ⟨-, site, hcontrol, hframes⟩ := h
  cases hu with
  | read use frames st =>
      cases hcontrol with
      | eval hscope he => exact ⟨site, he _ (List.mem_singleton.mpr rfl), hscope⟩
  | this use frames st =>
      cases hcontrol with
      | eval hscope he => exact ⟨site, he _ (List.mem_singleton.mpr rfl), hscope⟩
  | super use method frames st =>
      cases hcontrol with
      | eval hscope he => exact ⟨site, he _ (List.mem_singleton.mpr rfl), hscope⟩
  | assign v use frames st =>
      cases hcontrol with
      | normal hscope hv =>
          cases hframes with
          | @cons _ inner _ _ _ hwithin hframe hrest =>
              cases hframe with
              | assign huse => exact ⟨inner, huse, hscope.within hwithin⟩

/-- The distance of `super` leads to the scope of a class with a superclass, and `this` is bound
just inside of it. -/
theorem super_bound {w : World} {x : ScopeId} {d : Nat} (h : w.Sound Good)
    (hscope : w.Stands x site.regions) (hd : site.SuperAt d) :
    (∃ parent, w.heap.lookupAt? x d "super" = some (.classObject parent)) ∧
      ∃ o, w.heap.lookupAt? x (d - 1) "this" = some (.object o) := by
  obtain ⟨inner, method, methods, rfl, hreceiver, hparent⟩ := hd
  obtain ⟨y, hy, hylabel⟩ := hscope.outward hparent
  obtain ⟨z, hz, hzlabel⟩ := hscope.outward hreceiver
  unfold Heap.lookupAt?
  rw [Nat.add_sub_cancel, hy.ancestor, hz.ancestor]
  exact ⟨h.parents y methods hylabel, h.receivers z method hzlabel⟩

/-- A use with an address reaches the scope that the walk has found. -/
theorem Fits.reaches {s : Session} {found : Scoping.Findings} (h : m.Fits Good labels) (hu : m.Evaluates u)
    (hscope : (m.state.world labels).Realises m.state.scope site) (hplace : s.Places found (u, site))
    (haddresses : m.state.addresses = s.state.addresses) {d : Nat}
    (hd : m.state.addresses[u.reference.id]? = some d) : ∃ x, m.Reaches labels u site d x := by
  have haddress : Scoping.addressOf? site.scopes u.name = some d := by
    rw [← hplace.address, ← haddresses, hd]
  obtain ⟨⟨entry, hentry, hhas⟩, hnearest⟩ := Site.nearest haddress
  obtain ⟨x, hx, hlabel, hready⟩ := hscope.outward hentry
  have hlookup : site.Ready u.name → (m.state.heap.bound? x u.name).isSome := by
    intro hname
    obtain ⟨entry', hentry', hlookup⟩ := hplace.used.lookup hname haddress
    obtain rfl : entry = entry' := Option.some.inj (hentry.symm.trans hentry')
    exact hready _ hlookup
  have hregion : ∃ entry, site[d]? = some entry ∧ entry.2.has u.name = true ∧
      labels[x.index]? = some entry.1 := ⟨entry, hentry, hhas, hlabel⟩
  -- reading a name that is ready
  have hread : site.Ready u.name → u.kind ≠ .assign →
      (∀ v, m.state.heap.bound? x u.name = some v →
        m.step = ⟨.complete (.normal v), m.frames, m.state⟩) → m.Reaches labels u site d x := by
    intro hname hkind hstep
    obtain ⟨v, hv⟩ := Option.isSome_iff_exists.mp (hlookup hname)
    refine ⟨hx, hregion, hnearest, fun _ => hlookup hname, fun _ => ⟨v, hv, hstep v hv⟩,
      fun _ name line hraised => ?_, fun v hassign => absurd hassign hkind⟩
    rw [hstep v hv] at hraised
    cases hraised
  refine ⟨x, ?_⟩
  cases hu with
  | read use frames st =>
      refine hread (hplace.ready rfl) (fun hkind => by cases hkind) fun v hv => ?_
      have hvalue : st.lookup? use = some v := (lookup?_of_address hd hx).trans hv
      show evaluate (.ident use) frames st = _
      simp only [evaluate, hvalue]
  | this use frames st =>
      have hname : Use.name ⟨.this, use⟩ = "this" := hplace.spelled
      refine hread (hname ▸ hplace.used.ready_this) (fun hkind => by cases hkind) fun v hv => ?_
      have hvalue : st.lookup? use = some v := (lookup?_of_address hd hx).trans hv
      show evaluate (.this use) frames st = _
      simp only [evaluate, hvalue]
  | super use method frames st =>
      have hname : Use.name ⟨.super, use⟩ = "super" := hplace.spelled
      rw [hname] at haddress
      obtain ⟨⟨parent, hsuper⟩, o, hthis⟩ :=
        super_bound h.sound hscope.stands (hplace.used.superAt haddress)
      have hbound : (st.heap.bound? x (Use.name ⟨.super, use⟩)).isSome := by
        rw [hname, ← hx.ancestor]
        exact Option.isSome_iff_exists.mpr ⟨_, hsuper⟩
      refine ⟨hx, hregion, hnearest, fun _ => hbound, fun hkind => ?_, fun _ name line hraised => ?_,
        fun _ hkind => by cases hkind⟩
      · rcases hkind with hkind | hkind <;> cases hkind
      · have hmethod : (superMethod st use method).1 ≠ .raised (.fault (.undefinedVariable name) line) := by
          rw [superMethod_of_bound hd hsuper hthis]
          split <;> exact fun hraised => by cases hraised
        exact hmethod (Control.complete.inj hraised)
  | assign v use frames st =>
      refine ⟨hx, hregion, hnearest, fun hkind => absurd rfl hkind, fun hkind => ?_,
        fun hkind => absurd rfl hkind, fun v' _ hv' => ?_⟩
      · rcases hkind with hkind | hkind <;> cases hkind
      · cases hv'
        have hassign : st.assign use v
            = (.normal v, { st with heap := st.heap.define x use.name.lexeme v }) :=
          assign_of_address hd hx v
        show continueWith (.assign use) v frames st = _
        simp only [continueWith, hassign]
        rfl

/-- A use without an address is one of a name of the top level. -/
theorem Fits.usesGlobals {s : Session} {found : Scoping.Findings} (h : m.Fits Good labels) (hu : m.Evaluates u)
    (hplace : s.Places found (u, site)) (haddresses : m.state.addresses = s.state.addresses)
    (hnone : m.state.addresses[u.reference.id]? = none) : m.UsesGlobals u site := by
  have haddress : Scoping.addressOf? site.scopes u.name = none := by
    rw [← hplace.address, ← haddresses, hnone]
  have houter := h.sound.globals.2
  have hnowhere := Site.nowhere haddress
  cases hu with
  | read use frames st =>
      have hvalue : st.lookup? use = st.heap.bound? st.globals use.name.lexeme :=
        lookup?_of_none hnone houter
      refine ⟨hnowhere, .inl rfl, fun _ => ?_, fun v hkind => by cases hkind⟩
      show evaluate (.ident use) frames st = _
      simp only [evaluate, hvalue]
      rfl
  | this use frames st =>
      -- the walk finds every `this` that it accepts in a scope around it
      have hname : Use.name ⟨.this, use⟩ = "this" := hplace.spelled
      have hlocated : site.Has "this" := hplace.located.this rfl
      rw [hname] at haddress
      rw [Site.Has, haddress] at hlocated
      cases hlocated
  | super use method frames st =>
      have hname : Use.name ⟨.super, use⟩ = "super" := hplace.spelled
      have hlocated : site.Has "super" := hplace.located.super rfl
      rw [hname] at haddress
      rw [Site.Has, haddress] at hlocated
      cases hlocated
  | assign v use frames st =>
      refine ⟨hnowhere, .inr rfl, fun hkind => (by cases hkind), fun v' _ hv' => ?_⟩
      cases hv'
      have hassign := assign_of_none hnone houter v
      dsimp only at hassign
      have hname : Use.name ⟨.assign, use⟩ = use.name.lexeme := rfl
      show continueWith (.assign use) v frames st = _
      simp only [continueWith, hassign, hname]
      cases st.heap.bound? st.globals use.name.lexeme <;> rfl

end Machine

/-- A machine that runs one of the programs, on scopes with these labels, agrees with the walks: the
use that it evaluates next stands in one of the programs, and the scopes are those that were made
for the regions around it. If the walk has found a distance for it, it reaches the scope at this
distance, and if none was found, it uses the top level. -/
def Machine.Agrees (programs : List (List Stmt)) (labels : List Region) (m : Machine) : Prop :=
  ∀ u, m.use? = some u → ∃ P ∈ programs, ∃ site, (u, site) ∈ Stmt.usesAll [] P ∧
    (m.state.world labels).Stands m.state.scope site.regions ∧
    (∀ d, (u.reference.id, d) ∈ (Scoping.ofProgram P).addresses →
      ∃ x, m.Reaches labels u site d x) ∧
    ((∀ d, (u.reference.id, d) ∉ (Scoping.ofProgram P).addresses) → m.UsesGlobals u site)

namespace Session

/-- **The walk and the running program agree on scopes.** In every session that comes about, a
program that is loaded agrees with the walks through it and through all programs that have run
before, however far it is run. Its scopes are labelled by what has happened so far. -/
theorem scopes_agree {s : Session} (h : s.Reached) :
    (∃ history, s.Traced history) ∧
      ∀ history, s.Traced history → ∀ (source : String) (P : List Stmt) (s₁ : Session) (m : Machine),
        (s.parse source).1 = .ok P → s.load source = (s₁, .ok m) → ∀ n : Nat,
        (history.labels ++ m.openedIn n).length = (m.run n).state.heap.scopes.size ∧
          (m.run n).Agrees (P :: history.programs) (history.labels ++ m.openedIn n) := by
  refine ⟨h.traced, fun history hs source P s₁ m hread hload n => ?_⟩
  obtain ⟨M, hsettled⟩ := h.settled
  cases Loads.of_load hload with
  | @loaded P' hread' hfaults =>
      obtain rfl : P = P' := Except.ok.inj (hread.symm.trans hread')
      obtain ⟨hfits, hplaces⟩ := hs.follows.loaded hsettled hread hfaults
      have hran := hfits.run (Use.Among.spelled hplaces) n
      have haddresses : ((Machine.ofProgram P (s.noted source P).state).run n).state.addresses
          = (s.noted source P).state.addresses := (Machine.run_setting n _).addresses
      refine ⟨hran.sound.length, fun u hu => ?_⟩
      have hevaluates := Machine.evaluates hu
      obtain ⟨site, ⟨Q, hQ, huse⟩, hscope⟩ := hran.exists_site hevaluates
      have hplace := hplaces Q hQ _ huse
      refine ⟨Q, hQ, site, huse, hscope.stands, fun d hd => ?_, fun hnone => ?_⟩
      · have haddress := hplace.address.trans ((hplace.recorded d).mp hd)
        rw [← haddresses] at haddress
        exact hran.reaches hevaluates hscope hplace haddresses haddress
      · have haddress : Scoping.addressOf? site.scopes u.name = none :=
          Option.eq_none_iff_forall_ne_some.mpr fun d hd => hnone d ((hplace.recorded d).mpr hd)
        have haddress := hplace.address.trans haddress
        rw [← haddresses] at haddress
        exact hran.usesGlobals hevaluates hplace haddresses haddress

/-- A function that is called after the run that made it has failed finds the variable around it. -/
theorem scopes_agree_survivor :
    ∃ (s : Session) (history : History) (P : List Stmt) (s₁ : Session) (m : Machine) (u : Use),
      (fresh .unlimited ⟨0⟩).run 30
          "fun f() \x7b var a; fun g() \x7b return a; \x7d return g; \x7d var h = f(); nil();"
        = some (s, .error (.runtime (.fault .notCallable 1))) ∧
      s.Traced history ∧ s.load "h();" = (s₁, .ok m) ∧ (m.run 7).use? = some u ∧
      u.kind = .read ∧ u.name = "a" ∧ s₁.state.addresses[u.reference.id]? = some 1 ∧
      (m.run 7).Agrees (P :: history.programs) (history.labels ++ m.openedIn 7) := by
  have hall : ((fresh .unlimited ⟨0⟩).run 30
      "fun f() \x7b var a; fun g() \x7b return a; \x7d return g; \x7d var h = f(); nil();").bind
        (fun answer => (answer.1.load "h();").2.toOption.bind fun m => (m.run 7).use?.map fun u =>
          (answer.2, u.kind, u.name, (answer.1.load "h();").1.state.addresses[u.reference.id]?))
      = some (.error (.runtime (.fault .notCallable 1)), .read, "a", some 1) := by
    cbv
  obtain ⟨⟨s, result⟩, hrun, hcall⟩ := Option.bind_eq_some_iff.mp hall
  have hreached : s.Reached := (Reached.fresh .unlimited ⟨0⟩).run hrun
  rcases hload : s.load "h();" with ⟨s₁, e | m⟩
  · rw [hload] at hcall
    cases hcall
  · rw [hload] at hcall
    obtain ⟨u, hu, hfacts⟩ := Option.map_eq_some_iff.mp hcall
    simp only [Prod.mk.injEq] at hfacts
    obtain ⟨rfl, hkind, hname, haddress⟩ := hfacts
    obtain ⟨history, htraced⟩ := (scopes_agree hreached).1
    cases Loads.of_load hload with
    | @loaded P hread hfaults =>
        have hagrees := (scopes_agree hreached).2 history htraced "h();" P _ _ hread hload 7
        exact ⟨s, history, P, _, _, u, hrun, htraced, hload, hu, hkind, hname, haddress,
          hagrees.2⟩

end Session

end Lox
