import Lox.Proofs.Bindings
import Lox.Proofs.Bookkeeping
import Lox.Proofs.Control.Sessions
import Lox.Proofs.Scopes.Agreement

/-!
# Locals do not leak

While a statement is executed many scopes come and go, but in those that were there before it can
bind only its own name, in the innermost one. What it binds elsewhere is bound in scopes that it has
made: a scope that is innermost in a block or a call that the statement has entered is new.

There is one way in which a name can get bound that no one has declared yet. An assignment in the
initial value of a variable of a block may be to the variable itself, and binds its name before the
declaration does.
-/

namespace Lox

open Scoping (FunctionContext)

/-! ## The name that a statement declares -/

namespace Leads

variable {Good : Use → Site → Prop} {target : Station} {c : FunctionContext} {d : Option String}
  {frames : List Frame}

/-- A body is left through its block or its call. -/
theorem not_body (h : Leads Good target ⟨c, .body⟩ frames)
    (hframes : ∀ frame ∈ frames, frame.opensScope = false)
    (htarget : target.position = .statement d) : False := by
  cases h with
  | nil hsuits =>
      obtain ⟨-, hposition | ⟨hposition, -⟩⟩ := hsuits
      · rw [htarget] at hposition
        exact nomatch hposition
      · exact nomatch hposition
  | cons hsuits hjoins hrest =>
      obtain ⟨-, hposition | ⟨hposition, -⟩⟩ := hsuits
      · cases hjoins with
        | block outer => exact nomatch hframes _ (List.mem_cons_self ..)
        | activation caller result => exact nomatch hframes _ (List.mem_cons_self ..)
        | _ => exact nomatch hposition
      · exact nomatch hposition

/-- Outside of blocks and calls, what is declared is what the statement declares. -/
theorem declares {name : String} (h : Leads Good target ⟨c, .statement (some name)⟩ frames)
    (hframes : ∀ frame ∈ frames, frame.opensScope = false)
    (htarget : target.position = .statement d) : d = some name := by
  cases h with
  | nil hsuits =>
      obtain ⟨-, hposition | ⟨hposition, -⟩⟩ := hsuits
      · rw [htarget] at hposition
        cases hposition
        rfl
      · exact nomatch hposition
  | cons hsuits hjoins hrest =>
      obtain ⟨-, hposition | ⟨hposition, -⟩⟩ := hsuits
      · cases hjoins with
        | sequence =>
            have hrest' := fun frame hframe => hframes frame (List.mem_cons_of_mem _ hframe)
            exact (hrest.not_body hrest' htarget).elim
        | program =>
            rw [hrest.program.2] at htarget
            exact nomatch htarget
        | _ => exact nomatch hposition
      · exact nomatch hposition

/-- Outside of blocks and calls, the name that is not ready is the one that the statement declares.
-/
theorem pending {name : String} : ∀ {frames : List Frame} {c : FunctionContext},
    Leads Good target ⟨c, .expression (some name)⟩ frames →
    (∀ frame ∈ frames, frame.opensScope = false) → target.position = .statement d → d = some name
  | [], _, .nil hsuits, _, htarget => by
      obtain ⟨-, hposition | ⟨hposition, -⟩⟩ := hsuits
      · rw [htarget] at hposition
        exact nomatch hposition
      · exact nomatch hposition
  | frame :: frames, _, .cons hsuits hjoins hrest, hframes, htarget => by
      have hrest' := fun frame hframe => hframes frame (List.mem_cons_of_mem _ hframe)
      obtain ⟨hcontext, hposition | ⟨hposition, -⟩⟩ := hsuits
      · cases hjoins with
        | define n =>
            cases hposition
            exact hrest.declares hrest' htarget
        | _ =>
            -- what can be waited for at all goes on in the same expression
            cases hposition <;> exact hrest.pending hrest' htarget
      · exact nomatch hposition

end Leads

/-! ## Assignments -/

theorem Site.Used.pends {site : Site} (h : site.Used) : ∃ pending, site.Pends pending := by
  rcases h with h | ⟨outer, name, h, -, rfl⟩
  · exact ⟨none, h.pends⟩
  · exact ⟨some name, h.pends_declare name⟩

/-- The scope of a region has an outer one, so it is not the top level. -/
theorem World.Realises.ne_globals {w : World} {x : ScopeId} {entry : Region × Scoping.Frame}
    {outer : Site} (h : w.Realises x (entry :: outer))
    (houter : (w.heap.scopeAt w.globals).outer = none) : x ≠ w.globals := by
  obtain ⟨-, -, y, hy, -⟩ := h
  rintro rfl
  exact nomatch houter.symm.trans hy

namespace Machine

variable {s : Session} {programs : List (List Stmt)}

/-- **An assignment binds a new name only in the initial value of that name.** It is bound in the
innermost scope then, and this is not the top level. -/
theorem Belongs.assign {m : Machine} (h : m.Belongs s programs) {v : Value} {use : Reference}
    {frames : List Frame} (hcontrol : m.control = .complete (.normal v))
    (hframes : m.frames = .assign use :: frames) {x : ScopeId}
    (hbefore : ¬ (m.state.heap.bound? x use.name.lexeme).isSome)
    (hafter : (m.step.state.heap.bound? x use.name.lexeme).isSome) :
    x = m.state.scope ∧ x ≠ m.state.globals ∧
      ∃ site entry, Use.Among programs ⟨.assign, use⟩ site ∧ site[0]? = some entry ∧
        entry.2.lookup use.name.lexeme = some false := by
  obtain ⟨control, allFrames, st⟩ := m
  dsimp only at hcontrol hframes
  subst hcontrol hframes
  obtain ⟨labels, hfits⟩ := h.fits
  obtain ⟨site, hsite, hscope⟩ := hfits.exists_site (.assign v use frames st)
  obtain ⟨P, hP, hu⟩ := id hsite
  have hplace := h.places P hP _ hu
  have houter := hfits.sound.globals.2
  have haddresses : st.addresses[use.id]? = Scoping.addressOf? site.scopes use.name.lexeme := by
    rw [show st.addresses = s.state.addresses from h.addresses]
    exact hplace.address
  have hstep : (step ⟨.complete (.normal v), .assign use :: frames, st⟩).state
      = (st.assign use v).2 := rfl
  rw [hstep] at hafter
  cases haddress : Scoping.addressOf? site.scopes use.name.lexeme with
  | none =>
      -- a name without an address is given a value only if it has one
      have hassign := assign_of_none (haddresses.trans haddress) houter v
      rw [hassign] at hafter
      cases hbound : st.heap.bound? st.globals use.name.lexeme with
      | none =>
          rw [hbound] at hafter
          exact absurd hafter hbefore
      | some old =>
          rw [hbound] at hafter
          obtain ⟨rfl, -⟩ := st.heap.eq_of_bound?_define hbefore hafter
          exact absurd (hbound ▸ rfl) hbefore
  | some distance =>
      obtain ⟨⟨entry, hentry, hhas⟩, -⟩ := Site.nearest haddress
      obtain ⟨y, hy, -, hready⟩ := hscope.outward hentry
      rw [assign_of_address (haddresses.trans haddress) hy v] at hafter
      obtain ⟨rfl, -⟩ := st.heap.eq_of_bound?_define hbefore hafter
      obtain ⟨ready, hlookup⟩ := Option.isSome_iff_exists.mp hhas
      cases ready with
      | true => exact absurd (hready _ hlookup) hbefore
      | false =>
          -- it is the one name that is not ready, so its region is the innermost one
          obtain ⟨pending, hpends⟩ := hplace.used.pends
          obtain ⟨rfl, -⟩ := hpends distance entry _ hentry hlookup
          cases hy
          refine ⟨rfl, ?_, site, entry, hsite, hentry, hlookup⟩
          cases site with
          | nil => exact nomatch hentry
          | cons first outer => exact hscope.ne_globals houter

/-! ## Declarations -/

/-- What is declared next is what the frames wait for. -/
theorem Flows.declaring {Good : Use → Site → Prop} {target : Station} {m : Machine}
    (h : m.Flows Good target) {t : Token} (ht : m.declaring? = some t) :
    ∃ (c : FunctionContext) (frames : List Frame), frames ⊆ m.frames ∧
      Leads Good target ⟨c, .statement (some t.lexeme)⟩ frames := by
  obtain ⟨control, frames, st⟩ := m
  obtain ⟨-, station, hcontrol, hframes⟩ := h
  unfold declaring? at ht
  dsimp only at ht hcontrol hframes
  split at ht
  · cases hcontrol with
    | @exec c _ hs =>
        rw [ht] at hframes
        exact ⟨c, frames, List.Subset.refl _, hframes⟩
  · cases ht
    cases hframes with
    | cons _ hjoins hrest =>
        cases hjoins with
        | @define c _ => exact ⟨c, _, List.subset_cons_self _ _, hrest⟩
  · cases ht
    cases hframes with
    | cons _ hjoins hrest =>
        cases hjoins with
        | @superclass c _ _ _ _ => exact ⟨c, _, List.subset_cons_self _ _, hrest⟩
  · exact nomatch ht

/-- A part of a run, on its way to the end of a statement: what its next step binds in a scope that
was there before is the name of the statement, in the scope that was innermost. -/
theorem Belongs.binds {part : Machine} {base : List Frame} (h : (part.above base).Belongs s programs)
    {root : ScopeId} {depth size : Nat} (hunwinds : part.Unwinds root depth size)
    {c : FunctionContext} {d : Option String}
    (hflows : part.Flows (Use.Among programs) ⟨c, .statement d⟩) (hrunning : part.result? = none)
    (hsize : size ≤ part.state.heap.scopes.size) {x : ScopeId} (hx : x.index < size) {name : String}
    (hafter : (part.step.state.heap.bound? x name).isSome) :
    (part.state.heap.bound? x name).isSome ∨ (x = root ∧ d = some name) := by
  by_cases hbefore : (part.state.heap.bound? x name).isSome
  · exact .inl hbefore
  · refine .inr ?_
    rcases part.step_binds (Nat.lt_of_lt_of_le hx hsize) name with hsame | hbinds
    · rw [hsame] at hafter
      exact absurd hafter hbefore
    · cases hbinds with
      | @declares t ht hname hscope =>
          -- the innermost scope was there before, so no block and no call has been entered
          rw [hscope] at hx ⊢
          obtain ⟨hroot, hopens⟩ := hunwinds.old hx
          obtain ⟨context, frames, hsubset, hleads⟩ := hflows.declaring ht
          subst hname
          exact ⟨hroot, hleads.declares (fun frame hframe => hopens frame (hsubset hframe)) rfl⟩
      | @assigns v use frames hcontrol hframes hname =>
          subst hname
          have hframes' : (part.above base).frames = .assign use :: (frames ++ base) := by
            show part.frames ++ base = _
            rw [hframes]
            rfl
          have hafter' : ((part.above base).step.state.heap.bound? x use.name.lexeme).isSome := by
            rw [step_above base hrunning]
            exact hafter
          obtain ⟨hscope, -, site, entry, hsite, hentry, hlookup⟩ :=
            h.assign hcontrol hframes' hbefore hafter'
          have hscope : x = part.state.scope := hscope
          rw [hscope] at hx ⊢
          obtain ⟨hroot, hopens⟩ := hunwinds.old hx
          refine ⟨hroot, ?_⟩
          -- the assignment stands where the name is not ready, and this is one place only
          obtain ⟨-, station, -, hleads⟩ := hflows
          rw [hframes] at hleads hopens
          cases hleads with
          | cons _ hjoins hrest =>
              cases hjoins with
              | assign huse =>
                  obtain ⟨site', hpends, hsite'⟩ := huse
                  obtain rfl := h.unique _ _ _ hsite hsite'
                  obtain ⟨-, rfl⟩ := hpends 0 entry _ hentry hlookup
                  exact hrest.pending (fun frame hframe =>
                    hopens frame (List.mem_cons_of_mem _ hframe)) rfl

/-- As long as a statement is executed, it binds at most its own name in the scopes that were there
before, and that in the scope that was innermost. -/
theorem Belongs.statement {m : Machine} (h : ∀ j, (m.run j).Belongs s programs) {stmt : Stmt}
    (hexec : m.control = .exec stmt) {k : Nat} (hstays : m.StaysAbove m.frames k) {x : ScopeId}
    (hx : x.index < m.state.heap.scopes.size) {name : String}
    (hafter : ((m.run k).state.heap.bound? x name).isSome) :
    (m.state.heap.bound? x name).isSome ∨ (x = m.state.scope ∧
      (Scoping.declaredName? stmt).map Token.lexeme = some name) := by
  -- the statement runs as it does by itself
  have hpart := m.alone_above
  have hstarts : ∃ c, m.alone.Flows (Use.Among programs)
      ⟨c, .statement ((Scoping.declaredName? stmt).map Token.lexeme)⟩ := by
    obtain ⟨hheap, station, hcontrol, -⟩ := (h 0).flows
    have hcontrol : m.control.At (Use.Among programs) station := hcontrol
    rw [hexec] at hcontrol
    cases hcontrol with
    | @exec c _ hs =>
        refine ⟨c, hheap, _, ?_, .nil (.refl _)⟩
        show m.control.At _ _
        rw [hexec]
        exact .exec hs
  obtain ⟨c, hstarts⟩ := hstarts
  have hbegun : m.alone.Unwinds m.state.scope m.state.depth m.state.heap.scopes.size := .nil
  rw [← hpart] at hstays
  have key : ∀ j, j ≤ k → ((m.alone.run j).state.heap.bound? x name).isSome →
      (m.state.heap.bound? x name).isSome ∨ (x = m.state.scope ∧
        (Scoping.declaredName? stmt).map Token.lexeme = some name) := by
    intro j
    induction j with
    | zero => exact fun _ hbound => .inl hbound
    | succ j ih =>
        intro hj hbound
        rw [run_succ_last] at hbound
        have hbelongs : ((m.alone.run j).above m.frames).Belongs s programs := by
          rw [← (hstays.mono (Nat.le_of_succ_le hj)).run, hpart]
          exact h j
        have hunwinds := hbegun.run j (Nat.le_refl _)
        have hsize : m.state.heap.scopes.size ≤ (m.alone.run j).state.heap.scopes.size :=
          (run_grows j m.alone).scopes_size
        rcases hbelongs.binds hunwinds (hstarts.run j) (hstays.running j hj) hsize hx hbound
          with hbefore | hdeclared
        · exact ih (Nat.le_of_succ_le hj) hbefore
        · exact .inr hdeclared
  have hrun := hstays.run
  rw [hpart] at hrun
  rw [hrun] at hafter
  exact key k (Nat.le_refl k) hafter

end Machine

namespace Session

/-- **Locals do not leak.** While a statement is executed, with all that it calls, until it has ended
in whatever way, the scopes that were there before go on to bind what they have bound, and nothing
else but for the name that the statement itself declares, in the scope that was innermost. And no
assignment binds a new name at the top level. -/
theorem locals_do_not_leak {s s₁ : Session} (h : s.Reached) {source : String} {m : Machine}
    (hload : s.load source = (s₁, .ok m)) (n : Nat) :
    (∀ (stmt : Stmt) (k : Nat), (m.run n).control = .exec stmt →
      (m.run n).StaysAbove (m.run n).frames k →
      ∀ (x : ScopeId) (name : String), x.index < (m.run n).state.heap.scopes.size →
        (((m.run n).state.heap.bound? x name).isSome →
          (((m.run n).run k).state.heap.bound? x name).isSome) ∧
        ((((m.run n).run k).state.heap.bound? x name).isSome →
          ((m.run n).state.heap.bound? x name).isSome ∨
            (x = (m.run n).state.scope ∧
              ∃ t, Scoping.declaredName? stmt = some t ∧ t.lexeme = name))) ∧
      ∀ (v : Value) (use : Reference) (frames : List Frame),
        (m.run n).control = .complete (.normal v) → (m.run n).frames = .assign use :: frames →
        ∀ name, ((m.run n).step.state.heap.bound? (m.run n).state.globals name).isSome →
          ((m.run n).state.heap.bound? (m.run n).state.globals name).isSome := by
  obtain ⟨programs, hbelongs⟩ := h.belongs hload
  refine ⟨fun stmt k hexec hstays x name hx => ⟨fun hbefore => ?_, fun hafter => ?_⟩,
    fun v use frames hcontrol hframes name hafter => ?_⟩
  · exact (Machine.run_grows k (m.run n)).bound hbefore
  · have hlater : ∀ j, ((m.run n).run j).Belongs s₁ programs := by
      intro j
      rw [← Machine.run_add]
      exact hbelongs (n + j)
    rcases Machine.Belongs.statement hlater hexec hstays hx hafter with hbefore | ⟨hscope, hname⟩
    · exact .inl hbefore
    · obtain ⟨t, ht, hlexeme⟩ := Option.map_eq_some_iff.mp hname
      exact .inr ⟨hscope, t, ht, hlexeme⟩
  · by_cases hname : use.name.lexeme = name
    · by_cases hbefore : ((m.run n).state.heap.bound? (m.run n).state.globals name).isSome
      · exact hbefore
      · subst hname
        have hnew := (hbelongs n).assign hcontrol hframes hbefore hafter
        exact absurd rfl hnew.2.1
    · -- other names are not looked at
      obtain ⟨labels, hfits⟩ := (hbelongs n).fits
      have hglobals : (m.run n).state.globals.index < (m.run n).state.heap.scopes.size :=
        hfits.sound.index_lt hfits.sound.globals.1
      rcases (m.run n).step_binds hglobals name with hsame | hbinds
      · rw [← hsame]
        exact hafter
      · cases hbinds with
        | declares ht =>
            unfold Machine.declaring? at ht
            rw [hcontrol, hframes] at ht
            exact nomatch ht
        | assigns hcontrol' hframes' hname' =>
            rw [hframes] at hframes'
            cases hframes'
            exact absurd hname' hname

/-- A variable that its own initial value binds before the value turns out to be none. -/
theorem locals_do_not_leak_ownInitializer :
    ∃ (s₁ : Session) (m : Machine) (stmt : Stmt) (k : Nat) (f : Failure),
      (fresh .unlimited ⟨0⟩).load "\x7b var a = (a = nil) + nil; \x7d" = (s₁, .ok m) ∧
      (m.run 3).control = .exec stmt ∧ (m.run 3).Ends (m.run 3).frames k (.raised f) ∧
      ((m.run 3).state.heap.bound? (m.run 3).state.scope "a").isSome = false ∧
      (((m.run 3).run k).state.heap.bound? (m.run 3).state.scope "a").isSome = true ∧
      ∃ t, Scoping.declaredName? stmt = some t ∧ t.lexeme = "a" := by
  have hall : ((fresh .unlimited ⟨0⟩).load "\x7b var a = (a = nil) + nil; \x7d").2.toOption.map
      (fun m => ((m.run 3).control, ((m.run 3).alone.run 20).result?,
        decide ((m.run 3).state.scope.index < (m.run 3).state.heap.scopes.size),
        ((m.run 3).state.heap.bound? (m.run 3).state.scope "a").isSome,
        (((m.run 3).alone.run 20).state.heap.bound? (m.run 3).state.scope "a").isSome))
      = some (.exec (.variableDecl ⟨.identifier, "a", 1⟩ (some (.binary
            (.grouping (.assign ⟨1, ⟨.identifier, "a", 1⟩⟩ (.literal .nil)))
            ⟨.symbol .plus, "+", 1⟩ (.literal .nil)))),
          some (.raised (.fault .operandsNotAddable 1)), true, false, true) := by
    cbv
  rcases hload : (fresh .unlimited ⟨0⟩).load "\x7b var a = (a = nil) + nil; \x7d" with ⟨s₁, e | m⟩
  · rw [hload] at hall
    cases hall
  · rw [hload] at hall
    simp only [Except.toOption, Option.map_some, Option.some.injEq, Prod.mk.injEq,
      decide_eq_true_eq] at hall
    obtain ⟨hexec, hended, hx, hbefore, hafter⟩ := hall
    obtain ⟨k, hends, hrun⟩ := Machine.exists_ends_part hended
    have hafter' : (((m.run 3).run k).state.heap.bound? (m.run 3).state.scope "a").isSome
        = true := by
      rw [hrun]
      exact hafter
    have hleak := (locals_do_not_leak (Reached.fresh .unlimited ⟨0⟩) hload 3).1 _ k hexec
      hends.running (m.run 3).state.scope "a" hx
    rcases hleak.2 hafter' with hbound | ⟨-, hdeclared⟩
    · rw [hbound] at hbefore
      cases hbefore
    · exact ⟨s₁, m, _, k, _, rfl, hexec, hends, hbefore, hafter', hdeclared⟩

end Session

end Lox
