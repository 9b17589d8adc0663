import Lox.Proofs.Control.Steps
import Lox.Proofs.Scopes.Histories

/-!
# Programs that run in a session

What a session has on its heap comes from the programs that it has run, and all of these keep to the
rules. So the program that it loads next does too, and every use that it comes by stands in one of the
programs, at a single site.
-/

namespace Lox

namespace Session

variable {s : Session} {history : History}

/-- What a fresh state has, what only depends on the heap and on which scopes are the top level and
the innermost, and what every program keeps that has been loaded, holds in every session. -/
theorem Traced.keeps {I : History → State → Prop} (h : s.Traced history)
    (hfresh : ∀ output clock, I ⟨[], [.top]⟩ (State.initial output clock))
    (hsame : ∀ history (st st' : State), st'.heap = st.heap → st'.globals = st.globals →
      st'.scope = st.scope → I history st → I history st')
    (hran : ∀ (s : Session) history source P limit c, s.Traced history → I history s.state →
      (Source.read source s.nextId).result = .ok P → (Scoping.ofProgram P).faults = [] →
      ((Machine.ofProgram P (s.noted source P).state).run limit).result? = some c →
      I ⟨P :: history.programs,
          history.labels ++ (Machine.ofProgram P (s.noted source P).state).openedIn limit⟩
        ((Machine.ofProgram P (s.noted source P).state).run limit).state) :
    I history s.state := by
  induction h with
  | fresh output clock => exact hfresh output clock
  | @rejected s s' history source e _ hload ih =>
      cases Loads.of_load hload with
      | unread => exact ih
      | unscoped => exact hsame history s.state _ rfl rfl rfl ih
  | @ran s s₁ history source P m limit c hs hread hload hc ih =>
      cases Loads.of_load hload with
      | @loaded Q hread' hfaults =>
          obtain rfl : P = Q := Except.ok.inj (hread.symm.trans hread')
          have hkept := hran s history source P limit c hs ih hread' hfaults hc
          -- a failure is reported, and the state is kept all the same
          cases c <;> exact hkept
  | parse source _ ih => exact ih
  | resetErrors _ ih => exact ih
  | @host s history output clock _ ih => exact hsame history s.state _ rfl rfl rfl ih

/-! ## Rules -/

theorem orderly_empty (Good : Use → Site → Prop) (h : Heap) (hfunctions : h.functions = #[])
    (hclasses : h.classes = #[]) : h.Orderly Good := by
  have hat : ∀ f, h.functionAt f = ⟨.mk ⟨.eof, "", 0⟩ [] [], ⟨0⟩, false⟩ := by
    intro f
    rw [Heap.functionAt, hfunctions]
    rfl
  refine ⟨fun f => ?_, fun c name f hf => ?_⟩
  · rw [hat]
    refine ⟨.function, by decide, ⟨by decide, by decide⟩, trivial, trivial, [], .function .top, ?_, ?_⟩
    · exact List.forall_mem_nil _
    · intro t ht
      rw [List.mem_singleton.mp ht]
      exact ⟨by decide, by decide⟩
  · rw [Heap.classAt, hclasses] at hf
    simp at hf

/-- A program without faults keeps to the rules of the top level. -/
theorem program_orderly {source : String} {P : List Stmt} {k : Nat}
    (hread : (Source.read source k).result = .ok P) (hfaults : (Scoping.ofProgram P).faults = [])
    (programs : List (List Stmt)) :
    Stmt.AllOrderly (Use.Among (P :: programs)) .none P where
  branching := (Source.read_derives hread).branching
  returning := Scoping.ofStmts_returning P hfaults
  site := ⟨[], .top, fun _ hp => ⟨P, List.mem_cons_self .., hp⟩, (Source.read_spelled hread).2⟩

end Session

/-! ### With more programs there are more uses -/

section

variable {Good Good' : Use → Site → Prop} (himp : ∀ u site, Good u site → Good' u site)

include himp

theorem Heap.Orderly.imp {h : Heap} (ho : h.Orderly Good) : h.Orderly Good' := by
  refine ⟨fun f => ?_, ho.methods⟩
  obtain ⟨context, hcontext, hinitializer, hbranching, hreturning, site, hsite, huses, hnames⟩ :=
    ho.functions f
  exact ⟨context, hcontext, hinitializer, hbranching, hreturning, site, hsite,
    fun p hp => himp _ _ (huses p hp), hnames⟩

end

theorem Use.Among.cons {programs : List (List Stmt)} (P : List Stmt) (u : Use) (site : Site)
    (h : Use.Among programs u site) : Use.Among (P :: programs) u site := by
  obtain ⟨Q, hQ, hu⟩ := h
  exact ⟨Q, List.mem_cons_of_mem _ hQ, hu⟩

namespace Session

variable {s : Session} {history : History} {source : String} {P : List Stmt}

/-- A program that is loaded on such a heap keeps to its rules. -/
theorem ofProgram_flows {st : State} (ho : st.heap.Orderly (Use.Among history.programs)) {k : Nat}
    (hread : (Source.read source k).result = .ok P) (hfaults : (Scoping.ofProgram P).faults = []) :
    (Machine.ofProgram P st).Flows (Use.Among (P :: history.programs)) ⟨.none, .program⟩ := by
  have hprogram := program_orderly hread hfaults history.programs
  have hend : Leads (Use.Among (P :: history.programs)) ⟨.none, .program⟩ ⟨.none, .program⟩ [] :=
    .nil (.refl _)
  have hframes : Leads (Use.Among (P :: history.programs)) ⟨.none, .program⟩
      ⟨.none, .statement none⟩ [.program P] := hend.push (.program hprogram)
  exact ⟨ho.imp (Use.Among.cons P), _, .normal .nil _, hframes⟩

theorem Traced.orderly (h : s.Traced history) :
    s.state.heap.Orderly (Use.Among history.programs) := by
  refine h.keeps (I := fun history st => st.heap.Orderly (Use.Among history.programs)) ?_ ?_ ?_
  · intro output clock
    exact orderly_empty _ _ rfl rfl
  · intro history st st' hheap _ _ ho
    rw [hheap]
    exact ho
  · intro s history source P limit c _ ho hread hfaults _
    have hloaded : (s.noted source P).state.heap.Orderly (Use.Among history.programs) := ho
    exact ((ofProgram_flows hloaded hread hfaults).run limit).heap

/-- **A program that a session loads keeps to the rules of its places.** -/
theorem Traced.flows (h : s.Traced history) (hread : (Source.read source s.nextId).result = .ok P)
    (hfaults : (Scoping.ofProgram P).faults = []) (n : Nat) :
    ((Machine.ofProgram P (s.noted source P).state).run n).Flows
      (Use.Among (P :: history.programs)) ⟨.none, .program⟩ := by
  have hloaded : (s.noted source P).state.heap.Orderly (Use.Among history.programs) := h.orderly
  exact (ofProgram_flows hloaded hread hfaults).run n

/-! ## Sites -/

/-- A use in a program that was just read stands in none of the earlier ones. -/
theorem Traced.unique_cons (h : s.Traced history)
    (hread : (Source.read source s.nextId).result = .ok P)
    (hunique : ∀ u site site', Use.Among history.programs u site →
      Use.Among history.programs u site' → site = site') (u : Use) (site site' : Site)
    (hsite : Use.Among (P :: history.programs) u site)
    (hsite' : Use.Among (P :: history.programs) u site') : site = site' := by
  have hnumbered := Source.read_numbered hread
  rw [← Stmt.references_usesAll []] at hnumbered
  have hnew : ∀ site, (u, site) ∈ Stmt.usesAll [] P → s.nextId ≤ u.reference.id :=
    fun site hu => (hnumbered.bounded _ (List.mem_map_of_mem hu)).1
  have hold : ∀ Q ∈ history.programs, ∀ site, (u, site) ∈ Stmt.usesAll [] Q →
      u.reference.id < s.nextId :=
    fun Q hQ site hu => (h.follows.places Q hQ _ hu).numbered
  obtain ⟨Q, hQ, hu⟩ := hsite
  obtain ⟨Q', hQ', hu'⟩ := hsite'
  -- the program has numbers of its own, from `nextId` on
  rcases List.mem_cons.mp hQ with rfl | hearlier
  · rcases List.mem_cons.mp hQ' with rfl | hearlier'
    · exact congrArg Prod.snd (Use.eq_of_id hnumbered.nodup hu hu' rfl)
    · have hge := hnew site hu
      have hlt := hold Q' hearlier' site' hu'
      omega
  · rcases List.mem_cons.mp hQ' with rfl | hearlier'
    · have hge := hnew site' hu'
      have hlt := hold Q hearlier site hu
      omega
    · exact hunique u site site' ⟨Q, hearlier, hu⟩ ⟨Q', hearlier', hu'⟩

/-- Every use in the programs of a session stands at a single site. -/
theorem Traced.unique (h : s.Traced history) (u : Use) (site site' : Site)
    (hsite : Use.Among history.programs u site) (hsite' : Use.Among history.programs u site') :
    site = site' := by
  revert u site site'
  refine h.keeps (I := fun history _ => ∀ u site site', Use.Among history.programs u site →
    Use.Among history.programs u site' → site = site') ?_ ?_ ?_
  · rintro output clock u site site' ⟨Q, hQ, -⟩
    exact nomatch hQ
  · exact fun _ _ _ _ _ _ hunique => hunique
  · intro s history source P limit c hs hunique hread _ _
    exact hs.unique_cons hread hunique

end Session

/-! ## Machines -/

/-- The machine runs one of these programs in the session, and keeps up all that is known of it. -/
structure Machine.Belongs (s : Session) (programs : List (List Stmt)) (m : Machine) : Prop where
  fits : ∃ labels, m.Fits (Use.Among programs) labels
  flows : m.Flows (Use.Among programs) ⟨.none, .program⟩
  addresses : m.state.addresses = s.state.addresses
  places : ∀ P ∈ programs, ∀ p ∈ Stmt.usesAll [] P, s.Places (Scoping.ofProgram P) p
  unique : ∀ u site site', Use.Among programs u site → Use.Among programs u site' → site = site'

namespace Session

theorem Traced.belongs {s : Session} {history : History} (h : s.Traced history) {source : String}
    {P : List Stmt} (hread : (Source.read source s.nextId).result = .ok P)
    (hfaults : (Scoping.ofProgram P).faults = []) (n : Nat) :
    ((Machine.ofProgram P (s.noted source P).state).run n).Belongs (s.noted source P)
      (P :: history.programs) := by
  obtain ⟨M, hsettled⟩ := h.reached.settled
  obtain ⟨hfits, hplaces⟩ := h.follows.loaded hsettled hread hfaults
  exact ⟨⟨_, hfits.run (Use.Among.spelled hplaces) n⟩, h.flows hread hfaults n,
    (Machine.run_setting n _).addresses, hplaces, h.unique_cons hread h.unique⟩

/-- **Whatever a program has come to that a session has loaded, it belongs to the session.** -/
theorem Reached.belongs {s s₁ : Session} (h : s.Reached) {source : String} {m : Machine}
    (hload : s.load source = (s₁, .ok m)) : ∃ programs, ∀ n, (m.run n).Belongs s₁ programs := by
  obtain ⟨history, hs⟩ := h.traced
  cases Loads.of_load hload with
  | loaded hread hfaults => exact ⟨_, hs.belongs hread hfaults⟩

end Session

end Lox
