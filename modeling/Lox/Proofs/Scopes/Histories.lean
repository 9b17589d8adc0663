import Lox.Proofs.Scopes.Runs
import Lox.Proofs.Sessions.Settled

/-!
# What has run in a session

The history of a session are the programs that have run in it, and the regions that all scopes on
its heap were made for. Every use in these programs has the address that the walk has found for it,
and everything on the heap realises the site that it comes from, however its run has ended.
-/

namespace Lox

/-! ## Noting addresses -/

theorem Use.numbers_eq (uses : List (Use × Site)) :
    uses.filterMap (fun p => some p.1.reference.id)
      = (uses.map Use.placedReference).map Reference.id := by
  rw [List.map_map]
  exact congrFun (List.filterMap_eq_map (f := fun p : Use × Site => p.1.reference.id)) uses

theorem Use.number_of_entry (p : Use × Site) (entry : Nat × Nat) (h : Use.entry? p = some entry) :
    some p.1.reference.id = some entry.1 := by
  obtain ⟨d, -, rfl⟩ := Option.map_eq_some_iff.mp h
  rfl

theorem Use.entry?_eq_some_iff (p : Use × Site) (d : Nat) :
    Use.entry? p = some (p.1.reference.id, d) ↔ Scoping.addressOf? p.2.scopes p.1.name = some d := by
  simp [Use.entry?]

section

variable {uses : List (Use × Site)} (hnodup : ((uses.map Use.placedReference).map Reference.id).Nodup)

include hnodup

/-- If no number is used twice, every use gets the address that was found for it. -/
theorem State.noteAddresses_uses {st : State}
    (hnone : ∀ p ∈ uses, st.addresses[p.1.reference.id]? = none) :
    ∀ p ∈ uses, (st.noteAddresses (uses.filterMap Use.entry?)).addresses[p.1.reference.id]?
      = Scoping.addressOf? p.2.scopes p.1.name := by
  intro p hp
  rw [← Use.numbers_eq] at hnodup
  exact Option.ext fun d => (noteAddresses_entries Use.number_of_entry hnodup hp rfl (hnone p hp) d).trans
    (Use.entry?_eq_some_iff p d)

/-- Two uses with the same number are the same use. -/
theorem Use.eq_of_id {p q : Use × Site} (hp : p ∈ uses) (hq : q ∈ uses)
    (hid : p.1.reference.id = q.1.reference.id) : p = q := by
  rw [← Use.numbers_eq] at hnodup
  exact eq_of_number hnodup hp hq rfl (congrArg some hid.symm)

/-- The entries that were found for a use are what is found for it. -/
theorem Use.mem_entries {p : Use × Site} (hp : p ∈ uses) (d : Nat) :
    (p.1.reference.id, d) ∈ uses.filterMap Use.entry? ↔
      Scoping.addressOf? p.2.scopes p.1.name = some d := by
  rw [← Use.numbers_eq] at hnodup
  exact (Lox.mem_entries Use.number_of_entry hnodup hp rfl d).trans (Use.entry?_eq_some_iff p d)

end

/-! ## Histories -/

/-- The use stands at the site in one of the programs. -/
def Use.Among (programs : List (List Stmt)) (u : Use) (site : Site) : Prop :=
  ∃ P ∈ programs, (u, site) ∈ Stmt.usesAll [] P

namespace Session

/-- The programs that have run, the latest first, and the regions that scopes were made for. -/
structure History where
  programs : List (List Stmt)
  labels : List Region

/-- The sessions that come about with a history. A run adds its program, and the regions of all
scopes that it has made before it ended. -/
inductive Traced : Session → History → Prop where
  | fresh (output : Sink) (clock : Clock) : Traced (fresh output clock) ⟨[], [.top]⟩
  | rejected {s s' : Session} {history : History} {source : String} {e : RunError} :
      Traced s history → s.load source = (s', .error e) → Traced s' history
  | ran {s s₁ : Session} {history : History} {source : String} {P : List Stmt} {m : Machine}
      {limit : Nat} {c : Completion} :
      Traced s history → (s.parse source).1 = .ok P → s.load source = (s₁, .ok m) →
      (m.run limit).result? = some c →
      Traced (s₁.conclude c (m.run limit).state).1
        ⟨P :: history.programs, history.labels ++ m.openedIn limit⟩
  | parse {s : Session} {history : History} (source : String) :
      Traced s history → Traced (s.parse source).2 history
  | resetErrors {s : Session} {history : History} :
      Traced s history → Traced s.resetErrors history
  | host {s : Session} {history : History} (output : Sink) (clock : Clock) :
      Traced s history → Traced { s with state := { s.state with output, clock } } history

/-- Every session that comes about has a history. -/
theorem Reached.traced {s : Session} (h : s.Reached) : ∃ history, s.Traced history := by
  induction h with
  | fresh output clock => exact ⟨_, .fresh output clock⟩
  | @run s s' limit source result _ hrun ih =>
      obtain ⟨history, hs⟩ := ih
      rcases run_eq_some_iff.mp hrun with ⟨e, hload, -⟩ | ⟨s₁, m, c, hload, hc, rfl, -⟩
      · exact ⟨history, hs.rejected hload⟩
      · cases Loads.of_load hload with
        | loaded hread hfaults => exact ⟨_, hs.ran hread hload hc⟩
  | parse _ ih =>
      obtain ⟨history, hs⟩ := ih
      exact ⟨history, hs.parse _⟩
  | resetErrors _ ih =>
      obtain ⟨history, hs⟩ := ih
      exact ⟨history, hs.resetErrors⟩
  | host output clock _ ih =>
      obtain ⟨history, hs⟩ := ih
      exact ⟨history, hs.host output clock⟩

theorem Traced.reached {s : Session} {history : History} (h : s.Traced history) : s.Reached := by
  induction h with
  | fresh output clock => exact .fresh output clock
  | @rejected s s' history source e _ hload ih =>
      have hrun : s.run 0 source = some (s', .error e) := run_of_error hload
      exact ih.run hrun
  | @ran s s₁ history source P m limit c _ _ hload hc ih =>
      exact ih.run (run_eq_some_iff.mpr (.inr ⟨s₁, m, c, hload, hc, rfl, rfl⟩))
  | parse source _ ih => exact ih.parse
  | resetErrors _ ih => exact ih.resetErrors
  | host output clock _ ih => exact ih.host output clock

/-- What a session knows about a use in a program that has run, for which the walk has found this.
-/
structure Places (s : Session) (found : Scoping.Findings) (p : Use × Site) : Prop where
  numbered : p.1.reference.id < s.nextId
  recorded : ∀ d, (p.1.reference.id, d) ∈ found.addresses ↔
    Scoping.addressOf? p.2.scopes p.1.name = some d
  address : s.state.addresses[p.1.reference.id]? = Scoping.addressOf? p.2.scopes p.1.name
  spelled : p.1.Spelled
  used : p.2.Used
  ready : p.1.kind = .read → p.2.Ready p.1.name
  located : Use.Located p

/-- The heap of the session is what its history has made of it, and nothing runs on it. -/
structure Follows (s : Session) (history : History) : Prop where
  sound : (s.state.world history.labels).Sound (Use.Among history.programs)
  scope : s.state.scope = s.state.globals
  places : ∀ P ∈ history.programs, ∀ p ∈ Stmt.usesAll [] P, s.Places (Scoping.ofProgram P) p

theorem Places.later {s s' : Session} {found : Scoping.Findings} {p : Use × Site}
    (h : s.Places found p) (hle : s.nextId ≤ s'.nextId)
    (hsame : ∀ i, i < s.nextId → s'.state.addresses[i]? = s.state.addresses[i]?) :
    s'.Places found p where
  numbered := Nat.lt_of_lt_of_le h.numbered hle
  recorded := h.recorded
  address := (hsame _ h.numbered).trans h.address
  spelled := h.spelled
  used := h.used
  ready := h.ready
  located := h.located

/-- A program without faults is placed when its addresses are noted. -/
theorem places_noted {s : Session} {M : Nat} (hs : s.Settled M) {source : String} {P : List Stmt}
    (hread : (Source.read source s.nextId).result = .ok P)
    (hfaults : (Scoping.ofProgram P).faults = []) :
    ∀ p ∈ Stmt.usesAll [] P, (s.noted source P).Places (Scoping.ofProgram P) p := by
  have haccepts := Scoping.ofProgram_accepts hfaults
  obtain ⟨hspelled, hnames⟩ := Source.read_spelled hread
  have hnumbered := Source.read_numbered hread
  rw [← Stmt.references_usesAll []] at hnumbered
  have hbounded : ∀ p ∈ Stmt.usesAll [] P, s.nextId ≤ p.1.reference.id ∧
      p.1.reference.id < (Source.read source s.nextId).nextId :=
    fun p hp => hnumbered.bounded _ (List.mem_map_of_mem hp)
  have hnew : ∀ p ∈ Stmt.usesAll [] P, s.state.addresses[p.1.reference.id]? = none :=
    fun p hp => hs.addresses _ (hbounded p hp).1
  intro p hp
  refine ⟨(hbounded p hp).2, ?_, ?_, hspelled p hp, Stmt.usesAll_used P .top hnames p hp,
    haccepts.ready p hp, haccepts.located p hp⟩
  · rw [haccepts.addresses]
    exact Use.mem_entries hnumbered.nodup hp
  show (s.state.noteAddresses (Scoping.ofProgram P).addresses).addresses[_]? = _
  rw [haccepts.addresses]
  exact State.noteAddresses_uses hnumbered.nodup hnew p hp

namespace Follows

variable {s : Session} {history : History}

/-- The same state, with more numbers given out. -/
theorem same_state (h : s.Follows history) {s' : Session}
    (hworld : s'.state.world history.labels = s.state.world history.labels)
    (hscope : s'.state.scope = s.state.scope) (hle : s.nextId ≤ s'.nextId)
    (haddresses : ∀ i, i < s.nextId → s'.state.addresses[i]? = s.state.addresses[i]?) :
    s'.Follows history where
  sound := hworld ▸ h.sound
  scope := by
    have hglobals : s'.state.globals = s.state.globals := congrArg World.globals hworld
    rw [hscope, hglobals, h.scope]
  places P hP p hp := (h.places P hP p hp).later hle haddresses

/-- A machine that has been loaded fits at the top level. -/
theorem loaded (h : s.Follows history) {M : Nat} (hs : s.Settled M) {source : String} {P : List Stmt}
    (hread : (Source.read source s.nextId).result = .ok P)
    (hfaults : (Scoping.ofProgram P).faults = []) :
    (Machine.ofProgram P (s.noted source P).state).Fits (Use.Among (P :: history.programs))
        history.labels ∧
      ∀ Q ∈ P :: history.programs, ∀ p ∈ Stmt.usesAll [] Q,
        (s.noted source P).Places (Scoping.ofProgram Q) p := by
  have himp : ∀ u site, Use.Among history.programs u site →
      Use.Among (P :: history.programs) u site := by
    rintro u site ⟨Q, hQ, hu⟩
    exact ⟨Q, List.mem_cons_of_mem _ hQ, hu⟩
  have hfit : Stmt.AllFit (Use.Among (P :: history.programs)) [] P :=
    ⟨fun p hp => ⟨P, List.mem_cons_self .., hp⟩, (Source.read_spelled hread).2⟩
  refine ⟨⟨h.sound.imp himp, [], .normal h.scope (World.holds_of_ne nofun), ?_⟩, ?_⟩
  · exact World.FramesFit.nil.push (.program hfit)
  · intro Q hQ p hp
    rcases List.mem_cons.mp hQ with rfl | hQ
    · exact places_noted hs hread hfaults p hp
    · exact (h.places Q hQ p hp).later Source.le_read_nextId (noted_addresses hread)

end Follows

theorem Use.Among.spelled {s : Session} {programs : List (List Stmt)}
    (h : ∀ P ∈ programs, ∀ p ∈ Stmt.usesAll [] P, s.Places (Scoping.ofProgram P) p) (u : Use) (site : Site)
    (hu : Use.Among programs u site) : u.Spelled := by
  obtain ⟨P, hP, hp⟩ := hu
  exact (h P hP _ hp).spelled

/-- A machine that fits and has halted is back at the top level. -/
theorem scope_of_fits {Good : Use → Site → Prop} {labels : List Region} {m : Machine}
    (h : m.Fits Good labels) {c : Completion} (hc : m.result? = some c) :
    m.state.scope = m.state.globals := by
  obtain ⟨control, frames, st⟩ := m
  obtain ⟨-, site, hcontrol, hframes⟩ := h
  cases control with
  | eval e => exact nomatch hc
  | exec s => exact nomatch hc
  | complete c' =>
      cases hframes with
      | nil => cases hcontrol <;> assumption
      | cons hwithin hframe hframes => exact nomatch hc

theorem Follows.ran {s s₁ : Session} {history : History} (h : s.Follows history) {M : Nat}
    (hs : s.Settled M) {source : String} {P : List Stmt} {m : Machine}
    (hread : (s.parse source).1 = .ok P) (hload : s.load source = (s₁, .ok m)) {limit : Nat}
    {c : Completion} (hc : (m.run limit).result? = some c) :
    (s₁.conclude c (m.run limit).state).1.Follows
      ⟨P :: history.programs, history.labels ++ m.openedIn limit⟩ := by
  cases Loads.of_load hload with
  | @loaded Q hread' hfaults =>
      obtain rfl : P = Q := Except.ok.inj (hread.symm.trans hread')
      obtain ⟨hfits, hplaces⟩ := h.loaded hs hread hfaults
      have hran := hfits.run (Use.Among.spelled hplaces) limit
      have hsetting := Machine.run_setting limit (Machine.ofProgram P (s.noted source P).state)
      have hlater : ∀ s' : Session, s'.nextId = (s.noted source P).nextId →
          s'.state = ((Machine.ofProgram P (s.noted source P).state).run limit).state →
          s'.Follows ⟨P :: history.programs, history.labels ++
            (Machine.ofProgram P (s.noted source P).state).openedIn limit⟩ := by
        intro s' hnext hstate
        refine ⟨hstate ▸ hran.sound, hstate ▸ scope_of_fits hran hc, fun Q hQ p hp => ?_⟩
        refine (hplaces Q hQ p hp).later (Nat.le_of_eq hnext.symm) fun i _ => ?_
        rw [hstate, hsetting.addresses]
        rfl
      cases c <;> exact hlater _ rfl rfl

/-! ## Fresh sessions -/

theorem natives_plain (f : Native) : Plain f.name := by
  cases f <;> exact ⟨by decide, by decide⟩

/-- A heap with nothing on it but the top level. -/
theorem sound_empty (Good : Use → Site → Prop) :
    (World.mk (Heap.empty.addScope ⟨∅, none⟩).2 [.top] ⟨0⟩).Sound Good := by
  have hnone : ∀ (x : ScopeId) name, (Heap.empty.addScope ⟨∅, none⟩).2.bound? x name = none := by
    intro x name
    rw [Heap.bound?, Heap.scopeAt_addScope]
    split
    · simp
    · rw [Heap.scopeAt_of_size_le _ (Nat.zero_le _)]
      simp
  have hlabel : ∀ (i : Nat) region, [Region.top][i]? = some region → region = .top := by
    intro i region hi
    cases i with
    | zero => exact (Option.some.inj hi).symm
    | succ i => cases hi
  refine ⟨rfl, ⟨rfl, rfl⟩, fun x name v hv => ?_, fun o name v hv => ?_, fun c name f hf => ?_,
    fun x method hx => ?_, fun x methods hx => ?_⟩
  · cases (hnone x name).symm.trans hv
  · simp [Heap.objectAt, Heap.addScope, Heap.empty] at hv
  · simp [Heap.classAt, Heap.addScope, Heap.empty] at hf
  · cases hlabel _ _ hx
  · cases hlabel _ _ hx

theorem Follows.fresh (output : Sink) (clock : Clock) :
    (fresh output clock).Follows ⟨[], [.top]⟩ := by
  have hnatives : ∀ (fs : List Native) (h : Heap),
      (World.mk h [.top] ⟨0⟩).Sound (Use.Among []) →
      (World.mk (fs.foldl (fun h f => h.define ⟨0⟩ f.name (.native f)) h) [.top] ⟨0⟩).Sound
        (Use.Among []) := by
    intro fs
    induction fs with
    | nil => exact fun h hsound => hsound
    | cons f fs ih =>
        intro h hsound
        exact ih _ (hsound.define (natives_plain f) (World.holds_of_ne nofun))
  exact ⟨hnatives Native.all _ (sound_empty _), rfl, fun P hP => nomatch hP⟩

/-- Every session follows its history. -/
theorem Traced.follows {s : Session} {history : History} (h : s.Traced history) :
    s.Follows history := by
  induction h with
  | fresh output clock => exact .fresh output clock
  | @rejected s s' history source e hs hload ih =>
      cases Loads.of_load hload with
      | unread hread => exact ih.same_state rfl rfl Source.le_read_nextId fun _ _ => rfl
      | unscoped hread hfaults =>
          exact ih.same_state rfl rfl Source.le_read_nextId (noted_addresses hread)
  | @ran s s₁ history source P m limit c hs hread hload hc ih =>
      obtain ⟨M, hsettled⟩ := hs.reached.settled
      exact ih.ran hsettled hread hload hc
  | parse source _ ih => exact ih.same_state rfl rfl Source.le_read_nextId fun _ _ => rfl
  | resetErrors _ ih => exact ih.same_state rfl rfl (Nat.le_refl _) fun _ _ => rfl
  | host output clock _ ih => exact ih.same_state rfl rfl (Nat.le_refl _) fun _ _ => rfl

end Session

end Lox
