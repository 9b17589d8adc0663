import Lox.Proofs.Sessions

/-!
# Sessions that differ by a renaming

Two sessions whose states differ only in the numbers of references and the lines of tokens answer
all further programs alike. Only failures at run time tell lines, and these are the lines of the
second session.
-/

namespace Lox

variable {r : Renaming} {offset : Nat}

/-! ## What is moved -/

/-- The error with its failure on other lines. Static faults stay where they are. -/
def RunError.moved (lines : Nat → Nat) : RunError → RunError
  | .static ds => .static ds
  | .runtime f => .runtime (f.renamed (.moving lines))

/-- The answer with failures and the tokens of the heap on other lines. -/
def Session.Answer.moved (lines : Nat → Nat) (a : Answer) : Answer where
  result := a.result.map (Except.mapError (RunError.moved lines))
  shown := a.shown.renamed (.moving lines) ∅

theorem Failure.renamed_moving (f : Failure) : f.renamed (.moving r.lines) = f.renamed r := by
  cases f <;> rfl

theorem Closure.renamed_renamed (r r' : Renaming) (f : Closure) :
    (f.renamed r).renamed r' = f.renamed (r.andThen r') :=
  congrArg (Closure.mk · f.scope f.isInitializer) (f.declared.renamed_renamed r r')

theorem State.renamed_renamed (r r' : Renaming) (A A' : Addresses) (st : State) :
    (st.renamed r A).renamed r' A' = st.renamed (r.andThen r') A' := by
  have hfunctions : (st.heap.functions.map (Closure.renamed r)).map (Closure.renamed r')
      = st.heap.functions.map (Closure.renamed (r.andThen r')) := by
    rw [Array.map_map]
    exact congrArg (Array.map · _) (funext fun f => f.renamed_renamed r r')
  simp only [State.renamed, Heap.renamed, hfunctions]

theorem State.renamed_none (st : State) : st.renamed .none st.addresses = st := by
  have hfunctions : st.heap.functions.map (Closure.renamed .none) = st.heap.functions := by
    rw [show Closure.renamed .none = id from funext fun f =>
      congrArg (Closure.mk · f.scope f.isInitializer) f.declared.renamed_none, Array.map_id]
  simp only [State.renamed, Heap.renamed, hfunctions]

/-- What shows of a renamed state is what shows of the state, on other lines. -/
theorem State.view_renamed (st : State) (A : Addresses) :
    (st.renamed r A).view = st.view.renamed (.moving r.lines) ∅ := by
  rw [view, view, renamed_renamed, renamed_renamed]
  rfl

theorem Session.Answer.moved_id (result : Option (Except RunError Unit)) (st : State) :
    Answer.moved id ⟨result, st.view⟩ = ⟨result, st.view⟩ := by
  have hresult : result.map (Except.mapError (RunError.moved id)) = result := by
    rcases result with _ | (_ | _) | _
    · rfl
    · rfl
    · next f => cases f <;> rfl
    · rfl
  have hshown : st.view.renamed (.moving id) ∅ = st.view := st.view.renamed_none
  rw [moved, hresult, hshown]

/-! ## The simulation -/

namespace Session

/-- The state of `s'` is that of `s` under the renaming `r`, and numbers that are still to be given
out differ by `offset`. -/
structure Mirrors (r : Renaming) (offset : Nat) (s s' : Session) : Prop where
  state : s'.state = s.state.renamed r s'.state.addresses
  addresses : Readdressed r s'.state.addresses s.state.addresses
  nextId : s'.nextId = s.nextId + offset
  ids : ∀ i, s.nextId ≤ i → r.ids i = i + offset
  injective : ∀ i j, r.ids i = r.ids j → i = j
  zero : r.lines 0 = 0

namespace Mirrors

variable {lines : Nat → Nat} {s s' : Session} {source source' : String}

/-- Remembered errors do not matter. -/
theorem rejected (h : s.Mirrors r offset s') :
    { s with hadStaticError := true }.Mirrors r offset { s' with hadStaticError := true } where
  state := h.state
  addresses := h.addresses
  nextId := h.nextId
  ids := h.ids
  injective := h.injective
  zero := h.zero

theorem parse (h : s.Mirrors r offset s') (hmoves : Source.MovesTo lines source source') :
    (s.parse source).2.Mirrors r offset (s'.parse source').2 where
  state := h.state
  addresses := h.addresses
  nextId := by
    show (Source.read source' s'.nextId).nextId = (Source.read source s.nextId).nextId + offset
    rw [h.nextId, Source.read_moved hmoves]
    rfl
  ids i hi := h.ids i (Nat.le_trans Source.le_read_nextId hi)
  injective := h.injective
  zero := h.zero

/-- Faults are found on the moved lines. -/
theorem read_error (h : s.Mirrors r offset s') (hmoves : Source.MovesTo lines source source')
    {ds : List Diagnostic} (hread : (Source.read source s.nextId).result = .error ds) :
    (Source.read source' s'.nextId).result
      = .error (ds.map (Diagnostic.renamed (.moving lines))) := by
  rw [h.nextId, Source.read_moved hmoves, Parser.Outcome.moved, hread]

/-- The tree is read as the renamed tree, where the renaming has its tokens on the moved lines. -/
theorem read_ok (h : s.Mirrors r offset s') (hmoves : Source.MovesTo lines source source')
    (hlines : ∀ t ∈ Source.tokens source, r.lines t.line = lines t.line) {P : List Stmt}
    (hread : (Source.read source s.nextId).result = .ok P) :
    (Source.read source' s'.nextId).result = .ok (P.map (Stmt.renamed r)) := by
  have hagree : P.map (Stmt.renamed r) = P.map (Stmt.renamed (.shift offset lines)) :=
    Source.read_agree hread hlines fun i hi _ => h.ids i hi
  rw [h.nextId, Source.read_moved hmoves, Parser.Outcome.moved, hread, hagree]

/-- Faults of the scopes are found on the moved lines too. -/
theorem scoping_faults (hlines : ∀ t ∈ Source.tokens source, r.lines t.line = lines t.line)
    {P : List Stmt} (hread : (Source.read source s.nextId).result = .ok P) :
    (Scoping.ofProgram (P.map (Stmt.renamed r))).faults
      = (Scoping.ofProgram P).faults.map (Diagnostic.renamed (.moving lines)) := by
  have hagree : P.map (Stmt.renamed r) = P.map (Stmt.renamed ⟨r.ids, lines⟩) :=
    Source.read_agree hread hlines fun _ _ _ => rfl
  rw [hagree, Scoping.ofProgram_renamed]
  rfl

theorem note (h : s.Mirrors r offset s') (hmoves : Source.MovesTo lines source source')
    (P : List Stmt) :
    (s.noted source P).Mirrors r offset (s'.noted source' (P.map (Stmt.renamed r))) where
  state := by
    let A := (s'.noted source' (P.map (Stmt.renamed r))).state.addresses
    exact congrArg (fun st : State => { st with addresses := A }) h.state
  addresses := by
    show Readdressed r (s'.state.noteAddresses _).addresses (s.state.noteAddresses _).addresses
    rw [Scoping.ofProgram_renamed]
    exact State.noteAddresses_renamed h.injective h.addresses
  nextId := (h.parse hmoves).nextId
  ids := (h.parse hmoves).ids
  injective := h.injective
  zero := h.zero

/-- How both sessions load a source: both reject it, or both make a machine of it. -/
inductive Loads (r : Renaming) (offset : Nat) (lines : Nat → Nat) (s s' : Session)
    (source source' : String) : Prop where
  | rejected {s₁ s₁' : Session} {ds : List Diagnostic} :
      s.load source = (s₁, .error (.static ds)) →
      s'.load source' = (s₁', .error (.static (ds.map (Diagnostic.renamed (.moving lines))))) →
      s₁.Mirrors r offset s₁' → Loads r offset lines s s' source source'
  | loaded {s₁ s₁' : Session} {m : Machine} :
      s.load source = (s₁, .ok m) →
      s'.load source' = (s₁', .ok (m.renamed r s₁'.state.addresses)) →
      Readdressed r s₁'.state.addresses m.state.addresses →
      s₁.Mirrors r offset s₁' → Loads r offset lines s s' source source'

theorem loads (h : s.Mirrors r offset s') (hmoves : Source.MovesTo lines source source')
    (hlines : ∀ t ∈ Source.tokens source, r.lines t.line = lines t.line) :
    Loads r offset lines s s' source source' := by
  rcases hload : s.load source with ⟨s₁, result⟩
  cases Session.Loads.of_load hload with
  | unread hread =>
      have hload' := (Session.Loads.unread (h.read_error hmoves hread)).load
      exact .rejected hload hload' (h.parse hmoves).rejected
  | @unscoped P hread hfaults =>
      have hfaults' := scoping_faults hlines hread
      have hne : (Scoping.ofProgram (P.map (Stmt.renamed r))).faults ≠ [] := by
        rw [hfaults']
        simpa using hfaults
      have hload' := (Session.Loads.unscoped (h.read_ok hmoves hlines hread) hne).load
      rw [hfaults'] at hload'
      exact .rejected hload hload' (h.note hmoves P).rejected
  | @loaded P hread hfaults =>
      have h₁ := h.note hmoves P
      have hfaults' := scoping_faults hlines hread
      rw [hfaults, List.map_nil] at hfaults'
      refine .loaded hload ?_ h₁.addresses h₁
      rw [(Session.Loads.loaded (h.read_ok hmoves hlines hread) hfaults').load]
      exact congrArg (fun st => (_, Except.ok (Machine.ofProgram (P.map (Stmt.renamed r)) st)))
        h₁.state

/-- What both sessions take over from their machines. -/
theorem conclude (h : s.Mirrors r offset s') {m : Machine}
    (hm : m.state.addresses = s.state.addresses) (c : Completion) :
    (s.conclude c m.state).1.Mirrors r offset
        (s'.conclude (c.renamed r) (m.state.renamed r s'.state.addresses)).1 ∧
      (s'.conclude (c.renamed r) (m.state.renamed r s'.state.addresses)).2
        = (s.conclude c m.state).2.mapError (RunError.moved r.lines) := by
  have haddresses : Readdressed r s'.state.addresses m.state.addresses := hm ▸ h.addresses
  cases c with
  | raised f =>
      refine ⟨⟨rfl, haddresses, h.nextId, h.ids, h.injective, h.zero⟩, ?_⟩
      show Except.error (RunError.runtime (f.renamed r)) = Except.error _
      rw [← Failure.renamed_moving]
      rfl
  | normal v => exact ⟨⟨rfl, haddresses, h.nextId, h.ids, h.injective, h.zero⟩, rfl⟩
  | returned v => exact ⟨⟨rfl, haddresses, h.nextId, h.ids, h.injective, h.zero⟩, rfl⟩

/-- Both sessions run the next program alike. Faults that the first session finds in it must be on
lines that do not move. -/
theorem run (h : s.Mirrors r offset s') (hmoves : Source.MovesTo lines source source')
    (hlines : ∀ t ∈ Source.tokens source, r.lines t.line = lines t.line)
    (hstatic : ∀ ds s₁, s.load source = (s₁, .error (.static ds)) →
      ds.map (Diagnostic.renamed (.moving lines)) = ds)
    (limit : Nat) :
    (s.run limit source = none ∧ s'.run limit source' = none ∧
      (s'.progress limit source').view
        = (s.progress limit source).view.renamed (.moving r.lines) ∅) ∨
    ∃ s₁ s₁' result, s.run limit source = some (s₁, result) ∧
      s'.run limit source' = some (s₁', result.mapError (RunError.moved r.lines)) ∧
      s₁.Mirrors r offset s₁' := by
  cases h.loads hmoves hlines with
  | @rejected s₁ s₁' ds hload hload' h₁ =>
      rw [hstatic ds s₁ hload] at hload'
      exact .inr ⟨s₁, s₁', _, run_of_error hload, run_of_error hload', h₁⟩
  | @loaded s₁ s₁' m hload hload' haddresses h₁ =>
      have hrun := Machine.run_renamed h.zero limit haddresses
      have hresult' := Machine.result?_renamed (r := r) (A := s₁'.state.addresses) (m.run limit)
      rw [run_of_ok hload, run_of_ok hload', progress_of_ok hload, progress_of_ok hload', hrun,
        hresult']
      cases hresult : (m.run limit).result? with
      | none => exact .inl ⟨rfl, rfl, State.view_renamed _ _⟩
      | some c =>
          obtain ⟨h₂, hresult₂⟩ := h₁.conclude (loaded_addresses hload limit) c
          exact .inr ⟨_, _, _, rfl, congrArg some (Prod.ext rfl hresult₂), h₂⟩

/-- Both sessions answer the next program alike, and go on alike. -/
theorem answers_cons (h : s.Mirrors r offset s') (hmoves : Source.MovesTo lines source source')
    (hlines : ∀ t ∈ Source.tokens source, r.lines t.line = lines t.line)
    (hstatic : ∀ ds s₁, s.load source = (s₁, .error (.static ds)) →
      ds.map (Diagnostic.renamed (.moving lines)) = ds)
    {limit : Nat} {rest : List (Nat × String)}
    (hrest : ∀ {s₁ s₁' : Session}, s₁.Mirrors r offset s₁' →
      s₁'.answers rest = (s₁.answers rest).map (Answer.moved r.lines)) :
    s'.answers ((limit, source') :: rest)
      = (s.answers ((limit, source) :: rest)).map (Answer.moved r.lines) := by
  rcases h.run hmoves hlines hstatic limit with ⟨hnone, hnone', hview⟩ | ⟨s₁, s₁', result, hsome,
    hsome', h₁⟩
  · rw [answers_of_none hnone, answers_of_none hnone', hview]
    rfl
  · have hview : s₁'.state.view = s₁.state.view.renamed (.moving r.lines) ∅ := by
      rw [h₁.state, State.view_renamed]
    rw [answers_of_some hsome, answers_of_some hsome', List.map_cons, hrest h₁, hview]
    rfl

/-- **Mirrored sessions answer alike.** Of programs whose tokens stand on lines that the renaming
keeps, all that differs in the answers are the lines of functions that were there before. -/
theorem answers : ∀ {inputs : List (Nat × String)} {s s' : Session}, s.Mirrors r offset s' →
    (∀ input ∈ inputs, ∀ t ∈ Source.tokens input.2, r.lines t.line = t.line) →
    s'.answers inputs = (s.answers inputs).map (Answer.moved r.lines)
  | [], _, _, _, _ => rfl
  | (limit, source) :: rest, s, s', h, hlines => by
      refine h.answers_cons (.refl source) (hlines _ (List.mem_cons_self ..)) ?_ fun h₁ =>
        h₁.answers fun input hinput => hlines input (List.mem_cons_of_mem _ hinput)
      exact fun ds _ _ => List.map_id ds

end Mirrors

end Session

end Lox
