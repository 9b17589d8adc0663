import Lox.Proofs.Termination.Steps

/-!
# Programs without loops end

A session whose programs have no `while` and no `for` has no loop on its heap either, so whatever a
further such program calls, the calls that may run at one time and the longest body bound what is
left to do. Functions may recur in any way they like: directly, by way of others, as closures, as
methods or through the initializer of their own class.
-/

namespace Lox

/-! ## Sources without loops -/

/-- The token is neither of the two words that start a loop. -/
def Token.StartsNoLoop (t : Token) : Prop :=
  t.kind ≠ .keyword .whileWord ∧ t.kind ≠ .keyword .forWord

instance (t : Token) : Decidable t.StartsNoLoop := inferInstanceAs (Decidable (_ ∧ _))

/-- No token of the source starts a loop. -/
def Source.LoopFree (source : String) : Prop := ∀ t ∈ Source.tokens source, t.StartsNoLoop

namespace Grammar

theorem Variable.loopFree {k k' : Nat} {ts : List Token} {s : Stmt} (h : Variable k ts s k') :
    s.LoopFree := by
  cases h with
  | mk => exact trivial

theorem ExpressionStatement.loopFree {k k' : Nat} {ts : List Token} {s : Stmt}
    (h : ExpressionStatement k ts s k') : s.LoopFree := by
  cases h with
  | mk => exact trivial

mutual

theorem Statement.loopFree : ∀ {isOpen : Bool} {k k' : Nat} {ts : List Token} {s : Stmt},
    Statement isOpen k ts s k' → (∀ t ∈ ts, t.StartsNoLoop) → s.LoopFree
  | _, _, _, _, _, .expression h, _ => h.loopFree
  | _, _, _, _, _, .print _ _ _, _ => trivial
  | _, _, _, _, _, .giveBack _ _ _, _ => trivial
  | _, _, _, _, _, .block _ h _, hts => h.loopFree fun t ht => hts t (by simp [ht])
  | _, _, _, _, _, .ifThen _ _ _ _ h, hts => h.loopFree fun t ht => hts t (by simp [ht])
  | _, _, _, _, _, .ifElse _ _ _ _ h _ h', hts =>
      ⟨h.loopFree fun t ht => hts t (by simp [ht]), h'.loopFree fun t ht => hts t (by simp [ht])⟩
  | _, _, _, _, _, .whileLoop hword _ _ _ _, hts => absurd hword (hts _ (List.mem_cons_self ..)).1
  | _, _, _, _, _, .forLoop hword _ _ _ _ _ _ _, hts =>
      absurd hword (hts _ (List.mem_cons_self ..)).2

theorem Declaration.loopFree : ∀ {k k' : Nat} {ts : List Token} {s : Stmt},
    Declaration k ts s k' → (∀ t ∈ ts, t.StartsNoLoop) → s.LoopFree
  | _, _, _, _, .classDecl _ _ _ _ h _, hts => h.loopFree fun t ht => hts t (by simp [ht])
  | _, _, _, _, .functionDecl _ h, hts => h.loopFree fun t ht => hts t (by simp [ht])
  | _, _, _, _, .varDecl h, _ => h.loopFree
  | _, _, _, _, .statement h, hts => h.loopFree hts

theorem Declarations.loopFree : ∀ {k k' : Nat} {ts : List Token} {ss : List Stmt},
    Declarations k ts ss k' → (∀ t ∈ ts, t.StartsNoLoop) → Stmt.AllLoopFree ss
  | _, _, _, _, .nil, _ => trivial
  | _, _, _, _, .cons h h', hts =>
      ⟨h.loopFree fun t ht => hts t (by simp [ht]), h'.loopFree fun t ht => hts t (by simp [ht])⟩

theorem Callable.loopFree : ∀ {k k' : Nat} {ts : List Token} {f : Function},
    Callable k ts f k' → (∀ t ∈ ts, t.StartsNoLoop) → f.LoopFree
  | _, _, _, _, .mk _ _ _ _ _ _ h _, hts => h.loopFree fun t ht => hts t (by simp [ht])

theorem Callables.loopFree : ∀ {k k' : Nat} {ts : List Token} {fs : List Function},
    Callables k ts fs k' → (∀ t ∈ ts, t.StartsNoLoop) → Function.AllLoopFree fs
  | _, _, _, _, .nil, _ => trivial
  | _, _, _, _, .cons h h', hts =>
      ⟨h.loopFree fun t ht => hts t (by simp [ht]), h'.loopFree fun t ht => hts t (by simp [ht])⟩

end

end Grammar

theorem Source.LoopFree.read {source : String} (h : Source.LoopFree source) {k : Nat}
    {P : List Stmt} (hread : (Source.read source k).result = .ok P) : Stmt.AllLoopFree P := by
  refine (Source.read_derives hread).loopFree fun t ht => h t ?_
  rw [Source.tokens_eq]
  exact List.mem_append_left _ ht

/-! ## Machines -/

namespace Machine

variable {B : Nat} {root : ScopeId} {base : Nat}

theorem Within.step {m : Machine} (h : m.Within B) (hunwinds : m.Unwinds root base 0) :
    m.step.Within B := by
  cases hresult : m.result? with
  | none => exact (step_affords h hunwinds hresult).within
  | some c =>
      rw [step_of_result? hresult]
      exact h

theorem Within.run {m : Machine} (h : m.Within B) (hunwinds : m.Unwinds root base 0)
    (limit : Nat) : (m.run limit).Within B := by
  induction limit with
  | zero => exact h
  | succ limit ih =>
      rw [run_succ_last]
      exact ih.step (hunwinds.run limit (Nat.zero_le _))

/-- A machine without loops halts: what it costs to run on becomes less and less. -/
theorem exists_result {m : Machine} (h : m.Within B) (hunwinds : m.Unwinds root base 0) :
    ∃ limit c, (m.run limit).result? = some c := by
  induction hcost : m.cost B using Nat.strongRecOn generalizing m with
  | ind cost ih =>
      cases hresult : m.result? with
      | some c => exact ⟨0, c, hresult⟩
      | none =>
          have hstep := step_affords h hunwinds hresult
          have hcheaper : m.step.cost B < cost := hcost ▸ hstep.cheaper
          obtain ⟨limit, c, hc⟩ :=
            ih _ hcheaper hstep.within (hunwinds.step (Nat.zero_le _)) rfl
          exact ⟨limit + 1, c, by rw [run_succ, hc]⟩

end Machine

/-! ## Sessions -/

namespace Session

/-- The sessions that come about while no program is run that has a loop. A program that is rejected
is not run. -/
inductive LoopFree : Session → Prop where
  | fresh (output : Sink) (clock : Clock) : LoopFree (fresh output clock)
  | run {s s' : Session} {limit : Nat} {source : String} {result : Except RunError Unit} :
      LoopFree s → Source.LoopFree source → s.run limit source = some (s', result) → LoopFree s'
  | rejected {s s' : Session} {limit : Nat} {source : String} {ds : List Diagnostic} :
      LoopFree s → s.run limit source = some (s', .error (.static ds)) → LoopFree s'
  | parse {s : Session} {source : String} : LoopFree s → LoopFree (s.parse source).2
  | resetErrors {s : Session} : LoopFree s → LoopFree s.resetErrors
  | host {s : Session} (output : Sink) (clock : Clock) :
      LoopFree s → LoopFree { s with state := { s.state with output, clock } }

theorem LoopFree.reached {s : Session} (h : s.LoopFree) : s.Reached := by
  induction h with
  | fresh output clock => exact .fresh output clock
  | run _ _ hrun ih => exact ih.run hrun
  | rejected _ hrun ih => exact ih.run hrun
  | parse _ ih => exact ih.parse
  | resetErrors _ ih => exact ih.resetErrors
  | host output clock _ ih => exact ih.host output clock

theorem load_heap (s : Session) (source : String) :
    (s.load source).1.state.heap = s.state.heap := by
  have h := s.loads source
  generalize (s.load source).1 = s₁, (s.load source).2 = result at h
  cases h <;> rfl

variable {s s₁ : Session} {source : String} {m : Machine} {B : Nat}

/-- A source without loops is loaded as code within some bound. -/
theorem loaded_within (hheap : s.state.heap.Within B) (hsource : Source.LoopFree source)
    (hload : s.load source = (s₁, .ok m)) : ∃ B', m.Within B' := by
  cases Loads.of_load hload with
  | @loaded P hread _ =>
      have hP : Stmt.AllWithin (max B (Stmt.weightAll P)) P :=
        ⟨hsource.read hread, Nat.le_max_right _ _⟩
      refine ⟨max B (Stmt.weightAll P), ?_, trivial, fun frame hframe => ?_⟩
      · exact hheap.mono (Nat.le_max_left _ _)
      · rw [List.mem_singleton.mp hframe]
        exact hP

theorem LoopFree.within {s : Session} (h : s.LoopFree) : ∃ B, s.state.heap.Within B := by
  induction h with
  | fresh output clock => exact ⟨1, fun f => ⟨trivial, Nat.le_refl 1⟩⟩
  | @run s s' limit source result h hsource hrun ih =>
      obtain ⟨B, hB⟩ := ih
      rcases run_eq_some_iff.mp hrun with ⟨e, hload, -⟩ | ⟨s₁, m, c, hload, -, rfl, -⟩
      · have hheap := s.load_heap source
        rw [hload] at hheap
        exact ⟨B, hheap ▸ hB⟩
      · obtain ⟨B', hB'⟩ := loaded_within hB hsource hload
        rw [conclude_state]
        exact ⟨B', (hB'.run (h.reached.atTop.loaded hload) limit).heap⟩
  | @rejected s s' limit source ds _ hrun ih =>
      obtain ⟨B, hB⟩ := ih
      have hheap := s.load_heap source
      rw [run_eq_static hrun] at hheap
      exact ⟨B, hheap ▸ hB⟩
  | parse _ ih => exact ih
  | resetErrors _ ih => exact ih
  | host output clock _ ih => exact ih

/-- **A program without loops ends** in every session that has run no program with a loop: it runs
to its end, or it fails. -/
theorem loop_free_ends (h : s.LoopFree) (hsource : Source.LoopFree source)
    (hload : s.load source = (s₁, .ok m)) :
    ∃ limit s', s.run limit source = some (s', .ok ()) ∨
      ∃ f, s.run limit source = some (s', .error (.runtime f)) := by
  obtain ⟨B, hB⟩ := h.within
  obtain ⟨B', hB'⟩ := loaded_within hB hsource hload
  obtain ⟨limit, c, hc⟩ := Machine.exists_result hB' (h.reached.atTop.loaded hload)
  have hrun : s.run limit source = some (s₁.conclude c (m.run limit).state) :=
    run_eq_some_iff.mpr (.inr ⟨s₁, m, c, hload, hc, rfl, rfl⟩)
  refine ⟨limit, (s₁.conclude c (m.run limit).state).1, ?_⟩
  rw [hrun]
  cases c with
  | normal v => exact .inl rfl
  | returned v => exact .inl rfl
  | raised f => exact .inr ⟨f, rfl⟩

/-- A function of an earlier program calls a class whose initializer calls it again. -/
theorem loop_free_ends_initializer :
    ∃ (s s₁ : Session) (m : Machine), s.LoopFree ∧
      s.load "class A \x7b init() \x7b call(A); \x7d \x7d call(A);" = (s₁, .ok m) ∧
      ∃ limit s', s.run limit "class A \x7b init() \x7b call(A); \x7d \x7d call(A);"
          = some (s', .ok ()) ∨
        ∃ f, s.run limit "class A \x7b init() \x7b call(A); \x7d \x7d call(A);"
          = some (s', .error (.runtime f)) := by
  have hfree (source : String)
      (h : (Source.tokens source).all (fun t => t.StartsNoLoop) = true) : Source.LoopFree source :=
    fun t ht => of_decide_eq_true (List.all_eq_true.mp h t ht)
  have hearlier : Source.LoopFree "fun call(f) \x7b f(); \x7d" := hfree _ (by cbv)
  have hlater : Source.LoopFree "class A \x7b init() \x7b call(A); \x7d \x7d call(A);" :=
    hfree _ (by cbv)
  have hall : ((fresh .unlimited ⟨0⟩).run 5 "fun call(f) \x7b f(); \x7d").map (fun p =>
      (p.1.load "class A \x7b init() \x7b call(A); \x7d \x7d call(A);").2.isOk) = some true := by
    cbv
  obtain ⟨⟨s, result⟩, hrun, hloaded⟩ := Option.map_eq_some_iff.mp hall
  have hs : s.LoopFree := (LoopFree.fresh .unlimited ⟨0⟩).run hearlier hrun
  rcases hload : s.load "class A \x7b init() \x7b call(A); \x7d \x7d call(A);" with ⟨s₁, e | m⟩
  · rw [hload] at hloaded
    cases hloaded
  · exact ⟨s, s₁, m, hs, hload, loop_free_ends hs hlater hload⟩

end Session

end Lox
