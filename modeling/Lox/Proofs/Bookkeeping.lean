import Lox.Proofs.Growth
import Lox.Proofs.Parts
import Lox.Proofs.Sessions

/-!
# Scopes and calls are put back

The frames of blocks and calls are all that a run keeps of the scopes that it has left. Each of them
was put there when the innermost scope changed, and whatever completes below it, the scope that it
holds is innermost again when it is gone. So the frames always lead back to the scope and to the
depth with which the run has begun. The depth itself is the number of frames of calls.

Native functions and classes without an initializer are called and done with in one step, so no
machine is ever inside such a call.
-/

namespace Lox

namespace Frame

/-- The frame keeps the scope that was innermost before. -/
def opensScope : Frame → Bool
  | block _ => true
  | activation _ _ => true
  | _ => false

end Frame

/-- The number of calls whose callee is running. -/
def Machine.activeCalls (m : Machine) : Nat := m.frames.countP Frame.isActivation

/-- From this scope and this depth the frames lead back to the root, at the depth `base`. All scopes
that are left on the way were made after the first `size` ones. A program is only ever run at the
top level. -/
inductive Unwinds (globals root : ScopeId) (base size : Nat) : List Frame → ScopeId → Nat → Prop where
  | nil : Unwinds globals root base size [] root base
  | program (rest : List Stmt) : root = globals → base = 0 →
      Unwinds globals root base size [.program rest] root base
  | stay {frame : Frame} {frames : List Frame} {x : ScopeId} {depth : Nat} :
      frame.keepsScope → Unwinds globals root base size frames x depth →
      Unwinds globals root base size (frame :: frames) x depth
  | block {frames : List Frame} {outer x : ScopeId} {depth : Nat} :
      size ≤ x.index → Unwinds globals root base size frames outer depth →
      Unwinds globals root base size (.block outer :: frames) x depth
  | activation {frames : List Frame} {caller x : ScopeId} {depth : Nat} (result : CallResult) :
      size ≤ x.index → depth < State.maxDepth → Unwinds globals root base size frames caller depth →
      Unwinds globals root base size (.activation caller result :: frames) x (depth + 1)

namespace Unwinds

variable {globals root : ScopeId} {base size : Nat} {frames : List Frame} {x : ScopeId} {depth : Nat}

/-- Every call on the way has added one to the depth. -/
theorem depth_eq (h : Unwinds globals root base size frames x depth) :
    depth = base + frames.countP Frame.isActivation := by
  induction h with
  | nil => rfl
  | program => rfl
  | @stay frame frames x depth hkeeps _ ih =>
      have hcall : ¬ frame.isActivation := by
        cases frame with
        | activation => exact nomatch hkeeps
        | _ => exact Bool.false_ne_true
      rw [List.countP_cons_of_neg hcall]
      exact ih
  | block _ _ ih =>
      rw [List.countP_cons_of_neg Bool.false_ne_true]
      exact ih
  | activation result _ _ _ ih =>
      rw [List.countP_cons_of_pos rfl]
      omega

theorem depth_le (h : Unwinds globals root base size frames x depth) :
    depth ≤ max base State.maxDepth := by
  induction h with
  | nil => omega
  | program => omega
  | stay _ _ ih => exact ih
  | block _ _ ih => exact ih
  | activation => omega

/-- If the innermost scope was made before, then no block and no call has been entered. -/
theorem old (h : Unwinds globals root base size frames x depth) (hx : x.index < size) :
    x = root ∧ ∀ frame ∈ frames, frame.opensScope = false := by
  induction h with
  | nil => exact ⟨rfl, fun _ hframe => nomatch hframe⟩
  | program rest =>
      refine ⟨rfl, fun frame hframe => ?_⟩
      rw [List.mem_singleton.mp hframe]
      rfl
  | @stay frame frames x depth hkeeps _ ih =>
      obtain ⟨hroot, hframes⟩ := ih hx
      refine ⟨hroot, List.forall_mem_cons.mpr ⟨?_, hframes⟩⟩
      cases frame <;> first | rfl | exact nomatch hkeeps
  | block hsize => omega
  | activation _ hsize => omega

/-- A frame that keeps the innermost scope can go. -/
theorem of_stay {frame : Frame} (h : Unwinds globals root base size (frame :: frames) x depth)
    (hkeeps : frame.keepsScope) : Unwinds globals root base size frames x depth := by
  cases h with
  | program => exact nomatch hkeeps
  | stay _ h => exact h
  | block => exact nomatch hkeeps
  | activation => exact nomatch hkeeps

/-- A block puts back the scope around it. -/
theorem of_block {outer : ScopeId} (h : Unwinds globals root base size (.block outer :: frames) x depth) :
    Unwinds globals root base size frames outer depth := by
  cases h with
  | stay hkeeps _ => exact nomatch hkeeps
  | block _ h => exact h

/-- A call puts back the scope of the caller, and the depth. -/
theorem of_activation {caller : ScopeId} {result : CallResult}
    (h : Unwinds globals root base size (.activation caller result :: frames) x depth) :
    Unwinds globals root base size frames caller (depth - 1) := by
  cases h with
  | stay hkeeps _ => exact nomatch hkeeps
  | activation _ _ _ h => exact h

theorem of_program {rest : List Stmt}
    (h : Unwinds globals root base size (.program rest :: frames) x depth) :
    frames = [] ∧ x = root ∧ depth = base ∧ root = globals ∧ base = 0 := by
  cases h with
  | program _ hroot hbase => exact ⟨rfl, rfl, rfl, hroot, hbase⟩
  | stay hkeeps _ => exact nomatch hkeeps

end Unwinds

/-! ## Steps -/

namespace Machine

/-- The frames of the machine lead back to the root. -/
def Unwinds (root : ScopeId) (base size : Nat) (m : Machine) : Prop :=
  Lox.Unwinds m.state.globals root base size m.frames m.state.scope m.state.depth

namespace Unwinds

variable {root : ScopeId} {base size : Nat} {m : Machine}

theorem below (h : m.Unwinds root base size) {frames : List Frame} (hbelow : m.Below frames) :
    Lox.Unwinds m.state.globals root base size frames m.state.scope m.state.depth := by
  cases hbelow with
  | starts _ => exact h
  | value _ hframes hpart =>
      unfold Machine.Unwinds at h
      rw [hframes] at h
      exact h.of_stay (Frame.keepsScope_of_isPart hpart)

/-- A frame that is gone has put back what it has kept. -/
theorem moves (h : m.Unwinds root base size) (hsize : size ≤ m.state.heap.scopes.size)
    {m' : Machine} (hmoves : m.Moves m') : m'.Unwinds root base size := by
  have hframes := h
  unfold Machine.Unwinds at hframes
  cases hmoves with
  | rests heap output clock hbelow _ => exact h.below hbelow
  | waits hbelow _ hpart => exact .stay (Frame.keepsScope_of_isPart hpart) (h.below hbelow)
  | awaits _ => exact .stay rfl h
  | leaves _ => exact h
  | givesBack _ hat =>
      rw [hat] at hframes
      exact hframes.of_stay rfl
  | passes _ hat hkeeps =>
      rw [hat] at hframes
      exact hframes.of_stay hkeeps
  | opens _ => exact .stay rfl (.block hsize h)
  | closes _ hat _ =>
      rw [hat] at hframes
      exact hframes.of_block
  | enters args henters hgrown =>
      -- the scope of the call is a new one
      have hbelow := h.below henters.below
      exact .stay rfl (.activation _ (Nat.le_trans hsize hgrown) henters.depth_lt hbelow)
  | overflows hcall _ _ => exact h.below (below_of_calling hcall)
  | returns _ hat _ =>
      rw [hat] at hframes
      exact hframes.of_activation
  | next _ hat =>
      rw [hat] at hframes
      obtain ⟨rfl, hscope, hdepth, hroot, hbase⟩ := hframes.of_program
      show Lox.Unwinds _ root base size _ m.state.scope m.state.depth
      rw [hscope, hdepth]
      exact .program _ hroot hbase
  | ends _ hat _ =>
      rw [hat] at hframes
      obtain ⟨rfl, hscope, hdepth, -⟩ := hframes.of_program
      show Lox.Unwinds _ root base size _ m.state.scope m.state.depth
      rw [hscope, hdepth]
      exact .nil
  | aborts _ hat =>
      -- a program runs at the top level, so this is where it has begun
      rw [hat] at hframes
      obtain ⟨rfl, -, -, rfl, rfl⟩ := hframes.of_program
      exact .nil
  | halted _ => exact h

theorem step (h : m.Unwinds root base size) (hsize : size ≤ m.state.heap.scopes.size) :
    m.step.Unwinds root base size := h.moves hsize m.step_moves

theorem run (limit : Nat) (h : m.Unwinds root base size) (hsize : size ≤ m.state.heap.scopes.size) :
    (m.run limit).Unwinds root base size := by
  induction limit with
  | zero => exact h
  | succ limit ih =>
      rw [run_succ_last]
      exact ih.step (Nat.le_trans hsize (run_grows limit m).scopes_size)

end Unwinds

/-- A part that has ended has put back the scope and the depth with which it has begun. -/
theorem Ends.place {m : Machine} {k : Nat} {c : Completion} (h : m.Ends m.frames k c) :
    (m.run k).state.scope = m.state.scope ∧ (m.run k).state.depth = m.state.depth := by
  obtain ⟨hresult, hrun⟩ := h.by_itself
  obtain ⟨-, hframes⟩ := result?_eq_some_iff.mp hresult
  have hbegun : m.alone.Unwinds m.state.scope m.state.depth 0 := .nil
  have hended := hbegun.run k (Nat.zero_le _)
  unfold Machine.Unwinds at hended
  rw [hframes] at hended
  rw [hrun]
  show (m.alone.run k).state.scope = _ ∧ (m.alone.run k).state.depth = _
  generalize (m.alone.run k).state.scope = scope, (m.alone.run k).state.depth = depth at hended
  cases hended
  exact ⟨rfl, rfl⟩

/-! ## The deepest call -/

/-- The next step raises the failure, which was not on its way before. -/
def Raises (m : Machine) (f : Failure) : Prop :=
  m.step.control = .complete (.raised f) ∧ m.control ≠ .complete (.raised f)

/-- A call fails because it goes too deep if it could be made otherwise, and in no other way. -/
theorem raises_overflow_iff {m : Machine} {line : Nat} : m.Raises (.fault .stackOverflow line) ↔
    ∃ callee paren args, m.calling? = some (callee, paren, args) ∧
      m.state.heap.arity? callee = some args.length ∧ State.maxDepth ≤ m.state.depth ∧
      paren.line = line := by
  constructor
  · rintro ⟨hafter, hbefore⟩
    have key : ∀ m', m.Moves m' → m'.control = overflow line →
        ∃ callee paren args, m.calling? = some (callee, paren, args) ∧
          m.state.heap.arity? callee = some args.length ∧ State.maxDepth ≤ m.state.depth ∧
          paren.line = line := by
      intro m' hmoves hoverflow
      cases hmoves with
      | rests _ _ _ _ hgoes => exact absurd hoverflow (Control.ne_overflow hgoes line)
      | waits _ hgoes _ => exact absurd hoverflow (Control.ne_overflow hgoes line)
      | ends _ _ hgoes => exact absurd hoverflow (Control.ne_overflow hgoes line)
      | overflows hcall harity hdepth =>
          cases hoverflow
          exact ⟨_, _, _, hcall, harity, hdepth, rfl⟩
      | passes hcontrol _ _ => exact absurd (hcontrol.trans hoverflow) hbefore
      | aborts hcontrol _ => exact absurd (hcontrol.trans hoverflow) hbefore
      | halted _ => exact absurd hoverflow hbefore
      | closes hcontrol _ hsame =>
          rcases hsame with rfl | rfl
          · exact absurd (hcontrol.trans hoverflow) hbefore
          · exact nomatch hoverflow
      | returns hcontrol _ hsame =>
          rcases hsame with ⟨v, rfl⟩ | ⟨-, rfl⟩
          · exact nomatch hoverflow
          · exact absurd (hcontrol.trans hoverflow) hbefore
      | _ => exact nomatch hoverflow
    exact key _ m.step_moves hafter
  · rintro ⟨callee, paren, args, hcall, harity, hdepth, rfl⟩
    refine ⟨?_, fun hraised => ?_⟩
    · rw [step_of_calling hcall, call, harity]
      dsimp only
      rw [if_neg (not_not_intro rfl), if_pos hdepth]
      rfl
    · -- what is on its way already makes no call
      unfold calling? at hcall
      rw [hraised] at hcall
      exact nomatch hcall

end Machine

/-! ## Sessions -/

namespace Session

/-- The top level is innermost, and no call is running. -/
def AtTop (s : Session) : Prop := s.state.scope = s.state.globals ∧ s.state.depth = 0

/-- A program begins at the top level. -/
theorem AtTop.loaded {s s₁ : Session} (h : s.AtTop) {source : String} {m : Machine}
    (hload : s.load source = (s₁, .ok m)) : m.Unwinds m.state.globals 0 0 := by
  cases Loads.of_load hload with
  | @loaded P hread hfaults =>
      obtain ⟨hscope, hdepth⟩ := h
      show Lox.Unwinds s.state.globals s.state.globals 0 0 [.program P] s.state.scope s.state.depth
      rw [hscope, hdepth]
      exact .program P rfl rfl

/-- Whatever a program has come to, it is over at the top level. -/
theorem AtTop.run {s s' : Session} (h : s.AtTop) {limit : Nat} {source : String}
    {result : Except RunError Unit} (hrun : s.run limit source = some (s', result)) : s'.AtTop := by
  rcases run_eq_some_iff.mp hrun with ⟨e, hload, -⟩ | ⟨s₁, m, c, hload, hc, rfl, -⟩
  · cases Loads.of_load hload <;> exact h
  · have hended : (m.run limit).Unwinds m.state.globals 0 0 :=
      (h.loaded hload).run limit (Nat.zero_le _)
    have hglobals := (Machine.run_setting limit m).globals
    obtain ⟨-, hframes⟩ := Machine.result?_eq_some_iff.mp hc
    unfold Machine.Unwinds at hended
    rw [hframes] at hended
    have hplace : (m.run limit).state.scope = (m.run limit).state.globals ∧
        (m.run limit).state.depth = 0 := by
      rw [hglobals]
      generalize (m.run limit).state.scope = scope, (m.run limit).state.depth = depth at hended
      cases hended
      exact ⟨rfl, rfl⟩
    cases c <;> exact hplace

theorem Reached.atTop {s : Session} (h : s.Reached) : s.AtTop := by
  induction h with
  | fresh output clock => exact ⟨rfl, rfl⟩
  | run _ hrun ih => exact ih.run hrun
  | parse _ ih => exact ih
  | resetErrors _ ih => exact ih
  | host output clock _ ih => exact ih

/-- **Scopes and calls are put back on every exit.** Whatever ends, and in whatever way, the scope
that was innermost before is innermost again, and the depth is what it was. While a program runs the
depth is the number of calls whose callee is running, and a call fails for its depth alone if and
only if there are as many as may run. After every program the top level is innermost and no call is
running. -/
theorem scope_and_depth_restored {s : Session} (h : s.Reached) :
    (s.state.scope = s.state.globals ∧ s.state.depth = 0) ∧
      (∀ (m : Machine) (k : Nat) (c : Completion), m.Ends m.frames k c →
        (m.run k).state.scope = m.state.scope ∧ (m.run k).state.depth = m.state.depth) ∧
      ∀ (source : String) (s₁ : Session) (m : Machine), s.load source = (s₁, .ok m) → ∀ n : Nat,
        (m.run n).state.depth = (m.run n).activeCalls ∧
          (m.run n).activeCalls ≤ State.maxDepth ∧
          ∀ line, (m.run n).Raises (.fault .stackOverflow line) ↔
            ∃ callee paren args, (m.run n).calling? = some (callee, paren, args) ∧
              (m.run n).state.heap.arity? callee = some args.length ∧
              (m.run n).activeCalls = State.maxDepth ∧ paren.line = line := by
  refine ⟨h.atTop, fun m k c hends => hends.place, fun source s₁ m hload n => ?_⟩
  have hunwinds : (m.run n).Unwinds m.state.globals 0 0 :=
    (h.atTop.loaded hload).run n (Nat.zero_le _)
  have hdepth : (m.run n).state.depth = (m.run n).activeCalls := by
    have hcalls := hunwinds.depth_eq
    rw [Nat.zero_add] at hcalls
    exact hcalls
  have hle : (m.run n).activeCalls ≤ State.maxDepth := by
    have hmax := hunwinds.depth_le
    omega
  refine ⟨hdepth, hle, fun line => ?_⟩
  rw [Machine.raises_overflow_iff, hdepth]
  have hdeepest : State.maxDepth ≤ (m.run n).activeCalls ↔ (m.run n).activeCalls = State.maxDepth := by
    omega
  rw [hdeepest]

/-- A failure inside of two blocks and a call leaves everything as it was. -/
theorem scope_and_depth_restored_failing :
    ∃ (s s₁ : Session) (m : Machine) (k : Nat),
      (fresh .unlimited ⟨0⟩).run 40 "fun f() \x7b \x7b nil(); \x7d \x7d f();"
        = some (s, .error (.runtime (.fault .notCallable 1))) ∧
      s.state.scope = s.state.globals ∧ s.state.depth = 0 ∧ s.load "f();" = (s₁, .ok m) ∧
      (m.run 9).state.depth = 1 ∧
      (m.run 1).Ends (m.run 1).frames k (.raised (.fault .notCallable 1)) ∧
      ((m.run 1).run k).state.scope = (m.run 1).state.scope ∧
      ((m.run 1).run k).state.depth = (m.run 1).state.depth := by
  have hall : ((fresh .unlimited ⟨0⟩).run 40 "fun f() \x7b \x7b nil(); \x7d \x7d f();").bind
      (fun answer => (answer.1.load "f();").2.toOption.map fun m =>
        (answer.2, (m.run 9).activeCalls, ((m.run 1).alone.run 20).result?))
      = some (.error (.runtime (.fault .notCallable 1)), 1,
          some (.raised (.fault .notCallable 1))) := by
    cbv
  obtain ⟨⟨s, result⟩, hrun, hcall⟩ := Option.bind_eq_some_iff.mp hall
  have hreached : s.Reached := (Reached.fresh .unlimited ⟨0⟩).run hrun
  obtain ⟨htop, hends, hloaded⟩ := scope_and_depth_restored hreached
  rcases hload : s.load "f();" with ⟨s₁, e | m⟩
  · rw [hload] at hcall
    cases hcall
  · rw [hload] at hcall
    simp only [Except.toOption, Option.map_some, Option.some.injEq, Prod.mk.injEq] at hcall
    obtain ⟨rfl, hactive, hended⟩ := hcall
    obtain ⟨k, hk, -⟩ := Machine.exists_ends_part hended
    have hdepth := (hloaded "f();" s₁ m hload 9).1
    obtain ⟨hscope, hback⟩ := hends (m.run 1) k _ hk
    exact ⟨s, s₁, m, k, hrun, htop.1, htop.2, hload, hdepth.trans hactive, hk, hscope, hback⟩

end Session

end Lox
