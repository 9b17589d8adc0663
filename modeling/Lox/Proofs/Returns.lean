import Lox.Proofs.Bookkeeping
import Lox.Proofs.Control.Sessions

/-!
# A return ends its own call

Once a body has executed a `return`, it executes nothing more: it only evaluates the value, and what
that calls comes back before the value is there. So a call yields the value of the one `return` that
its body has executed, and a body that ends in no other way has executed none.
-/

namespace Lox

open Scoping (FunctionContext)

/-! ## Statements of an activation -/

namespace Machine

/-- The statement is executed in the activation whose body has these frames below: the frames above
them are not those of further calls. -/
structure Executes (m : Machine) (base : List Frame) (s : Stmt) : Prop where
  control : m.control = .exec s
  frames : ∃ own, m.frames = own ++ base ∧ own.countP Frame.isActivation = 0

theorem executes_above {part : Machine} {base : List Frame} {s : Stmt} :
    (part.above base).Executes base s ↔ part.Executes [] s := by
  constructor
  · rintro ⟨hcontrol, own, hframes, hown⟩
    obtain rfl : part.frames = own := List.append_cancel_right hframes
    exact ⟨hcontrol, part.frames, (List.append_nil _).symm, hown⟩
  · rintro ⟨hcontrol, own, hframes, hown⟩
    rw [List.append_nil] at hframes
    exact ⟨hcontrol, own, congrArg (· ++ base) hframes, hown⟩

theorem executes_nil {part : Machine} {s : Stmt} :
    part.Executes [] s ↔ part.control = .exec s ∧ part.activeCalls = 0 := by
  constructor
  · rintro ⟨hcontrol, own, hframes, hown⟩
    rw [List.append_nil] at hframes
    refine ⟨hcontrol, ?_⟩
    unfold activeCalls
    rw [hframes]
    exact hown
  · rintro ⟨hcontrol, hcalls⟩
    exact ⟨hcontrol, part.frames, (List.append_nil _).symm, hcalls⟩

/-- What the body has given back when it ends above these frames. It has executed no `return`; or it
has executed one without a value; or one whose expression has ended with the value before. -/
inductive Gives (body : Machine) (base : List Frame) (k : Nat) : Completion → Value → Prop where
  | nothing {v : Value} :
      (∀ i, i < k → ∀ keyword value, ¬ (body.run i).Executes base (.giveBack keyword value)) →
      Gives body base k (.normal v) .nil
  | empty {i : Nat} {keyword : Token} : i < k →
      (body.run i).Executes base (.giveBack keyword none) → Gives body base k (.returned .nil) .nil
  | value {i j : Nat} {keyword : Token} {e : Expr} {v : Value} : i + 1 + j < k →
      (body.run i).Executes base (.giveBack keyword (some e)) →
      (body.run (i + 1)).control = .eval e →
      (body.run (i + 1)).Ends (.giveBack :: (body.run i).frames) j (.normal v) →
      Gives body base k (.returned v) v

/-! ## Before the first return -/

/-- The body has executed no `return` yet: returns that are on their way, and those whose value is
waited for, belong to other calls. -/
structure Unreturned (m : Machine) : Prop where
  control : ∀ v, m.control = .complete (.returned v) → 0 < m.activeCalls
  frames : ∀ below, .giveBack :: below <:+ m.frames → 0 < below.countP Frame.isActivation

theorem Below.suffix {m : Machine} {frames : List Frame} (h : m.Below frames) :
    frames <:+ m.frames := by
  cases h with
  | starts _ => exact List.suffix_refl _
  | value _ hframes _ =>
      rw [hframes]
      exact List.suffix_cons _ _

theorem Unreturned.down {m : Machine} (h : m.Unreturned) {below : List Frame}
    (hbelow : below <:+ m.frames) {control : Control} (hcontrol : ∀ v, control ≠ .complete (.returned v))
    {st : State} : Unreturned ⟨control, below, st⟩ :=
  ⟨fun v hv => absurd hv (hcontrol v), fun frames hsuffix => h.frames frames (hsuffix.trans hbelow)⟩

theorem Unreturned.push {m : Machine} (h : m.Unreturned) {control : Control}
    (hcontrol : ∀ v, control ≠ .complete (.returned v)) {frame : Frame} (hframe : frame ≠ .giveBack)
    {st : State} : Unreturned ⟨control, frame :: m.frames, st⟩ := by
  refine ⟨fun v hv => absurd hv (hcontrol v), fun frames hsuffix => ?_⟩
  rcases List.suffix_cons_iff.mp hsuffix with heq | hsuffix
  · exact absurd (List.cons.inj heq).1.symm hframe
  · exact h.frames frames hsuffix

/-- A return that is on its way in another call does not leave it with any other frame. -/
theorem Unreturned.passes {m : Machine} (h : m.Unreturned) {c : Completion} {frame : Frame}
    {below : List Frame} (hcontrol : m.control = .complete c) (hat : m.frames = frame :: below)
    (hframe : ¬ frame.isActivation) {st : State} : Unreturned ⟨.complete c, below, st⟩ := by
  refine ⟨fun v hv => ?_, fun frames hsuffix => h.frames frames ?_⟩
  · have hcalls := h.control v (hcontrol.trans hv)
    unfold activeCalls at hcalls
    rw [hat, List.countP_cons_of_neg hframe] at hcalls
    exact hcalls
  · rw [hat]
    exact hsuffix.trans (List.suffix_cons _ _)

/-- A body that executes no `return` in a step has executed none after it. -/
theorem Unreturned.moves {m m' : Machine} (h : m.Unreturned) (hmoves : m.Moves m')
    (hother : ∀ keyword value, m.control = .exec (.giveBack keyword value) → 0 < m.activeCalls) :
    m'.Unreturned := by
  have gone {frame : Frame} {below : List Frame} (hat : m.frames = frame :: below) :
      below <:+ m.frames := by
    rw [hat]
    exact List.suffix_cons _ _
  cases hmoves with
  | rests _ _ _ hbelow hgoes => exact h.down hbelow.suffix (Control.ne_returned hgoes)
  | @waits below control frame hbelow hgoes hpart =>
      have hdown : Unreturned ⟨control, below, m.state⟩ :=
        h.down hbelow.suffix (Control.ne_returned hgoes)
      refine hdown.push (Control.ne_returned hgoes) ?_
      rintro rfl
      exact nomatch hpart
  | awaits hexec =>
      -- the new frame waits for a value to return, but in a further call
      refine ⟨nofun, fun below hsuffix => ?_⟩
      rcases List.suffix_cons_iff.mp hsuffix with heq | hsuffix
      · rw [(List.cons.inj heq).2]
        exact hother _ _ hexec
      · exact h.frames below hsuffix
  | leaves hexec => exact ⟨fun _ _ => hother _ _ hexec, h.frames⟩
  | @givesBack v below _ hat =>
      have hcalls := h.frames below (hat ▸ List.suffix_refl _)
      exact ⟨fun _ _ => hcalls, fun frames hsuffix => h.frames frames (hsuffix.trans (gone hat))⟩
  | @passes c frame below hcontrol hat hkeeps =>
      -- a return never passes the frame of its call
      refine h.passes hcontrol hat fun hcall => ?_
      cases frame with
      | activation => exact nomatch hkeeps
      | _ => exact nomatch hcall
  | opens _ =>
      have hblock : Unreturned ⟨.complete .done, .block m.state.scope :: m.frames, m.state⟩ := by
        refine h.push ?_ ?_ <;> exact nofun
      refine hblock.push ?_ ?_ <;> exact nofun
  | closes hcontrol hat hsame =>
      rcases hsame with rfl | rfl
      · exact h.passes hcontrol hat nofun
      · exact h.down (gone hat) (Control.ne_returned rfl)
  | @enters f result args heap henters _ =>
      -- the frames of the call and of its body lie on what is left
      have hdown : Unreturned ⟨.complete .done, m.frames.tail, m.state⟩ :=
        h.down henters.below.suffix (Control.ne_returned rfl)
      have hcall : Unreturned
          ⟨.complete .done, .activation m.state.scope result :: m.frames.tail, m.state⟩ := by
        refine hdown.push ?_ ?_ <;> exact nofun
      refine hcall.push ?_ ?_ <;> exact nofun
  | overflows hcall _ _ =>
      refine h.down (below_of_calling hcall).suffix ?_
      exact nofun
  | returns _ hat hsame =>
      refine h.down (gone hat) fun v hv => ?_
      rcases hsame with ⟨w, rfl⟩ | ⟨⟨f, rfl⟩, -⟩
      · exact nomatch hv
      · exact nomatch hv
  | @next c s rest below _ hat =>
      have hdown : Unreturned ⟨.exec s, below, m.state⟩ := h.down (gone hat) (Control.ne_returned rfl)
      refine hdown.push ?_ ?_ <;> exact nofun
  | ends _ hat hgoes => exact h.down (gone hat) (Control.ne_returned hgoes)
  | aborts _ hat =>
      refine h.down (gone hat) ?_
      exact nofun
  | halted _ => exact h

/-- As long as a body executes no `return`, none leaves it. -/
theorem Unreturned.run {m : Machine} (h : m.Unreturned) {k : Nat}
    (hnone : ∀ i, i < k → ∀ keyword value, ¬ (m.run i).Executes [] (.giveBack keyword value)) :
    (m.run k).Unreturned := by
  induction k with
  | zero => exact h
  | succ k ih =>
      rw [run_succ_last]
      refine (ih fun i hi => hnone i (Nat.lt_succ_of_lt hi)).moves (step_moves _)
        fun keyword value hexec => ?_
      refine Nat.pos_of_ne_zero fun hcalls => ?_
      exact hnone k (Nat.lt_succ_self k) keyword value (executes_nil.mpr ⟨hexec, hcalls⟩)

end Machine

/-! ## From the return to the end of the body -/

section

variable {Good : Use → Site → Prop} {target : Station}

/-- An expression comes to statements only in the bodies that it calls. -/
theorem Leads.calls {c : FunctionContext} {p : Option String}
    (htarget : target = ⟨c, .expression p⟩) : ∀ {frames : List Frame} {station : Station},
      Leads Good target station frames → (∀ p, station.position ≠ .expression p) →
      0 < frames.countP Frame.isActivation
  | [], station, .nil hsuits, hposition => by
      obtain ⟨-, hsame | ⟨hexpression, -⟩⟩ := hsuits
      · rw [htarget] at hsame
        exact absurd hsame (hposition p)
      · exact absurd hexpression (hposition none)
  | frame :: frames, station, .cons hsuits hjoins hrest, hposition => by
      obtain ⟨-, hsame | ⟨hexpression, -⟩⟩ := hsuits
      · rw [hsame] at hposition
        have hlater {outer : Station} (hrest : Leads Good target outer frames)
            (houter : ∀ p, outer.position ≠ .expression p) :
            0 < (frame :: frames).countP Frame.isActivation := by
          have hcalls := hrest.calls htarget houter
          rw [List.countP_cons]
          omega
        -- from a statement the frames lead on to statements and bodies, until there is a call
        cases hjoins with
        | loopBody => exact hlater hrest fun _ h => nomatch h
        | sequence => exact hlater hrest fun _ h => nomatch h
        | block => exact hlater hrest fun _ h => nomatch h
        | program => exact hlater hrest fun _ h => nomatch h
        | activation caller result =>
            rw [List.countP_cons_of_pos rfl]
            exact Nat.succ_pos _
        | _ => exact absurd rfl (hposition _)
      · exact absurd hexpression (hposition none)

namespace Machine

variable {m : Machine}

/-- No return comes down to a program. -/
theorem Flows.not_returned (h : m.Flows Good target) {rest : List Stmt} {frames : List Frame}
    (hframes : m.frames = .program rest :: frames) (v : Value) :
    m.control ≠ .complete (.returned v) := by
  intro hreturned
  obtain ⟨-, station, hcontrol, hleads⟩ := h
  rw [hreturned] at hcontrol
  rw [hframes] at hleads
  cases hcontrol with
  | returned hcontext _ _ =>
      cases hleads with
      | cons hsuits hjoins _ =>
          cases hjoins with
          | program => exact hcontext hsuits.1

/-- What is executed in the course of an expression is executed in a call. -/
theorem Flows.calls {c : FunctionContext} {p : Option String}
    (h : m.Flows Good ⟨c, .expression p⟩) {s : Stmt} (hexec : m.control = .exec s) :
    0 < m.activeCalls := by
  obtain ⟨-, station, hcontrol, hleads⟩ := h
  rw [hexec] at hcontrol
  cases hcontrol with
  | exec => exact hleads.calls rfl fun _ hposition => nomatch hposition

/-- An expression does not end with a return. -/
theorem Flows.expression_result {c : FunctionContext} {p : Option String}
    (h : m.Flows Good ⟨c, .expression p⟩) {v : Value} : m.result? ≠ some (.returned v) := by
  intro hresult
  obtain ⟨hreturned, hframes⟩ := result?_eq_some_iff.mp hresult
  obtain ⟨-, station, hcontrol, hleads⟩ := h
  rw [hreturned] at hcontrol
  rw [hframes] at hleads
  cases hcontrol with
  | returned _ _ hposition => exact absurd (hleads.calls rfl hposition) (Nat.lt_irrefl 0)

/-- The return is on its way to the end of its own body. -/
structure Leaving (v : Value) (m : Machine) : Prop where
  control : m.control = .complete (.returned v)
  calls : m.activeCalls = 0

theorem Leaving.step {v : Value} (h : m.Leaving v) (hflows : m.Flows Good target) :
    m.step.Leaving v := by
  have hprogram : ∀ rest frames, m.frames ≠ .program rest :: frames :=
    fun rest frames hframes => hflows.not_returned hframes v h.control
  obtain ⟨hcontrol, hcalls⟩ := h
  obtain ⟨control, frames, st⟩ := m
  dsimp only at hcontrol hprogram
  subst hcontrol
  cases frames with
  | nil => exact ⟨rfl, rfl⟩
  | cons frame frames =>
      have hcalls : (frame :: frames).countP Frame.isActivation = 0 := hcalls
      have hrest : frames.countP Frame.isActivation = 0 := by
        rw [List.countP_cons] at hcalls
        omega
      cases frame with
      | program rest => exact absurd rfl (hprogram rest frames)
      | activation caller result =>
          -- no call is running, so this is not where the return ends
          rw [List.countP_cons_of_pos rfl] at hcalls
          exact nomatch hcalls
      | _ => exact ⟨rfl, hrest⟩

theorem Leaving.run {v : Value} (h : m.Leaving v) (hflows : m.Flows Good target) (k : Nat) :
    (m.run k).Leaving v := by
  induction k with
  | zero => exact h
  | succ k ih =>
      rw [run_succ_last]
      exact ih.step (hflows.run k)

theorem Leaving.not_executes {v : Value} (h : m.Leaving v) (s : Stmt) : ¬ m.Executes [] s :=
  fun hexec => nomatch h.control.symm.trans hexec.control

theorem Leaving.result {v : Value} (h : m.Leaving v) {c : Completion} (hc : m.result? = some c) :
    c = .returned v := by
  have hcontrol := (result?_eq_some_iff.mp hc).1
  rw [h.control] at hcontrol
  cases hcontrol
  rfl

/-- A failure stays on its way. -/
theorem run_raised {f : Failure} (h : m.control = .complete (.raised f)) (k : Nat) :
    (m.run k).control = .complete (.raised f) := by
  refine run_invariant (P := fun m => m.control = .complete (.raised f)) (fun m h => ?_) k h
  obtain ⟨control, frames, st⟩ := m
  dsimp only at h
  subst h
  cases frames with
  | nil => rfl
  | cons frame frames => cases frame <;> rfl

/-- A failure ends all that waits. -/
theorem Ends.of_raised {base : List Frame} {k : Nat} {c : Completion} (h : m.Ends base k c) {j : Nat}
    (hj : j ≤ k) {f : Failure} (hraised : (m.run j).control = .complete (.raised f)) : c = .raised f := by
  have hcontrol := h.control
  rw [← Nat.add_sub_cancel' hj, run_add, run_raised hraised] at hcontrol
  exact (Control.complete.inj hcontrol).symm

/-- What comes of the `return` that a body has just executed. -/
inductive Resolves (m : Machine) (k : Nat) : Option Expr → Completion → Prop where
  | empty : Resolves m k none (.returned .nil)
  | value {e : Expr} {j : Nat} {v : Value} : j + 1 < k → (m.run 1).control = .eval e →
      (m.run 1).Ends (.giveBack :: m.frames) j (.normal v) → Resolves m k (some e) (.returned v)
  | failed {value : Option Expr} (f : Failure) : Resolves m k value (.raised f)

theorem Leaving.resolves {v : Value} (h : m.Leaving v) (hflows : m.Flows Good target) (k : Nat) :
    (∀ s, ¬ (m.run k).Executes [] s) ∧ ∀ c, (m.run k).result? = some c → c = .returned v :=
  ⟨(h.run hflows k).not_executes, fun _ hc => (h.run hflows k).result hc⟩

theorem step_giveBack {v : Value} {below : List Frame} (hcontrol : m.control = .complete (.normal v))
    (hframes : m.frames = .giveBack :: below) (hcalls : below.countP Frame.isActivation = 0) :
    m.step.Leaving v := by
  obtain ⟨control, frames, st⟩ := m
  dsimp only at hcontrol hframes
  subst hcontrol hframes
  exact ⟨rfl, hcalls⟩

/-- The value of a `return` is an expression that is evaluated in its place. -/
theorem Flows.given_back (h : m.Flows Good target) {keyword : Token} {e : Expr}
    (hcontrol : m.control = .exec (.giveBack keyword (some e))) :
    ∃ context, (ofExpr e m.state).Flows Good ⟨context, .expression none⟩ := by
  obtain ⟨hheap, station, hat, -⟩ := h
  rw [hcontrol] at hat
  cases hat with
  | @exec context _ hs =>
      exact ⟨context, hheap, _, .eval (hs.expr fun _ => List.Subset.refl _), .nil (.refl _)⟩

/-- While an expression is evaluated, the body around it executes nothing: the statements are those of
the functions that are called. -/
theorem Flows.not_executes_above {context : FunctionContext} {p : Option String}
    (h : m.Flows Good ⟨context, .expression p⟩) (base : List Frame) (s : Stmt) :
    ¬ (m.above base).Executes [] s := by
  intro hexec
  obtain ⟨hcontrol, hnone⟩ := executes_nil.mp hexec
  have hsome := h.calls hcontrol
  have happend : (m.frames ++ base).countP Frame.isActivation = 0 := hnone
  rw [List.countP_append] at happend
  unfold activeCalls at hsome
  omega

/-- **After its first `return` a body executes nothing.** -/
theorem Flows.after_return (h : m.Flows Good target) {keyword : Token} {value : Option Expr}
    (hexec : m.Executes [] (.giveBack keyword value)) {k : Nat} (hk : 0 < k) :
    (∀ s, ¬ (m.run k).Executes [] s) ∧
      ∀ c, (m.run k).result? = some c → m.Resolves k value c := by
  obtain ⟨hcontrol, hcalls⟩ := executes_nil.mp hexec
  have hlater (i : Nat) (hi : i ≤ k) : m.run k = (m.run i).run (k - i) := by
    rw [← run_add, Nat.add_sub_cancel' hi]
  have hstep : m.run 1 = execute (.giveBack keyword value) m.frames m.state := by
    obtain ⟨control, frames, st⟩ := m
    dsimp only at hcontrol
    subst hcontrol
    exact run_succ 0 _
  cases value with
  | none =>
      have hleaving : (m.run 1).Leaving .nil := by
        rw [hstep]
        exact ⟨rfl, hcalls⟩
      rw [hlater 1 hk]
      obtain ⟨hnone, hresult⟩ := hleaving.resolves (h.run 1) (k - 1)
      refine ⟨hnone, fun c hc => ?_⟩
      rw [hresult c hc]
      exact .empty
  | some e =>
      -- the value is evaluated as it is by itself
      have hpart : m.run 1 = (ofExpr e m.state).above (.giveBack :: m.frames) := hstep
      obtain ⟨context, hflows⟩ := h.given_back hcontrol
      rcases (m.run 1).stays_or_ends (.giveBack :: m.frames) (k - 1) with hstays | ⟨j, c', hj, hends⟩
      · -- it has no value yet, and its frame still waits
        rw [hpart] at hstays
        have hrun : m.run k = ((ofExpr e m.state).run (k - 1)).above (.giveBack :: m.frames) := by
          rw [hlater 1 hk, hpart, hstays.run]
        rw [hrun]
        refine ⟨(hflows.run (k - 1)).not_executes_above _, fun c hc => ?_⟩
        obtain ⟨-, hframes⟩ := result?_eq_some_iff.mp hc
        exact absurd (List.append_eq_nil_iff.mp hframes).2 nofun
      · have hjk : j + 2 ≤ k := by omega
        have hat : m.run (j + 1) = (m.run 1).run j := by rw [← run_add, Nat.add_comm]
        have hended := hends.control
        cases c' with
        | normal v =>
            -- the step after the value begins the return
            have hleaving : (m.run (j + 2)).Leaving v := by
              rw [run_succ_last, hat]
              exact step_giveBack hended hends.frames hcalls
            rw [hlater _ hjk]
            obtain ⟨hnone, hresult⟩ := hleaving.resolves (h.run (j + 2)) (k - (j + 2))
            refine ⟨hnone, fun c hc => ?_⟩
            rw [hresult c hc]
            exact .value hjk (congrArg Machine.control hpart) hends
        | returned v =>
            rw [hpart] at hends
            exact absurd hends.alone.1 (hflows.run j).expression_result
        | raised f =>
            have hraised : (m.run k).control = .complete (.raised f) := by
              rw [hlater (j + 1) (Nat.le_of_succ_le hjk), hat]
              exact run_raised hended _
            refine ⟨fun s hs => (nomatch hraised.symm.trans hs.control), fun c hc => ?_⟩
            have hc := (result?_eq_some_iff.mp hc).1
            rw [hraised] at hc
            cases hc
            exact .failed f

/-- A body that ends without a failure has given something back. -/
theorem Flows.gives (h : m.Flows Good target) (hm : m.Unreturned) {k : Nat} {c : Completion}
    (hc : (m.run k).result? = some c) (hraised : ∀ f, c ≠ .raised f) :
    ∃ v, m.Gives [] k c v := by
  by_cases hreturn : ∃ i, i < k ∧ ∃ keyword value, (m.run i).Executes [] (.giveBack keyword value)
  · obtain ⟨i, hi, keyword, value, hexec⟩ := hreturn
    have hk : (m.run i).run (k - i) = m.run k := by rw [← run_add, Nat.add_sub_cancel' (Nat.le_of_lt hi)]
    have hnext : (m.run i).run 1 = m.run (i + 1) := (run_add 1 i m).symm
    rw [← hk] at hc
    obtain ⟨-, hresolves⟩ := (h.run i).after_return hexec (Nat.sub_pos_of_lt hi)
    cases hresolves c hc with
    | empty => exact ⟨.nil, .empty hi hexec⟩
    | value hj heval hends =>
        rw [hnext] at heval hends
        exact ⟨_, .value (by omega) hexec heval hends⟩
    | failed f => exact absurd rfl (hraised f)
  · have hnone : ∀ i, i < k → ∀ keyword value,
        ¬ (m.run i).Executes [] (.giveBack keyword value) :=
      fun i hi keyword value hexec => hreturn ⟨i, hi, keyword, value, hexec⟩
    -- so no return can have come from the body
    have hended := hm.run hnone
    obtain ⟨hcontrol, hframes⟩ := result?_eq_some_iff.mp hc
    cases c with
    | normal v => exact ⟨.nil, .nothing hnone⟩
    | returned v =>
        have hcalls := hended.control v hcontrol
        unfold activeCalls at hcalls
        rw [hframes] at hcalls
        exact absurd hcalls (Nat.lt_irrefl 0)
    | raised f => exact absurd rfl (hraised f)

/-- What a body gives back it gives back to whatever waits for it. -/
theorem Gives.above {part : Machine} {base : List Frame} {k : Nat} {c : Completion} {v : Value}
    (h : part.Gives [] k c v)
    (hrun : ∀ i, i < k → (part.above base).run i = (part.run i).above base) :
    (part.above base).Gives base k c v := by
  have hexecutes {i : Nat} (hi : i < k) (s : Stmt) :
      ((part.above base).run i).Executes base s ↔ (part.run i).Executes [] s := by
    rw [hrun i hi, executes_above]
  cases h with
  | nothing hnone =>
      exact .nothing fun i hi keyword value hexec =>
        hnone i hi keyword value ((hexecutes hi _).mp hexec)
  | empty hi hexec => exact .empty hi ((hexecutes hi _).mpr hexec)
  | @value i j keyword e v hj hexec heval hends =>
      have hi : i < k := by omega
      have heval' : ((part.above base).run (i + 1)).control = .eval e := by
        rw [hrun (i + 1) (by omega)]
        exact heval
      have hends' : ((part.above base).run (i + 1)).Ends
          (.giveBack :: ((part.above base).run i).frames) j (.normal v) := by
        rw [hrun i hi]
        refine hends.above fun t ht => ?_
        rw [← run_add, ← run_add]
        exact hrun _ (by omega)
      exact .value hj ((hexecutes hi _).mpr hexec) heval' hends'

/-! ## Calls -/

/-- What waits for the end of the body that is entered. -/
def waiting (m : Machine) (result : CallResult) : List Frame :=
  .activation m.state.scope result :: m.frames.tail

/-- The machine enters the body. -/
theorem Enters.step {f : Closure} {result : CallResult} (h : m.Enters f result) :
    m.step.control = .complete .done ∧
      m.step.frames = .sequence f.declared.body :: m.waiting result := by
  obtain ⟨st, args, hstep, hscope⟩ := h.step_eq
  rw [hstep, waiting, ← hscope]
  exact ⟨rfl, rfl⟩

/-- The flag of an initializer says what its call yields. -/
theorem Enters.isInitializer_iff {f : Closure} {result : CallResult} (h : m.Enters f result)
    (ho : m.state.heap.Orderly Good) : f.isInitializer = true ↔ result ≠ .ofBody := by
  cases h with
  | @function f paren args hcall hlength hdepth =>
      cases (m.state.heap.functionAt f).isInitializer with
      | true => exact ⟨fun _ => nofun, fun _ => rfl⟩
      | false => exact ⟨nofun, fun h => absurd rfl h⟩
  | @construction c init paren args hcall hinit hlength hdepth =>
      obtain ⟨d, hmethod⟩ := m.state.heap.exists_class_of_findMethodFrom hinit
      have hinitializer := (ho.methods d _ init hmethod).2
      refine ⟨fun _ => nofun, fun _ => ?_⟩
      rw [beq_self_eq_true] at hinitializer
      exact hinitializer

/-- The body that is entered keeps to the rules of its function. -/
theorem Enters.orderly {f : Closure} {result : CallResult} (h : m.Enters f result)
    (ho : m.state.heap.Orderly Good) : f.Orderly Good := by
  cases h with
  | @function f => exact ho.functions f
  | @construction c init => exact ho.functions init

/-- The body of a call, by itself. -/
theorem Enters.body {f : Closure} {result : CallResult} (h : m.Enters f result)
    (hflows : m.Flows Good target) :
    ∃ (part : Machine) (context : FunctionContext), m.step = part.above (m.waiting result) ∧
      part.Unreturned ∧ part.Flows Good ⟨context, .body⟩ ∧
      (f.isInitializer = true → context = .initializer) := by
  obtain ⟨hcontrol, hframes⟩ := h.step
  obtain ⟨context, hcontext, hinitializer, hdeclared⟩ := h.orderly hflows.heap
  refine ⟨⟨.complete .done, [.sequence f.declared.body], m.step.state⟩, context, ?_,
    ⟨nofun, fun below hsuffix => ?_⟩, ⟨hflows.step.heap, ⟨context, .statement none⟩, .normal _ _, ?_⟩,
    hinitializer.mp⟩
  · generalize m.step = entered at hcontrol hframes
    obtain ⟨control, frames, st⟩ := entered
    dsimp only at hcontrol hframes
    subst hcontrol hframes
    rfl
  · rcases List.suffix_cons_iff.mp hsuffix with heq | hsuffix
    · exact nomatch (List.cons.inj heq).1
    · exact nomatch List.eq_nil_of_suffix_nil hsuffix
  · exact (Leads.nil (.refl _)).push (.sequence hdeclared.body)

/-- What a body has given back is the value of its call. -/
theorem Gives.step_activation {body ended : Machine} {base : List Frame} {k : Nat} {c : Completion}
    {v : Value} (h : body.Gives base k c v) (hcontrol : ended.control = .complete c)
    {caller : ScopeId} {result : CallResult} {frames : List Frame}
    (hframes : ended.frames = .activation caller result :: frames) :
    ended.step.control = .complete (.normal (callValue ended.state.heap result v)) ∧
      ended.step.frames = frames := by
  obtain ⟨control, allFrames, st⟩ := ended
  dsimp only at hcontrol hframes
  subst hcontrol hframes
  cases h with
  | nothing => exact ⟨rfl, rfl⟩
  | empty => exact ⟨rfl, rfl⟩
  | value => exact ⟨rfl, rfl⟩

/-- A body that has ended has failed or given something back. -/
theorem Enters.gives {f : Closure} {result : CallResult} (h : m.Enters f result)
    (hflows : m.Flows Good target) {k : Nat} {c : Completion}
    (hends : m.step.Ends (m.waiting result) k c) :
    (∃ failure, c = .raised failure) ∨ ∃ v, m.step.Gives (m.waiting result) k c v := by
  by_cases hraised : ∃ failure, c = .raised failure
  · exact .inl hraised
  · obtain ⟨part, context, hpart, hunreturned, hbody, -⟩ := h.body hflows
    rw [hpart] at hends ⊢
    obtain ⟨v, hgives⟩ := hbody.gives hunreturned hends.alone.1
      fun failure hfailure => hraised ⟨failure, hfailure⟩
    exact .inr ⟨v, hgives.above fun i hi => (hends.running.mono (Nat.le_of_lt hi)).run⟩

/-- A call that ends with a value ends right after its body, which has given something back. -/
theorem Enters.yields {f : Closure} {result : CallResult} (h : m.Enters f result)
    (hflows : m.Flows Good target) {k : Nat} {w : Value}
    (hends : m.step.Ends m.frames.tail k (.normal w)) :
    ∃ j c v, k = j + 1 ∧ m.step.Ends (m.waiting result) j c ∧ m.step.Gives (m.waiting result) j c v ∧
      (result = .ofBody → w = v) := by
  obtain ⟨part, context, hpart, -⟩ := h.body hflows
  obtain ⟨j, c, hj, hended⟩ := hends.inner hpart
  rcases h.gives hflows hended with ⟨f, rfl⟩ | ⟨v, hgives⟩
  · -- a failure of the body is one of the call
    exact absurd (hends.of_raised (Nat.le_of_lt hj) hended.control) Completion.noConfusion
  · obtain ⟨hcontrol, hframes⟩ := hgives.step_activation hended.control hended.frames
    rw [← run_succ_last] at hcontrol hframes
    -- it is over as soon as the frame of the call is gone
    obtain ⟨hk, hw⟩ := hends.first hj hcontrol hframes
    refine ⟨j, c, v, hk.symm, hended, hgives, ?_⟩
    rintro rfl
    cases hw
    rfl

/-- The body of an initializer gives `nil` back, if it gives anything back. -/
theorem Enters.initializes {f : Closure} {result : CallResult} (h : m.Enters f result)
    (hflows : m.Flows Good target) (hinitializer : f.isInitializer = true) {k : Nat} {c : Completion}
    (hends : m.step.Ends (m.waiting result) k c) {v : Value} (hc : c = .returned v) : v = .nil := by
  obtain ⟨part, context, hpart, -, hbody, hcontext⟩ := h.body hflows
  rw [hpart] at hends
  obtain ⟨hcontrol, hframes⟩ := result?_eq_some_iff.mp hends.alone.1
  obtain ⟨-, station, hat, hleads⟩ := hbody.run k
  rw [hcontrol, hc] at hat
  rw [hframes] at hleads
  cases hat with
  | returned _ hvalue _ =>
      cases hleads with
      | nil hsuits => exact hvalue (hsuits.1.trans (hcontext hinitializer))

/-- After a `return` the body executes nothing. -/
theorem Enters.not_executes {f : Closure} {result : CallResult} (h : m.Enters f result)
    (hflows : m.Flows Good target) {i j : Nat} (hij : i < j)
    (hstays : m.step.StaysAbove (m.waiting result) j) {keyword : Token} {value : Option Expr}
    (hexec : (m.step.run i).Executes (m.waiting result) (.giveBack keyword value)) (s : Stmt) :
    ¬ (m.step.run j).Executes (m.waiting result) s := by
  obtain ⟨part, context, hpart, -, hbody, -⟩ := h.body hflows
  rw [hpart] at hstays hexec ⊢
  rw [(hstays.mono (Nat.le_of_lt hij)).run, executes_above] at hexec
  rw [hstays.run, executes_above]
  have hafter := ((hbody.run i).after_return hexec (Nat.sub_pos_of_lt hij)).1 s
  rwa [← run_add, Nat.add_sub_cancel' (Nat.le_of_lt hij)] at hafter

end Machine

end

namespace Session

/-- **A return ends its own call, and no other.** No return ever comes to a program. Nothing of a body
is executed after a `return` of its own; so a body that ends without a failure gives back what the one
`return` has given that it has executed, or `nil` if it has executed none, and this is what the call
yields. The body of an initializer gives only `nil` back, and initializers are the methods with the
name for it. -/
theorem return_ends_its_call {s s₁ : Session} (h : s.Reached) {source : String} {m : Machine}
    (hload : s.load source = (s₁, .ok m)) (n : Nat) :
    (∀ rest frames v, (m.run n).frames = .program rest :: frames →
      (m.run n).control ≠ .complete (.returned v)) ∧
    (∀ (c : ClassId) (name : String) f,
      ((m.run n).state.heap.classAt c).methods[name]? = some f →
        ((m.run n).state.heap.functionAt f).isInitializer = (name == Function.initializerName)) ∧
    ∀ f result, (m.run n).Enters f result →
      (m.run n).step.frames = .sequence f.declared.body :: (m.run n).waiting result ∧
      (∀ i j keyword value stmt, i < j →
        (m.run n).step.StaysAbove ((m.run n).waiting result) j →
        ((m.run n).step.run i).Executes ((m.run n).waiting result) (.giveBack keyword value) →
        ¬ ((m.run n).step.run j).Executes ((m.run n).waiting result) stmt) ∧
      (∀ k c, (m.run n).step.Ends ((m.run n).waiting result) k c →
        ((∃ failure, c = .raised failure) ∨
          ∃ v, (m.run n).step.Gives ((m.run n).waiting result) k c v) ∧
        (f.isInitializer = true → ∀ v, c = .returned v → v = .nil)) ∧
      ∀ k w, (m.run n).step.Ends (m.run n).frames.tail k (.normal w) →
        ∃ j c v, k = j + 1 ∧ (m.run n).step.Ends ((m.run n).waiting result) j c ∧
          (m.run n).step.Gives ((m.run n).waiting result) j c v ∧
          (f.isInitializer = false → w = v) := by
  obtain ⟨programs, hbelongs⟩ := h.belongs hload
  have hflows := (hbelongs n).flows
  refine ⟨fun rest frames v hframes => hflows.not_returned hframes v,
    fun c name f hmethod => (hflows.heap.methods c name f hmethod).2,
    fun f result henters => ⟨henters.step.2, ?_, ?_, ?_⟩⟩
  · exact fun i j keyword value stmt hij hstays hexec =>
      henters.not_executes hflows hij hstays hexec stmt
  · exact fun k c hends => ⟨henters.gives hflows hends, fun hinitializer v hc =>
      henters.initializes hflows hinitializer hends hc⟩
  · intro k w hends
    obtain ⟨j, c, v, hk, hended, hgives, hvalue⟩ := henters.yields hflows hends
    refine ⟨j, c, v, hk, hended, hgives, fun hno => hvalue ?_⟩
    have hflag := henters.isInitializer_iff hflows.heap
    rw [hno] at hflag
    exact Decidable.of_not_not fun hresult => Bool.false_ne_true (hflag.mpr hresult)

/-- A function returns itself out of a loop in which another one has returned. -/
theorem return_ends_its_call_nested :
    ∃ (s₁ : Session) (m : Machine) (f : FunctionId) (j : Nat) (c : Completion),
      (fresh .unlimited ⟨0⟩).load
        "fun f() \x7b while (true) \x7b fun g() \x7b return nil; \x7d if (g() == nil) return f; \x7d \x7d f();"
        = (s₁, .ok m) ∧
      (m.run 6).Enters ((m.run 6).state.heap.functionAt f) .ofBody ∧
      (m.run 6).step.Ends (m.run 6).frames.tail (j + 1) (.normal (.function f)) ∧
      (m.run 6).step.Ends ((m.run 6).waiting .ofBody) j c ∧
      (m.run 6).step.Gives ((m.run 6).waiting .ofBody) j c (.function f) := by
  -- the call by itself, without what waits for it
  have hall : ((fresh .unlimited ⟨0⟩).load
      "fun f() \x7b while (true) \x7b fun g() \x7b return nil; \x7d if (g() == nil) return f; \x7d \x7d f();").2.toOption.bind
      (fun m => (m.run 6).calling?.map fun call =>
        (call.1, decide (call.2.2.length = ((m.run 6).state.heap.functionAt ⟨0⟩).declared.arity),
          decide ((m.run 6).state.depth < State.maxDepth),
          ((m.run 6).state.heap.functionAt ⟨0⟩).isInitializer,
          (({ m.run 6 with frames := (m.run 6).frames.take 1 } : Machine).step.run 40).result?))
      = some (.function ⟨0⟩, true, true, false, some (.normal (.function ⟨0⟩))) := by
    cbv
  rcases hload : (fresh .unlimited ⟨0⟩).load
      "fun f() \x7b while (true) \x7b fun g() \x7b return nil; \x7d if (g() == nil) return f; \x7d \x7d f();"
      with ⟨s₁, e | m⟩
  · rw [hload] at hall
    cases hall
  · rw [hload] at hall
    obtain ⟨⟨callee, paren, args⟩, hcall, hfacts⟩ := Option.map_eq_some_iff.mp hall
    simp only [Prod.mk.injEq, decide_eq_true_eq] at hfacts
    obtain ⟨rfl, hlength, hdepth, hinitializer, hresult⟩ := hfacts
    have henters : (m.run 6).Enters ((m.run 6).state.heap.functionAt ⟨0⟩) .ofBody := by
      have h := Machine.Enters.function hcall hlength hdepth
      rw [hinitializer] at h
      exact h
    obtain ⟨k, -, hends⟩ := Machine.exists_ends (m.run 6).frames.tail hresult
    rw [Machine.step_call_above hcall] at hends
    obtain ⟨-, -, hcalls⟩ := return_ends_its_call (.fresh .unlimited ⟨0⟩) hload 6
    obtain ⟨-, -, -, hyields⟩ := hcalls _ _ henters
    obtain ⟨j, c, v, rfl, hended, hgives, hvalue⟩ := hyields k _ hends
    obtain rfl := hvalue hinitializer
    exact ⟨s₁, m, ⟨0⟩, j, c, rfl, henters, hends, hended, hgives⟩

end Session

end Lox
