import Lox.Proofs.Moves
import Lox.Proofs.Sequencing

/-!
# Parts of a run

An expression, a statement or the body of a function runs above the frames that wait for it. It has
ended when the machine comes down to these frames with a completion for the first time, and until
then it runs as if nothing waited for it. So what is known about a machine that runs a part by itself
is known about the part in any program.
-/

namespace Lox

namespace Machine

variable {m part : Machine} {base : List Frame} {k : Nat} {c : Completion}

/-- Before it has made `k` steps, the machine does not come down to these frames with a completion.
-/
def StaysAbove (m : Machine) (base : List Frame) (k : Nat) : Prop :=
  ∀ j, j < k → ∀ c, (m.run j).control = .complete c → (m.run j).frames ≠ base

/-- What runs above these frames ends after `k` steps. -/
structure Ends (m : Machine) (base : List Frame) (k : Nat) (c : Completion) : Prop where
  running : m.StaysAbove base k
  control : (m.run k).control = .complete c
  frames : (m.run k).frames = base

/-- The machine without what waits for it. -/
def alone (m : Machine) : Machine := { m with frames := [] }

theorem alone_above (m : Machine) : m.alone.above m.frames = m := rfl

theorem result?_eq_some_iff : m.result? = some c ↔ m.control = .complete c ∧ m.frames = [] := by
  obtain ⟨control, frames, st⟩ := m
  cases control with
  | eval e => exact ⟨fun h => (nomatch h), fun h => nomatch h.1⟩
  | exec s => exact ⟨fun h => (nomatch h), fun h => nomatch h.1⟩
  | complete c' =>
      cases frames with
      | nil =>
          refine ⟨fun h => ⟨?_, rfl⟩, fun h => ?_⟩
          · exact congrArg Control.complete (Option.some.inj h)
          · exact congrArg some (Control.complete.inj h.1)
      | cons frame frames => exact ⟨fun h => (nomatch h), fun h => nomatch h.2⟩

/-- The last step of a run. -/
theorem run_succ_last (k : Nat) (m : Machine) : run (k + 1) m = (run k m).step := by
  rw [run_add 1 k m, run_succ 0]
  rfl

/-- A part that has not ended runs as it does alone. -/
theorem run_above (base : List Frame) (part : Machine) :
    ∀ k, (∀ j, j < k → (part.run j).result? = none) →
      (part.above base).run k = (part.run k).above base := by
  intro k
  induction k with
  | zero =>
      intro _
      rfl
  | succ k ih =>
      intro h
      have hlast := h k (Nat.lt_succ_self k)
      rw [run_succ_last, run_succ_last, ih fun j hj => h j (Nat.lt_succ_of_lt hj)]
      exact step_above base hlast

/-- What runs above the frames has ended before the step, or it has not come down to them. -/
theorem stays_or_ends (m : Machine) (base : List Frame) (k : Nat) :
    m.StaysAbove base k ∨ ∃ j c, j < k ∧ m.Ends base j c := by
  induction k with
  | zero => exact .inl fun j hj => absurd hj (Nat.not_lt_zero j)
  | succ k ih =>
      rcases ih with hstays | ⟨j, c, hj, hends⟩
      · by_cases hend : ∃ c, (m.run k).control = .complete c ∧ (m.run k).frames = base
        · obtain ⟨c, hcontrol, hframes⟩ := hend
          exact .inr ⟨k, c, Nat.lt_succ_self k, hstays, hcontrol, hframes⟩
        · refine .inl fun j hj c hcontrol hframes => ?_
          rcases Nat.lt_succ_iff_lt_or_eq.mp hj with hj | rfl
          · exact hstays j hj c hcontrol hframes
          · exact hend ⟨c, hcontrol, hframes⟩
      · exact .inr ⟨j, c, Nat.lt_succ_of_lt hj, hends⟩

namespace StaysAbove

theorem mono {k' : Nat} (h : m.StaysAbove base k) (hk : k' ≤ k) : m.StaysAbove base k' :=
  fun j hj => h j (Nat.lt_of_lt_of_le hj hk)

/-- As long as the machine stays above the frames, the part by itself has not halted. -/
theorem running (h : (part.above base).StaysAbove base k) :
    ∀ j, j < k → (part.run j).result? = none := by
  intro j
  induction j using Nat.strongRecOn with
  | ind j ih =>
      intro hj
      have hsame := run_above base part j fun i hi => ih i hi (Nat.lt_trans hi hj)
      cases hresult : (part.run j).result? with
      | none => rfl
      | some c =>
          obtain ⟨hcontrol, hframes⟩ := result?_eq_some_iff.mp hresult
          refine absurd ?_ (h j hj c ?_)
          · rw [hsame]
            show (part.run j).frames ++ base = base
            rw [hframes]
            rfl
          · rw [hsame]
            exact hcontrol

theorem run (h : (part.above base).StaysAbove base k) :
    (part.above base).run k = (part.run k).above base :=
  run_above base part k h.running

end StaysAbove

/-- A part that ends has halted by itself. -/
theorem Ends.alone (h : (part.above base).Ends base k c) :
    (part.run k).result? = some c ∧ (part.above base).run k = (part.run k).above base := by
  have hrun := h.running.run
  have hcontrol := h.control
  have hframes := h.frames
  rw [hrun] at hcontrol hframes
  exact ⟨result?_eq_some_iff.mpr ⟨hcontrol, List.append_left_eq_self.mp hframes⟩, hrun⟩

/-- A machine that runs as the part does, with more waiting below, ends as the part does. -/
theorem Ends.above {below : List Frame} (h : part.Ends base k c)
    (hrun : ∀ j, j ≤ k → m.run j = (part.run j).above below) : m.Ends (base ++ below) k c := by
  refine ⟨fun j hj c' hc' hframes => ?_, ?_, ?_⟩
  · rw [hrun j (Nat.le_of_lt hj)] at hc' hframes
    exact h.running j hj c' hc' (List.append_cancel_right hframes)
  · rw [hrun k (Nat.le_refl k)]
    exact h.control
  · rw [hrun k (Nat.le_refl k)]
    exact congrArg (· ++ below) h.frames

theorem Ends.by_itself (h : m.Ends m.frames k c) :
    (m.alone.run k).result? = some c ∧ m.run k = (m.alone.run k).above m.frames := by
  rw [← m.alone_above] at h
  exact h.alone

/-- What runs above the frames ends when it has come down to them, and not later. -/
theorem Ends.first (h : m.Ends base k c) {j : Nat} (hj : j ≤ k) {c' : Completion}
    (hcontrol : (m.run j).control = .complete c') (hframes : (m.run j).frames = base) :
    j = k ∧ c = c' := by
  have hjk : j = k := Nat.le_antisymm hj (Nat.le_of_not_lt fun hlt => h.running j hlt c' hcontrol hframes)
  subst hjk
  exact ⟨rfl, Control.complete.inj (h.control.symm.trans hcontrol)⟩

/-- What ends below a frame has come down to this frame before. -/
theorem Ends.inner {frame : Frame} (h : m.Ends base k c) (hm : m = part.above (frame :: base)) :
    ∃ j c', j < k ∧ m.Ends (frame :: base) j c' := by
  rcases m.stays_or_ends (frame :: base) k with hstays | hended
  · -- the frame would still be there
    have hframes := h.frames
    rw [hm] at hstays hframes
    rw [hstays.run] at hframes
    have hlength : ((part.run k).frames ++ frame :: base).length = base.length :=
      congrArg List.length hframes
    rw [List.length_append, List.length_cons] at hlength
    omega
  · exact hended

/-- A machine that has halted stays as it is. -/
theorem run_of_halted {j : Nat} (h : (part.run j).result? = some c) (hjk : j ≤ k) :
    part.run k = part.run j := by
  rw [show k = j + (k - j) by omega, run_add, run_of_result? h]

/-- A part that halts by itself ends above any frames. -/
theorem exists_ends (base : List Frame) (h : (part.run k).result? = some c) :
    ∃ k', k' ≤ k ∧ (part.above base).Ends base k' c := by
  induction k with
  | zero =>
      obtain ⟨hcontrol, hframes⟩ := result?_eq_some_iff.mp h
      refine ⟨0, Nat.le_refl 0, fun j hj => absurd hj (Nat.not_lt_zero j), hcontrol, ?_⟩
      show part.frames ++ base = base
      rw [show part.frames = [] from hframes]
      rfl
  | succ k ih =>
      by_cases hbefore : ∃ j, j < k + 1 ∧ (part.run j).result?.isSome
      · -- it has halted before, and stays as it is
        obtain ⟨j, hj, hsome⟩ := hbefore
        obtain ⟨c', hc'⟩ := Option.isSome_iff_exists.mp hsome
        have hstays : (part.run k).result? = some c := by
          rw [← h, run_of_halted hc' (Nat.le_of_lt_succ hj), run_of_halted hc' (Nat.le_of_lt hj)]
        obtain ⟨k', hk', hends⟩ := ih hstays
        exact ⟨k', Nat.le_succ_of_le hk', hends⟩
      · have hrunning : ∀ j, j < k + 1 → (part.run j).result? = none := by
          intro j hj
          rw [← Option.not_isSome_iff_eq_none]
          exact fun hsome => hbefore ⟨j, hj, hsome⟩
        obtain ⟨hcontrol, hframes⟩ := result?_eq_some_iff.mp h
        refine ⟨k + 1, Nat.le_refl _, fun j hj c' hc' hbase => ?_, ?_, ?_⟩
        · rw [run_above base part j fun i hi => hrunning i (by omega)] at hc' hbase
          have hnil := List.append_left_eq_self.mp hbase
          have hhalted : (part.run j).result? = some c' := result?_eq_some_iff.mpr ⟨hc', hnil⟩
          rw [hrunning j hj] at hhalted
          exact nomatch hhalted
        · rw [run_above base part _ hrunning]
          exact hcontrol
        · rw [run_above base part _ hrunning]
          show (part.run (k + 1)).frames ++ base = base
          rw [hframes]
          rfl

/-- What a part comes to by itself it comes to above what waits for it. -/
theorem exists_ends_part (h : (m.alone.run k).result? = some c) :
    ∃ k', m.Ends m.frames k' c ∧ m.run k' = (m.alone.run k).above m.frames := by
  obtain ⟨k', hk', hends⟩ := exists_ends m.frames h
  rw [alone_above] at hends
  obtain ⟨hresult, hrun⟩ := hends.by_itself
  rw [run_of_halted hresult hk']
  exact ⟨k', hends, hrun⟩

/-! ## Calls -/

/-- A call that is made without what waits for it. -/
theorem step_call_above {call : Value × Token × List Value} (h : m.calling? = some call) :
    ({ m with frames := m.frames.take 1 } : Machine).step.above m.frames.tail = m.step := by
  obtain ⟨control, frames, st⟩ := m
  unfold calling? at h
  dsimp only at h
  split at h
  · exact (step_above _ rfl).symm
  · exact (step_above _ rfl).symm
  · exact nomatch h

end Machine

end Lox
