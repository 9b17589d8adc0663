import Lox.Proofs.Sessions.Mirrored
import Lox.Proofs.Sessions.Settled

/-!
# Rejected programs leave no trace

Reading a program uses up numbers, and a program whose scopes are at fault has left addresses
behind. But these are addresses of numbers that are never given out again, and numbers are all
alike. So after a program was rejected, or only read, a session goes on as if it had never seen it.
-/

namespace Lox

namespace Session

variable {M : Nat} {s s' : Session} {source : String}

/-- The answers show no numbers that could be moved. -/
theorem answers_moved_id : ∀ (inputs : List (Nat × String)) (s : Session),
    (s.answers inputs).map (Answer.moved id) = s.answers inputs
  | [], _ => rfl
  | (limit, source) :: rest, s => by
      cases hrun : s.run limit source with
      | none => rw [answers_of_none hrun, List.map_singleton, Answer.moved_id]
      | some ended =>
          obtain ⟨s', result⟩ := ended
          rw [answers_of_some hrun, List.map_cons, Answer.moved_id, answers_moved_id rest s']

/-- A session that differs only in numbers that were given out since, and in their addresses,
mirrors the one before. -/
theorem Settled.mirrors (hs : s.Settled M) (hs' : s'.Settled M)
    (hstate : s'.state = { s.state with addresses := s'.state.addresses })
    (hle : s.nextId ≤ s'.nextId)
    (hsame : ∀ i, i < s.nextId → s'.state.addresses[i]? = s.state.addresses[i]?) :
    s.Mirrors (.shiftFrom s.nextId (s'.nextId - s.nextId)) (s'.nextId - s.nextId) s' where
  state := by
    have hheap := hs.heap _ (Renaming.shiftFrom_keeps s.nextId (s'.nextId - s.nextId) M)
    simp only [State.renamed, hheap]
    exact hstate
  addresses := hs.readdressed_shiftFrom hs' hle hsame
  nextId := by omega
  ids i hi := if_neg (by omega)
  injective := Renaming.shiftFrom_injective _ _
  zero := rfl

/-- Sessions that differ in nothing else answer alike. -/
theorem Settled.answers_eq (hs : s.Settled M) (hs' : s'.Settled M)
    (hstate : s'.state = { s.state with addresses := s'.state.addresses })
    (hle : s.nextId ≤ s'.nextId)
    (hsame : ∀ i, i < s.nextId → s'.state.addresses[i]? = s.state.addresses[i]?)
    (inputs : List (Nat × String)) : s'.answers inputs = s.answers inputs := by
  rw [(hs.mirrors hs' hstate hle hsame).answers fun _ _ _ _ => rfl]
  exact answers_moved_id inputs s

/-- **A rejected program leaves no trace**, and neither does one that is only read: nothing is
printed or defined, no time is read, no failure is remembered, and all programs that are run from
then on get the answers that they would have got before, if the clock shows them the same times,
whichever these are. -/
theorem rejected_leaves_no_trace (hs : s.Reached)
    (h : (∃ limit ds, s.run limit source = some (s', .error (.static ds))) ∨
      s' = (s.parse source).2) :
    s'.state = { s.state with addresses := s'.state.addresses } ∧
      s'.hadRuntimeError = s.hadRuntimeError ∧
      ∀ clock inputs, (s'.timed clock).answers inputs = (s.timed clock).answers inputs := by
  obtain ⟨M, hsettled⟩ := hs.settled
  rcases h with ⟨limit, ds, hrun⟩ | rfl
  · have hload := run_eq_static hrun
    have hsettled' := hsettled.load source
    rw [hload] at hsettled'
    cases Loads.of_load hload with
    | unread hread =>
        exact ⟨rfl, rfl, fun clock => (hsettled.timed clock).answers_eq (hsettled'.timed clock) rfl
          Source.le_read_nextId fun _ _ => rfl⟩
    | unscoped hread hfaults =>
        exact ⟨rfl, rfl, fun clock => (hsettled.timed clock).answers_eq (hsettled'.timed clock) rfl
          Source.le_read_nextId (noted_addresses hread)⟩
  · have hsettled' := hsettled.parse source
    exact ⟨rfl, rfl, fun clock => (hsettled.timed clock).answers_eq (hsettled'.timed clock) rfl
      Source.le_read_nextId fun _ _ => rfl⟩

/-- A local variable that is read in its own initial value has got an address when it is rejected.
-/
theorem rejected_leaves_no_trace_ownInitializer :
    let s := fresh .unlimited ⟨0⟩
    let s' := (s.load "{ var a = a; }").1
    s.run 0 "{ var a = a; }" = some (s',
      .error (.static [⟨1, .atLexeme "a", .scoping .readInOwnInitializer⟩])) ∧
      s'.state.addresses[0]? = some 0 ∧
      ∀ clock inputs, (s'.timed clock).answers inputs = (s.timed clock).answers inputs := by
  intro s s'
  have hload : (s.load "{ var a = a; }").2
      = .error (.static [⟨1, .atLexeme "a", .scoping .readInOwnInitializer⟩]) := by
    cbv
  have haddress : s'.state.addresses[0]? = some 0 := by
    show ((fresh .unlimited ⟨0⟩).load "{ var a = a; }").1.state.addresses[0]? = some 0
    cbv
  have hrun : s.run 0 "{ var a = a; }" = some (s',
      .error (.static [⟨1, .atLexeme "a", .scoping .readInOwnInitializer⟩])) :=
    run_of_error (Prod.ext rfl hload)
  exact ⟨hrun, haddress,
    (rejected_leaves_no_trace (.fresh .unlimited ⟨0⟩) (.inl ⟨0, _, hrun⟩)).2.2⟩

end Session

end Lox
