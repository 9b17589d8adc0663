import Lox.Proofs.Sessions.Settled

/-!
# References for the life of a session

A reference is numbered when it is read, and from then on the number stands for it alone, whatever
else the session reads or runs. Numbers are given out in order, also to trees of which nothing comes
because the source is at fault elsewhere. So the addresses in the table are those of references that
have been read, and once those of a program have been noted, no later program touches them.
-/

namespace Lox

theorem Numbered.skip {k k' : Nat} (h : k ≤ k') : Numbered k k' [] :=
  ⟨h, List.nodup_nil, fun _ hu => nomatch hu⟩

/-- A tree that was read when `first` was the next number, and left `next` as the next one. -/
structure Reading where
  first : Nat
  tree : List Stmt
  next : Nat

namespace Session

/-- The tree that the session reads from a source, if its tokens form one. -/
def reading (s : Session) (source : String) : List Reading :=
  match (parseProgram (Source.tokens source) s.nextId).result with
  | .ok tree => [⟨s.nextId, tree, (s.parse source).2.nextId⟩]
  | .error _ => []

/-- `s.Serves log s'`: the session `s` has come to `s'`, with `log` as the trees that it has read on
the way, in order. Calls may fail in every stage. -/
inductive Serves (s : Session) : List Reading → Session → Prop where
  | start : Serves s [] s
  | parse {log : List Reading} {s' : Session} (source : String) :
      Serves s log s' → Serves s (log ++ s'.reading source) (s'.parse source).2
  | run {log : List Reading} {s' s'' : Session} {limit : Nat} {source : String}
      {result : Except RunError Unit} :
      Serves s log s' → s'.run limit source = some (s'', result) →
      Serves s (log ++ s'.reading source) s''
  | resetErrors {log : List Reading} {s' : Session} :
      Serves s log s' → Serves s log s'.resetErrors
  | host {log : List Reading} {s' : Session} (output : Sink) (clock : Clock) :
      Serves s log s' → Serves s log { s' with state := { s'.state with output, clock } }

/-- All references of the trees that have been read. -/
def uses (log : List Reading) : List Reference := log.flatMap fun r => Stmt.referencesAll r.tree

theorem Serves.reached {output : Sink} {clock : Clock} {log : List Reading} {s : Session}
    (h : (fresh output clock).Serves log s) : s.Reached := by
  induction h with
  | start => exact .fresh output clock
  | parse source _ ih => exact ih.parse
  | run _ hrun ih => exact ih.run hrun
  | resetErrors _ ih => exact ih.resetErrors
  | host output clock _ ih => exact ih.host output clock

/-! ## One call -/

variable {s s' : Session} {source : String}

theorem load_nextId (s : Session) (source : String) :
    (s.load source).1.nextId = (s.parse source).2.nextId := by
  have h := s.loads source
  generalize (s.load source).1 = s₁, (s.load source).2 = result at h
  cases h <;> rfl

/-- Loading a program leaves the addresses of all references alone that were read before. -/
theorem load_addresses (s : Session) (source : String) {i : Nat} (hi : i < s.nextId) :
    (s.load source).1.state.addresses[i]? = s.state.addresses[i]? := by
  have h := s.loads source
  generalize (s.load source).1 = s₁, (s.load source).2 = result at h
  cases h with
  | unread => rfl
  | unscoped hread => exact noted_addresses hread i hi
  | loaded hread => exact noted_addresses hread i hi

/-- A call ends with the numbers and addresses that its source was loaded with. -/
theorem run_table {limit : Nat} {result : Except RunError Unit}
    (hrun : s.run limit source = some (s', result)) :
    s'.nextId = (s.parse source).2.nextId ∧
      s'.state.addresses = (s.load source).1.state.addresses := by
  rw [← load_nextId]
  rcases run_eq_some_iff.mp hrun with ⟨e, hload, -⟩ | ⟨s₁, m, c, hload, -, rfl, -⟩
  · rw [hload]
    exact ⟨rfl, rfl⟩
  · rw [hload, conclude_state]
    refine ⟨?_, loaded_addresses hload limit⟩
    cases c <;> rfl

/-- What is read is numbered from where the session stood to where it then stands. -/
theorem reading_numbered (s : Session) (source : String) :
    Numbered s.nextId (s.parse source).2.nextId (uses (s.reading source)) := by
  have hle : s.nextId ≤ (s.parse source).2.nextId := Source.le_read_nextId
  unfold reading
  split
  · next tree htree =>
    rw [uses, List.flatMap_singleton]
    have hnext : (s.parse source).2.nextId
        = (parseProgram (Source.tokens source) s.nextId).nextId := rfl
    rw [Source.tokens_eq] at htree hnext
    rw [hnext]
    exact (program_of_parseProgram (Source.body_kind source) rfl htree).numbered
  · exact .skip hle

theorem mem_reading {r : Reading} (h : r ∈ s.reading source) :
    r.first = s.nextId ∧ r.next = (s.parse source).2.nextId ∧ s.reading source = [r] := by
  unfold reading at h ⊢
  split at h
  · obtain rfl := List.mem_singleton.mp h
    exact ⟨rfl, rfl, rfl⟩
  · exact nomatch h

/-! ## All calls -/

theorem uses_append (log log' : List Reading) : uses (log ++ log') = uses log ++ uses log' :=
  List.flatMap_append

/-- All references that are read are numbered on and on. -/
theorem Serves.numbered {log : List Reading} (h : s.Serves log s') :
    Numbered s.nextId s'.nextId (uses log) := by
  induction h with
  | start => exact .nil
  | @parse log s' source _ ih =>
      rw [uses_append]
      exact ih.append (s'.reading_numbered source)
  | @run log s' s'' limit source result _ hrun ih =>
      rw [uses_append, (run_table hrun).1]
      exact ih.append (s'.reading_numbered source)
  | resetErrors _ ih => exact ih
  | host output clock _ ih => exact ih

/-- No call touches the addresses of references that were read before it. -/
theorem Serves.addresses {log : List Reading} (h : s.Serves log s') {i : Nat} (hi : i < s.nextId) :
    s'.state.addresses[i]? = s.state.addresses[i]? := by
  induction h with
  | start => rfl
  | parse source _ ih => exact ih
  | @run log s' s'' limit source result hserves hrun ih =>
      have hi' : i < s'.nextId := Nat.lt_of_lt_of_le hi hserves.numbered.le
      rw [(run_table hrun).2, load_addresses s' source hi', ih]
  | resetErrors _ ih => exact ih
  | host output clock _ ih => exact ih

/-- Each tree on the log was read at some time, with the numbers from then on. -/
theorem Serves.reading_bounds {log : List Reading} (h : s.Serves log s') :
    ∀ r ∈ log, s.nextId ≤ r.first ∧ r.next ≤ s'.nextId ∧
      Numbered r.first r.next (Stmt.referencesAll r.tree) := by
  -- what one more call appends to the log
  have hcall : ∀ {log : List Reading} {s' : Session} {source : String}, s.Serves log s' →
      (∀ r ∈ log, s.nextId ≤ r.first ∧ r.next ≤ s'.nextId ∧
        Numbered r.first r.next (Stmt.referencesAll r.tree)) →
      ∀ r ∈ log ++ s'.reading source, s.nextId ≤ r.first ∧ r.next ≤ (s'.parse source).2.nextId ∧
        Numbered r.first r.next (Stmt.referencesAll r.tree) := by
    intro log s' source hserves ih r hr
    have hnumbered := s'.reading_numbered source
    rcases List.mem_append.mp hr with hr | hr
    · obtain ⟨hfirst, hnext, hr⟩ := ih r hr
      exact ⟨hfirst, Nat.le_trans hnext hnumbered.le, hr⟩
    · obtain ⟨hfirst, hnext, hreading⟩ := mem_reading hr
      rw [hreading, uses, List.flatMap_singleton, ← hfirst, ← hnext] at hnumbered
      exact ⟨hfirst ▸ hserves.numbered.le, Nat.le_of_eq hnext, hnumbered⟩
  induction h with
  | start => exact fun r hr => nomatch hr
  | parse source hserves ih => exact hcall hserves ih
  | run hserves hrun ih =>
      rw [(run_table hrun).1]
      exact hcall hserves ih
  | resetErrors _ ih => exact ih
  | host output clock _ ih => exact ih

/-- **The number of a reference stands for it as long as the session lives.** All references of all
trees that a session has read have different numbers, each from those that were given out while its
own tree was read. Only numbers that were given out have addresses. Whatever the session is asked
to do from then on, and at every step of a program that runs, no number is given out again, and
every number that was given out has the address that it had, or none if it had none. -/
theorem references_identify {output : Sink} {clock : Clock} {log : List Reading} {s : Session}
    (h : (fresh output clock).Serves log s) :
    ((uses log).map Reference.id).Nodup ∧
    (∀ r ∈ log, r.next ≤ s.nextId ∧
      ∀ use ∈ Stmt.referencesAll r.tree, r.first ≤ use.id ∧ use.id < r.next) ∧
    (∀ i d, s.state.addresses[i]? = some d → i < s.nextId) ∧
    (∀ {log' : List Reading} {s' : Session}, s.Serves log' s' → s.nextId ≤ s'.nextId ∧
      ∀ i, i < s.nextId → s'.state.addresses[i]? = s.state.addresses[i]?) ∧
    ∀ {source : String} {s₁ : Session} {m : Machine}, s.load source = (s₁, .ok m) → ∀ n i,
      i < s.nextId → (m.run n).state.addresses[i]? = s.state.addresses[i]? := by
  refine ⟨h.numbered.nodup, fun r hr => ?_, fun i d hi => ?_, fun h' => ?_,
    @fun source s₁ m hload n i hi => ?_⟩
  · obtain ⟨-, hnext, hnumbered⟩ := h.reading_bounds r hr
    exact ⟨hnext, hnumbered.bounded⟩
  · obtain ⟨M, hsettled⟩ := h.reached.settled
    by_cases hlt : i < s.nextId
    · exact hlt
    · rw [hsettled.addresses i (by omega)] at hi
      exact nomatch hi
  · exact ⟨h'.numbered.le, fun i hi => h'.addresses hi⟩
  · rw [loaded_addresses hload n]
    have haddresses := s.load_addresses source hi
    rwa [hload] at haddresses

/-- A closure of a program that failed, a source that cannot be read, and a program that is at fault
after its reference has got an address. -/
theorem references_identify_rejected :
    ∃ (log : List Reading) (s : Session),
      (fresh .unlimited ⟨0⟩).Serves log s ∧
      (uses log).map (fun use => (use.id, use.name.lexeme))
        = [(0, "a"), (2, "b"), (3, "a"), (5, "d")] ∧
      ∀ {log' : List Reading} {s' : Session}, s.Serves log' s' → 6 ≤ s'.nextId ∧
        s'.state.addresses[0]? = some 1 ∧ s'.state.addresses[2]? = none ∧
        s'.state.addresses[3]? = some 0 ∧ s'.state.addresses[5]? = some 0 := by
  let first := "\x7b var a; fun f() \x7b a; \x7d a = b; \x7d"
  let last := "\x7b var d = d; \x7d"
  have hall : ((fresh .unlimited ⟨0⟩).run 14 first).bind (fun p =>
      ((p.1.parse "(c").2.run 0 last).map fun q =>
        ((uses ((fresh .unlimited ⟨0⟩).reading first ++ p.1.reading "(c"
            ++ (p.1.parse "(c").2.reading last)).map (fun use => (use.id, use.name.lexeme)),
          q.1.nextId, q.1.state.addresses[0]?, q.1.state.addresses[2]?, q.1.state.addresses[3]?,
          q.1.state.addresses[5]?))
      = some ([(0, "a"), (2, "b"), (3, "a"), (5, "d")], 6, some 1, none, some 0, some 0) := by
    cbv
  obtain ⟨⟨s₁, r₁⟩, hfirst, hrest⟩ := Option.bind_eq_some_iff.mp hall
  obtain ⟨⟨s, r⟩, hlast, hall⟩ := Option.map_eq_some_iff.mp hrest
  simp only [Prod.mk.injEq] at hall
  obtain ⟨huses, hnext, h0, h2, h3, h5⟩ := hall
  have hserves := ((Serves.start.run hfirst).parse "(c").run hlast
  refine ⟨_, s, hserves, huses, fun h' => ?_⟩
  obtain ⟨hle, hsame⟩ := (references_identify hserves).2.2.2.1 h'
  rw [hnext] at hle hsame
  rw [hsame 0 (by omega), hsame 2 (by omega), hsame 3 (by omega), hsame 5 (by omega)]
  exact ⟨hle, h0, h2, h3, h5⟩

end Session

end Lox
