import Lox.Proofs.Sessions

/-!
# Numbers and lines that a session has used

The functions on the heap of a session come from programs that it has read, so their references have
numbers that were given out and their tokens stand on lines that were read. Instead of following
them through every step of every program, this is said by renamings: one that keeps what has been
used changes nothing on the heap. It is kept up because runs commute with renamings.
-/

namespace Lox

/-- Keeps the numbers below `n`, mixes no others with them, and keeps the lines up to `M`. -/
structure Renaming.Keeps (n M : Nat) (r : Renaming) : Prop where
  below : ∀ i, i < n → r.ids i = i
  above : ∀ i, n ≤ i → n ≤ r.ids i
  lines : ∀ l, l ≤ M → r.lines l = l

theorem Renaming.Keeps.mono {n n' M M' : Nat} {r : Renaming} (h : r.Keeps n' M') (hn : n ≤ n')
    (hM : M ≤ M') : r.Keeps n M where
  below i hi := h.below i (by omega)
  above i hi := by
    by_cases hi' : i < n'
    · rw [h.below i hi']
      exact hi
    · exact Nat.le_trans hn (h.above i (by omega))
  lines l hl := h.lines l (by omega)

theorem Renaming.shiftFrom_injective (start offset : Nat) :
    ∀ i j, (Renaming.shiftFrom start offset).ids i = (Renaming.shiftFrom start offset).ids j →
      i = j := by
  intro i j h
  simp only [Renaming.shiftFrom] at h
  split at h <;> split at h <;> omega

theorem Renaming.shiftFrom_keeps (start offset M : Nat) :
    (Renaming.shiftFrom start offset).Keeps start M where
  below i hi := if_pos hi
  above i hi := by
    simp only [Renaming.shiftFrom]
    split <;> omega
  lines _ _ := rfl

/-- The lines of a source are bounded. -/
theorem Source.exists_lineBound (source : String) : ∃ M, ∀ t ∈ Source.tokens source, t.line ≤ M := by
  induction Source.tokens source with
  | nil => exact ⟨0, fun t ht => nomatch ht⟩
  | cons t ts ih =>
      obtain ⟨M, hM⟩ := ih
      refine ⟨M + t.line, fun t' ht' => ?_⟩
      rcases List.mem_cons.mp ht' with rfl | ht'
      · omega
      · have := hM t' ht'
        omega

namespace Session

/-- Nothing on the heap has a number that was not given out or stands beyond line `M`, and only
numbers that were given out have addresses. -/
structure Settled (M : Nat) (s : Session) : Prop where
  heap : ∀ r : Renaming, r.Keeps s.nextId M → s.state.heap.renamed r = s.state.heap
  addresses : ∀ i, s.nextId ≤ i → s.state.addresses[i]? = none

namespace Settled

variable {M : Nat} {s s₁ : Session} {source : String}

theorem mono {M' : Nat} (h : s.Settled M) (hM : M ≤ M') : s.Settled M' where
  heap r hr := h.heap r (hr.mono (Nat.le_refl _) hM)
  addresses := h.addresses

theorem fresh (output : Sink) (clock : Clock) : (fresh output clock).Settled 0 where
  heap r _ := by
    -- natives are no functions of a program
    have hfunctions : (State.initial output clock).heap.functions = #[] := rfl
    show Heap.mk _ (_ : Array Closure) _ _ = _
    rw [show (Session.fresh output clock).state.heap.functions = #[] from hfunctions,
      Array.map_empty, ← hfunctions]
    rfl
  addresses i _ := by
    show (∅ : Addresses)[i]? = none
    simp

theorem timed (h : s.Settled M) (clock : Clock) : (s.timed clock).Settled M where
  heap := h.heap
  addresses := h.addresses

theorem parse (h : s.Settled M) (source : String) : (s.parse source).2.Settled M where
  heap r hr := h.heap r (hr.mono Source.le_read_nextId (Nat.le_refl M))
  addresses i hi := h.addresses i (Nat.le_trans Source.le_read_nextId hi)

theorem note (h : s.Settled M) {P : List Stmt}
    (hread : (Source.read source s.nextId).result = .ok P) :
    (s.noted source P).Settled M where
  heap := (h.parse source).heap
  addresses i hi := by
    show (s.state.noteAddresses _).addresses[i]? = none
    rw [State.noteAddresses_other, h.addresses i (Nat.le_trans Source.le_read_nextId hi)]
    intro entry hentry hid
    have hlt := (Source.found_numbered hread entry hentry).2
    have hle : (Source.read source s.nextId).nextId ≤ i := hi
    omega

theorem load (h : s.Settled M) (source : String) : (s.load source).1.Settled M := by
  have hloads := s.loads source
  generalize (s.load source).1 = s₁, (s.load source).2 = result at hloads
  cases hloads with
  | unread => exact ⟨(h.parse source).heap, (h.parse source).addresses⟩
  | unscoped hread => exact ⟨(h.note hread).heap, (h.note hread).addresses⟩
  | loaded hread => exact h.note hread

/-- The references of a loaded program have numbers that were given out before. -/
theorem readdressed (h : s.Settled M) {r : Renaming} (hr : r.Keeps s.nextId M) :
    Readdressed r s.state.addresses s.state.addresses := by
  intro i
  by_cases hi : i < s.nextId
  · rw [hr.below i hi]
  · have hle : s.nextId ≤ i := by omega
    rw [h.addresses i hle, h.addresses _ (hr.above i hle)]

/-- A renaming that keeps what has been used keeps a machine that was just loaded, but for its table
of addresses. -/
theorem machine (h : s.Settled M) (hlines : ∀ t ∈ Source.tokens source, t.line ≤ M) {m : Machine}
    (hload : s.load source = (s₁, .ok m)) {r : Renaming} (hr : r.Keeps s₁.nextId M)
    (A : Addresses) : m.renamed r A = { m with state := { m.state with addresses := A } } := by
  have hs₁ := h.load source
  rw [hload] at hs₁
  cases Loads.of_load hload with
  | @loaded P hread hfaults =>
      have hP : P.map (Stmt.renamed r) = P :=
        Source.read_keeps hread (fun t ht => hr.lines _ (hlines t ht)) fun i _ hi => hr.below i hi
      have hheap : (s.noted source P).state.heap.renamed r = (s.noted source P).state.heap :=
        hs₁.heap r hr
      simp only [Machine.ofProgram, Machine.renamed, List.map_cons, List.map_nil, Frame.renamed,
        hP, State.renamed, hheap]
      rfl

/-- A loaded program uses no numbers while it runs but its own. -/
theorem ran (h : s.Settled M) (hlines : ∀ t ∈ Source.tokens source, t.line ≤ M) {m : Machine}
    (hload : s.load source = (s₁, .ok m)) (limit : Nat) :
    { s₁ with state := (m.run limit).state }.Settled M := by
  have hs₁ := h.load source
  rw [hload] at hs₁
  constructor
  · -- a renaming that keeps the machine at the start keeps what it has come to
    intro r hr
    have hreaddressed : Readdressed r m.state.addresses m.state.addresses := by
      rw [loaded_state hload]
      exact hs₁.readdressed hr
    have hrenamed := Machine.run_renamed (hr.lines 0 (Nat.zero_le M)) limit hreaddressed
    rw [h.machine hlines hload hr] at hrenamed
    exact (congrArg (fun m : Machine => m.state.heap) hrenamed).symm
  · intro i hi
    show (m.run limit).state.addresses[i]? = none
    rw [loaded_addresses hload]
    exact hs₁.addresses i hi

theorem run (h : s.Settled M) (hlines : ∀ t ∈ Source.tokens source, t.line ≤ M) {limit : Nat}
    {s' : Session} {result : Except RunError Unit}
    (hrun : s.run limit source = some (s', result)) : s'.Settled M := by
  rcases run_eq_some_iff.mp hrun with ⟨e, hload, -⟩ | ⟨s₁, m, c, hload, -, rfl, -⟩
  · have hs₁ := h.load source
    rw [hload] at hs₁
    exact hs₁
  · have hran := h.ran hlines hload limit
    cases c <;> exact ⟨hran.heap, hran.addresses⟩

/-- With numbers moved away to make room for those that were given out since, references have the
addresses that they had. -/
theorem readdressed_shiftFrom {M' : Nat} {s' : Session} (h : s.Settled M) (h' : s'.Settled M')
    (hle : s.nextId ≤ s'.nextId)
    (hsame : ∀ i, i < s.nextId → s'.state.addresses[i]? = s.state.addresses[i]?) :
    Readdressed (.shiftFrom s.nextId (s'.nextId - s.nextId)) s'.state.addresses
      s.state.addresses := by
  intro i
  by_cases hi : i < s.nextId
  · simp only [Renaming.shiftFrom, if_pos hi, hsame i hi]
  · have hold : s.state.addresses[i]? = none := h.addresses i (by omega)
    have hnew : s'.state.addresses[i + (s'.nextId - s.nextId)]? = none :=
      h'.addresses _ (by omega)
    simp only [Renaming.shiftFrom, if_neg hi, hold, hnew]

end Settled

/-- The addresses that are noted for a program are all new. -/
theorem noted_addresses {s : Session} {source : String} {P : List Stmt} (hread : (Source.read source s.nextId).result = .ok P)
    (i : Nat) (hi : i < s.nextId) :
    (s.noted source P).state.addresses[i]? = s.state.addresses[i]? := by
  refine State.noteAddresses_other fun entry hentry hid => ?_
  have hge := (Source.found_numbered hread entry hentry).1
  omega

/-- What a session that comes about has used is bounded. -/
theorem Reached.settled {s : Session} (h : s.Reached) : ∃ M, s.Settled M := by
  induction h with
  | fresh output clock => exact ⟨0, .fresh output clock⟩
  | @run s s' limit source result _ hrun ih =>
      obtain ⟨M, hs⟩ := ih
      obtain ⟨M', hlines⟩ := Source.exists_lineBound source
      refine ⟨M + M', (hs.mono (Nat.le_add_right M M')).run (fun t ht => ?_) hrun⟩
      exact Nat.le_trans (hlines t ht) (Nat.le_add_left M' M)
  | parse _ ih =>
      obtain ⟨M, hs⟩ := ih
      exact ⟨M, hs.parse _⟩
  | resetErrors _ ih =>
      obtain ⟨M, hs⟩ := ih
      exact ⟨M, hs.heap, hs.addresses⟩
  | host output clock _ ih =>
      obtain ⟨M, hs⟩ := ih
      exact ⟨M, hs.heap, hs.addresses⟩

end Session

end Lox
