import Lox.Session
import Lox.Proofs.Reading
import Lox.Proofs.Renaming.Machine

/-!
# What sessions can come to, and what shows of them

A session comes about by running programs one after the other. What shows of it, apart from the
remembered errors, are the answers to the programs that it is still to run.
-/

namespace Lox

/-- What shows of a state: all but the numbers of references, and so their addresses. -/
def State.view (st : State) : State := st.renamed .erasing ∅

namespace Session

/-- The sessions that come about. Between two programs the host may read single programs, forget
errors, take output out and set the clock, whatever it is going to show. -/
inductive Reached : Session → Prop where
  | fresh (output : Sink) (clock : Clock) : Reached (fresh output clock)
  | run {s s' : Session} {limit : Nat} {source : String} {result : Except RunError Unit} :
      Reached s → s.run limit source = some (s', result) → Reached s'
  | parse {s : Session} {source : String} : Reached s → Reached (s.parse source).2
  | resetErrors {s : Session} : Reached s → Reached s.resetErrors
  | host {s : Session} (output : Sink) (clock : Clock) :
      Reached s → Reached { s with state := { s.state with output, clock } }

theorem Reached.timed {s : Session} (h : s.Reached) (clock : Clock) : (s.timed clock).Reached :=
  h.host s.state.output clock

/-- What a session answers to one program: how the program ended, if it did, and what then shows of
the state, or else of the state after as many steps as were allowed. -/
structure Answer where
  result : Option (Except RunError Unit)
  shown : State

/-- The state that a program has come to after at most `limit` steps. -/
def progress (s : Session) (limit : Nat) (source : String) : State :=
  match (s.load source).2 with
  | .error _ => s.state
  | .ok m => (m.run limit).state

/-- The answers to programs that are run one after the other, up to the first that does not end
within its limit. -/
def answers (s : Session) : List (Nat × String) → List Answer
  | [] => []
  | (limit, source) :: rest =>
    match s.run limit source with
    | some (s', result) => ⟨some result, s'.state.view⟩ :: s'.answers rest
    | none => [⟨none, (s.progress limit source).view⟩]

end Session

/-! ## Tables of addresses -/

namespace State

variable {st : State}

theorem noteAddresses_cons (entry : Nat × Nat) (found : List (Nat × Nat)) :
    st.noteAddresses (entry :: found)
      = ({ st with addresses := st.addresses.insert entry.1 entry.2 } : State).noteAddresses found :=
  rfl

theorem noteAddresses_append (found found' : List (Nat × Nat)) :
    st.noteAddresses (found ++ found') = (st.noteAddresses found).noteAddresses found' := by
  simp only [noteAddresses, List.foldl_append]

theorem getElem?_insert_address (A : Addresses) (i j d : Nat) :
    (A.insert i d)[j]? = if i = j then some d else A[j]? := by
  rw [Std.TreeMap.getElem?_insert]
  simp only [Nat.compare_eq_eq]

theorem noteAddresses_other : ∀ {found : List (Nat × Nat)} {st : State} {i : Nat},
    (∀ entry ∈ found, entry.1 ≠ i) → (st.noteAddresses found).addresses[i]? = st.addresses[i]?
  | [], _, _, _ => rfl
  | entry :: found, st, i, h => by
      rw [noteAddresses_cons, noteAddresses_other fun e he => h e (List.mem_cons_of_mem _ he),
        getElem?_insert_address, if_neg (h entry (List.mem_cons_self ..))]

/-- With no number twice, exactly what is noted is there. -/
theorem noteAddresses_iff : ∀ {found : List (Nat × Nat)} {st : State} {i : Nat},
    (found.map Prod.fst).Nodup → st.addresses[i]? = none → ∀ distance,
      (st.noteAddresses found).addresses[i]? = some distance ↔ (i, distance) ∈ found
  | [], st, i, _, hnone, distance => by
      rw [show st.noteAddresses [] = st from rfl, hnone]
      simp
  | (j, first) :: found, st, i, hnodup, hnone, distance => by
      obtain ⟨hfresh, hnodup'⟩ := List.nodup_cons.mp hnodup
      have hother : ∀ entry ∈ found, entry.1 ≠ j :=
        fun entry hentry heq => hfresh (List.mem_map.mpr ⟨entry, hentry, heq⟩)
      rw [noteAddresses_cons, List.mem_cons, Prod.mk.injEq]
      by_cases hi : i = j
      · subst hi
        rw [noteAddresses_other hother, getElem?_insert_address, if_pos rfl, Option.some.injEq]
        exact ⟨fun h => .inl ⟨rfl, h.symm⟩, fun h => h.elim (fun h => h.2.symm)
          fun hmem => absurd rfl (hother _ hmem)⟩
      · have hnone' : (st.addresses.insert j first)[i]? = none := by
          rw [getElem?_insert_address, if_neg (Ne.symm hi), hnone]
        rw [noteAddresses_iff hnodup' hnone' distance]
        exact ⟨.inr, fun h => h.resolve_left fun heq => hi heq.1⟩

/-- Noting the addresses of renamed references readdresses what has been noted. -/
theorem noteAddresses_renamed {r : Renaming} (hr : ∀ i j, r.ids i = r.ids j → i = j) :
    ∀ {found : List (Nat × Nat)} {st st' : State}, Readdressed r st'.addresses st.addresses →
      Readdressed r
        (st'.noteAddresses (found.map fun entry => (r.ids entry.1, entry.2))).addresses
        (st.noteAddresses found).addresses
  | [], _, _, h => h
  | (j, d) :: found, st, st', h => by
      rw [List.map_cons, noteAddresses_cons, noteAddresses_cons]
      refine noteAddresses_renamed hr fun i => ?_
      rw [getElem?_insert_address, getElem?_insert_address, h i]
      by_cases hij : j = i
      · rw [if_pos hij, if_pos (congrArg r.ids hij)]
      · rw [if_neg hij, if_neg fun hids => hij (hr j i hids)]

end State

/-! ### Entries for what has a number -/

section

variable {α : Type} {number? : α → Option Nat} {noted? : α → Option (Nat × Nat)} {as : List α}
  {a b : α} {i : Nat}

theorem eq_of_number (hnodup : (as.filterMap number?).Nodup) (ha : a ∈ as) (hb : b ∈ as)
    (hi : number? a = some i) (hi' : number? b = some i) : a = b := by
  induction as with
  | nil => cases ha
  | cons c as ih =>
      have hapart : ∀ d ∈ as, number? c = some i → number? d ≠ some i := by
        intro d hd hc hd'
        rw [List.filterMap_cons_some hc] at hnodup
        exact (List.nodup_cons.mp hnodup).1 (List.mem_filterMap.mpr ⟨d, hd, hd'⟩)
      have htail := hnodup.sublist ((List.sublist_cons_self c as).filterMap number?)
      rcases List.mem_cons.mp ha with rfl | ha' <;> rcases List.mem_cons.mp hb with rfl | hb'
      · rfl
      · exact absurd hi' (hapart b hb' hi)
      · exact absurd hi (hapart a ha' hi')
      · exact ih htail ha' hb'

theorem entries_sublist (hentry : ∀ a entry, noted? a = some entry → number? a = some entry.1) :
    ∀ as : List α, ((as.filterMap noted?).map Prod.fst).Sublist (as.filterMap number?) := by
  intro as
  induction as with
  | nil => exact .slnil
  | cons a as ih =>
      cases hfound : noted? a with
      | none =>
          rw [List.filterMap_cons_none hfound]
          exact ih.trans ((List.sublist_cons_self a as).filterMap number?)
      | some entry =>
          rw [List.filterMap_cons_some hfound, List.filterMap_cons_some (hentry a entry hfound)]
          exact ih.cons_cons _

/-- If no number is used twice, what is found under a number is found for what has it. -/
theorem mem_entries (hentry : ∀ a entry, noted? a = some entry → number? a = some entry.1)
    (hnodup : (as.filterMap number?).Nodup) (ha : a ∈ as) (hi : number? a = some i) (distance : Nat) :
    (i, distance) ∈ as.filterMap noted? ↔ noted? a = some (i, distance) := by
  refine ⟨fun h => ?_, fun h => List.mem_filterMap.mpr ⟨a, ha, h⟩⟩
  obtain ⟨b, hb, hfound⟩ := List.mem_filterMap.mp h
  obtain rfl := eq_of_number hnodup ha hb hi (hentry b _ hfound)
  exact hfound

/-- So this is also what is noted under the number. -/
theorem State.noteAddresses_entries
    (hentry : ∀ a entry, noted? a = some entry → number? a = some entry.1)
    (hnodup : (as.filterMap number?).Nodup) (ha : a ∈ as) (hi : number? a = some i) {st : State}
    (hnone : st.addresses[i]? = none) (distance : Nat) :
    (st.noteAddresses (as.filterMap noted?)).addresses[i]? = some distance
      ↔ noted? a = some (i, distance) :=
  (noteAddresses_iff (hnodup.sublist (entries_sublist hentry as)) hnone distance).trans
    (mem_entries hentry hnodup ha hi distance)

end

/-! ## Loading -/

namespace Session

variable {s : Session} {source : String}

theorem parse_eq (s : Session) (source : String) : s.parse source =
    ((Source.read source s.nextId).result,
      { s with nextId := (Source.read source s.nextId).nextId }) := rfl

/-- Checks the scopes of a program and notes the addresses that were found. -/
def examined (s : Session) (P : List Stmt) : Session × Except RunError Machine :=
  let found := Scoping.ofProgram P
  let s := { s with state := s.state.noteAddresses found.addresses }
  if found.faults.isEmpty then (s, .ok (Machine.ofProgram P s.state))
  else s.rejected found.faults

theorem load_of_error {ds : List Diagnostic} (h : (s.parse source).1 = .error ds) :
    s.load source = (s.parse source).2.rejected ds := by
  unfold load
  rw [show s.parse source = (.error ds, (s.parse source).2) from Prod.ext h rfl]

theorem load_of_ok {P : List Stmt} (h : (s.parse source).1 = .ok P) :
    s.load source = (s.parse source).2.examined P := by
  unfold load
  rw [show s.parse source = (.ok P, (s.parse source).2) from Prod.ext h rfl]
  rfl

/-- The session once a source has been read as `P` and the addresses in it have been noted. -/
def noted (s : Session) (source : String) (P : List Stmt) : Session :=
  { (s.parse source).2 with state := s.state.noteAddresses (Scoping.ofProgram P).addresses }

/-- How a source is loaded: it is rejected when it is read, or when its scopes are checked, or it
becomes a machine. -/
inductive Loads (s : Session) (source : String) : Session → Except RunError Machine → Prop where
  | unread {ds : List Diagnostic} :
      (Source.read source s.nextId).result = .error ds →
      Loads s source { (s.parse source).2 with hadStaticError := true } (.error (.static ds))
  | unscoped {P : List Stmt} :
      (Source.read source s.nextId).result = .ok P → (Scoping.ofProgram P).faults ≠ [] →
      Loads s source { s.noted source P with hadStaticError := true }
        (.error (.static (Scoping.ofProgram P).faults))
  | loaded {P : List Stmt} :
      (Source.read source s.nextId).result = .ok P → (Scoping.ofProgram P).faults = [] →
      Loads s source (s.noted source P) (.ok (Machine.ofProgram P (s.noted source P).state))

theorem loads (s : Session) (source : String) :
    Loads s source (s.load source).1 (s.load source).2 := by
  cases h : (s.parse source).1 with
  | error ds =>
      rw [load_of_error h]
      exact .unread h
  | ok P =>
      rw [load_of_ok h, examined]
      cases hfaults : (Scoping.ofProgram P).faults with
      | nil =>
          rw [List.isEmpty_nil, if_pos rfl]
          exact .loaded h hfaults
      | cons d ds =>
          have hne : (Scoping.ofProgram P).faults ≠ [] := by simp [hfaults]
          rw [List.isEmpty_cons, if_neg Bool.false_ne_true, ← hfaults]
          exact .unscoped h hne

theorem Loads.load {s₁ : Session} {result : Except RunError Machine}
    (h : Loads s source s₁ result) : s.load source = (s₁, result) := by
  cases h with
  | unread h => exact load_of_error h
  | unscoped h hfaults =>
      rw [load_of_ok h, examined, if_neg (by simpa using hfaults)]
      rfl
  | loaded h hfaults =>
      rw [load_of_ok h, examined, if_pos (by simp [hfaults])]
      rfl

theorem Loads.of_load {s₁ : Session} {result : Except RunError Machine}
    (h : s.load source = (s₁, result)) : Loads s source s₁ result := by
  have hloads := s.loads source
  rwa [h] at hloads

/-- A program starts on the state of the session that has loaded it. -/
theorem loaded_state {s₁ : Session} {m : Machine} (h : s.load source = (s₁, .ok m)) :
    m.state = s₁.state := by
  cases Loads.of_load h with
  | loaded => rfl

/-- A program that runs uses the addresses that were noted when it was loaded. -/
theorem loaded_addresses {s₁ : Session} {m : Machine} (h : s.load source = (s₁, .ok m)) (n : Nat) :
    (m.run n).state.addresses = s₁.state.addresses := by
  rw [(Machine.run_setting n m).addresses, loaded_state h]

/-- A program of which something is seen has been loaded. -/
theorem exists_loaded {α : Type} {see : Machine → α} {seen : α}
    (h : (s.load source).2.toOption.map see = some seen) :
    ∃ loaded m, s.load source = (loaded, .ok m) ∧ see m = seen := by
  rcases hload : s.load source with ⟨loaded, e | m⟩
  · rw [hload] at h
    cases h
  · rw [hload] at h
    exact ⟨loaded, m, rfl, Option.some.inj h⟩

/-! ## Running -/

theorem run_of_error {limit : Nat} {s₁ : Session} {e : RunError}
    (h : s.load source = (s₁, .error e)) : s.run limit source = some (s₁, .error e) := by
  rw [run, h]

theorem run_of_ok {limit : Nat} {s₁ : Session} {m : Machine} (h : s.load source = (s₁, .ok m)) :
    s.run limit source
      = (m.run limit).result?.map fun c => s₁.conclude c (m.run limit).state := by
  rw [run, h]

/-- A run ends when its source is rejected, or when the program that it was loaded as has halted. -/
theorem run_eq_some_iff {limit : Nat} {s' : Session} {result : Except RunError Unit} :
    s.run limit source = some (s', result) ↔
      (∃ e, s.load source = (s', .error e) ∧ result = .error e) ∨
      ∃ s₁ m c, s.load source = (s₁, .ok m) ∧ (m.run limit).result? = some c ∧
        s' = (s₁.conclude c (m.run limit).state).1 ∧
        result = (s₁.conclude c (m.run limit).state).2 := by
  constructor
  · intro h
    rcases hload : s.load source with ⟨s₁, e | m⟩
    · rw [run_of_error hload] at h
      cases h
      exact .inl ⟨e, rfl, rfl⟩
    · rw [run_of_ok hload, Option.map_eq_some_iff] at h
      obtain ⟨c, hc, hconclude⟩ := h
      exact .inr ⟨s₁, m, c, rfl, hc, (congrArg Prod.fst hconclude).symm,
        (congrArg Prod.snd hconclude).symm⟩
  · rintro (⟨e, hload, rfl⟩ | ⟨s₁, m, c, hload, hc, rfl, rfl⟩)
    · exact run_of_error hload
    · rw [run_of_ok hload, hc]
      rfl

theorem progress_of_ok {limit : Nat} {s₁ : Session} {m : Machine}
    (h : s.load source = (s₁, .ok m)) : s.progress limit source = (m.run limit).state := by
  rw [progress, h]

section

variable {limit : Nat} {rest : List (Nat × String)}

theorem answers_of_some {s' : Session} {result : Except RunError Unit}
    (h : s.run limit source = some (s', result)) :
    s.answers ((limit, source) :: rest) = ⟨some result, s'.state.view⟩ :: s'.answers rest := by
  rw [answers, h]

theorem answers_of_none (h : s.run limit source = none) :
    s.answers ((limit, source) :: rest) = [⟨none, (s.progress limit source).view⟩] := by
  rw [answers, h]

end

/-- What a program leaves behind is the state in which it has halted. -/
theorem conclude_state (s : Session) (c : Completion) (st : State) :
    (s.conclude c st).1.state = st := by
  cases c <;> rfl

/-- A run that was rejected never started. -/
theorem run_eq_static {limit : Nat} {s' : Session} {ds : List Diagnostic}
    (h : s.run limit source = some (s', .error (.static ds))) :
    s.load source = (s', .error (.static ds)) := by
  rcases run_eq_some_iff.mp h with ⟨e, hload, hresult⟩ | ⟨s₁, m, c, -, -, -, hresult⟩
  · cases hresult
    exact hload
  · cases c <;> exact nomatch hresult

end Session

end Lox
