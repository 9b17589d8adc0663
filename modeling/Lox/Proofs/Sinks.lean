import Lox.CommandLine
import Lox.Proofs.Bookkeeping
import Lox.Proofs.Returns

/-!
# Sinks that fill up

A sink may refuse what a program prints once it has taken some number of line ends. Nothing in a
program can ask how full the sink is, so until something is refused the program runs as it would with
a sink that takes everything. From then on only the failure is on its way: each step takes off one of
the frames that wait, and none of them goes on with what it was waiting for.
-/

namespace Lox

open CommandLine (lines)

theorem CommandLine.lines_append (texts texts' : List String) :
    lines (texts ++ texts') = lines texts ++ lines texts' := by
  unfold lines
  rw [List.map_append, String.join_append]

theorem CommandLine.lines_singleton (text : String) : lines [text] = text ++ "\n" := by
  unfold lines
  rw [List.map_singleton, String.join_cons, String.join_nil, String.append_empty]

/-! ## Sinks with and without a limit -/

namespace Sink

variable {s : Sink} {n : Nat} {line : String}

/-- The sink, which refuses everything once it has taken `n` line ends. -/
def limited (s : Sink) (n : Nat) : Sink := { s with limit := some n }

/-- An empty sink that takes `n` line ends. -/
def upTo (n : Nat) : Sink := unlimited.limited n

/-- The line is still being written when the sink has taken `n` line ends: the line end is missing,
and maybe the line itself. -/
def Overruns (s : Sink) (n : Nat) (line : String) : Prop :=
  n ≤ s.lines + line.toList.count '\n'

instance : Decidable (s.Overruns n line) := inferInstanceAs (Decidable (_ ≤ _))

/-- What the sink has taken when it refuses the line or its line end. -/
def cutOff (s : Sink) (n : Nat) (line : String) : Sink :=
  (if n ≤ s.lines then s else s.add line).limited n

theorem isFull_limited : (s.limited n).isFull = decide (n ≤ s.lines) := rfl

/-- What is cut off is a beginning of what is taken without a limit. -/
theorem exists_cutOff_text (s : Sink) (n : Nat) (line : String) :
    ∃ rest, ((s.add line).add "\n").text = (s.cutOff n line).text ++ rest := by
  by_cases hfull : n ≤ s.lines
  · refine ⟨line ++ "\n", ?_⟩
    rw [cutOff, if_pos hfull]
    exact String.append_assoc
  · refine ⟨"\n", ?_⟩
    rw [cutOff, if_neg hfull]
    rfl

theorem writeLine_of_none (h : s.limit = none) :
    s.writeLine line = ((s.add line).add "\n", none) := by
  have hopen : s.isFull = false := by rw [isFull, h]; rfl
  have hopen' : (s.add line).isFull = false := by rw [isFull, add, h]; rfl
  simp only [writeLine, hopen, hopen', Bool.false_eq_true, if_false]

theorem writeLine_limited (h : ¬ s.Overruns n line) :
    (s.limited n).writeLine line = (((s.add line).add "\n").limited n, none) := by
  have hline : ¬ n ≤ s.lines + line.toList.count '\n' := h
  have hopen : (s.limited n).isFull = false := by
    rw [isFull_limited, decide_eq_false_iff_not]
    omega
  have hopen' : ((s.limited n).add line).isFull = false := decide_eq_false hline
  simp only [writeLine, hopen, hopen', Bool.false_eq_true, if_false]
  rfl

theorem writeLine_cutOff (h : s.Overruns n line) :
    (s.limited n).writeLine line = (s.cutOff n line, some .full) := by
  unfold writeLine cutOff
  rw [isFull_limited]
  by_cases hfull : n ≤ s.lines
  · simp only [decide_eq_true hfull, if_true, if_pos hfull]
  · have hfull' : ((s.limited n).add line).isFull = true := decide_eq_true h
    simp only [decide_eq_false hfull, Bool.false_eq_true, if_false, if_neg hfull, hfull', if_true]
    rfl

end Sink

namespace Machine

variable {m : Machine} {n : Nat}

/-- The machine with another sink. -/
def writing (m : Machine) (output : Sink) : Machine :=
  { m with state := { m.state with output } }

/-- The machine with a sink that takes `n` line ends. -/
def limited (m : Machine) (n : Nat) : Machine := m.writing (m.state.output.limited n)

/-- The line that the next step prints. -/
def printing? (m : Machine) : Option String :=
  match m.control, m.frames with
  | .complete (.normal v), .print :: _ => some (v.text m.state.heap)
  | _, _ => none

/-- The next step tries to write something after the sink has taken `n` line ends. -/
def Overruns (m : Machine) (n : Nat) : Prop :=
  ∃ line, m.printing? = some line ∧ m.state.output.Overruns n line

instance : Decidable (m.Overruns n) :=
  decidable_of_iff (m.printing?.any fun line => m.state.output.Overruns n line) <| by
    simp [Overruns, Option.any_eq_true]

/-! ## Steps that do not print -/

section

variable (output : Sink) (frames : List Frame) (st : State)

theorem superMethod_writing (use : Reference) (method : Token) :
    superMethod { st with output } use method
      = ((superMethod st use method).1, { (superMethod st use method).2 with output }) := by
  unfold superMethod
  dsimp only
  repeat' split
  all_goals rfl

theorem property_writing (o : ObjectId) (name : Token) :
    property { st with output } o name
      = ((property st o name).1, { (property st o name).2 with output }) := by
  unfold property
  dsimp only
  repeat' split
  all_goals rfl

theorem assign_writing (use : Reference) (v : Value) :
    ({ st with output } : State).assign use v
      = ((st.assign use v).1, { (st.assign use v).2 with output }) := by
  unfold State.assign
  dsimp only
  repeat' split
  all_goals rfl

theorem construct_writing (c : ClassId) (args : List Value) :
    construct c args frames { st with output } = (construct c args frames st).writing output := by
  unfold construct
  dsimp only
  split <;> rfl

theorem call_writing (callee : Value) (paren : Token) (args : List Value) :
    call callee paren args frames { st with output }
      = (call callee paren args frames st).writing output := by
  unfold call
  dsimp only
  split
  · rfl
  · split
    · rfl
    · split
      · rfl
      · cases callee with
        | native f =>
            dsimp only [invoke]
            generalize f.call args st.clock = result
            rcases result with ⟨v | cause, clock⟩ <;> rfl
        | classObject c => exact construct_writing output frames st c args
        | _ => rfl

theorem nextArgument_writing (callee : Value) (paren : Token) (evaluated : List Value)
    (rest : List Expr) : nextArgument callee paren evaluated rest frames { st with output }
      = (nextArgument callee paren evaluated rest frames st).writing output := by
  cases rest with
  | nil => exact call_writing output frames st callee paren evaluated.reverse
  | cons e es => rfl

theorem evaluate_writing (e : Expr) :
    evaluate e frames { st with output } = (evaluate e frames st).writing output := by
  have hlookup (use : Reference) : ({ st with output } : State).lookup? use = st.lookup? use := rfl
  cases e with
  | literal value => cases value <;> rfl
  | ident use => simp only [evaluate, hlookup]; split <;> rfl
  | this use => simp only [evaluate, hlookup]; split <;> rfl
  | super use method => simp only [evaluate, superMethod_writing]; rfl
  | _ => rfl

theorem execute_writing (s : Stmt) :
    execute s frames { st with output } = (execute s frames st).writing output := by
  cases s with
  | variableDecl name value => cases value <;> rfl
  | giveBack keyword value => cases value <;> rfl
  | classDecl name superclass methods =>
      cases superclass with
      | none => simp only [execute, declareClass]; rfl
      | some use => rfl
  | _ => rfl

variable (hflush : output.flush = st.output.flush)

include hflush

theorem program_writing (rest : List Stmt) (v : Value) :
    continueWith (.program rest) v frames { st with output }
      = (continueWith (.program rest) v frames st).writing output := by
  cases rest with
  | nil => simp only [continueWith, hflush]; split <;> rfl
  | cons s rest => rfl

theorem continueWith_writing {frame : Frame} (hprint : frame ≠ .print) (v : Value) :
    continueWith frame v frames { st with output }
      = (continueWith frame v frames st).writing output := by
  cases frame with
  | print => exact absurd rfl hprint
  | logical operator right => simp only [continueWith]; split <;> rfl
  | assign use => simp only [continueWith, assign_writing]; rfl
  | callee paren arguments => exact nextArgument_writing output frames st v paren [] arguments
  | argument callee paren evaluated rest =>
      exact nextArgument_writing output frames st callee paren (v :: evaluated) rest
  | get name =>
      cases v with
      | object o => simp only [continueWith, property_writing]; rfl
      | _ => rfl
  | setObject name value => cases v <;> rfl
  | branch yes no =>
      simp only [continueWith]
      split
      · rfl
      · cases no <;> rfl
  | loopTest condition body => simp only [continueWith]; split <;> rfl
  | superclass name use methods =>
      cases v with
      | classObject parent => simp only [continueWith, declareClass]; rfl
      | _ => rfl
  | sequence rest => cases rest <;> rfl
  | program rest => exact program_writing output frames st hflush rest v
  | _ => rfl

end

/-- **A step that does not print is the same whatever the sink has taken.** -/
theorem step_writing {output : Sink} (hprint : m.printing? = none)
    (hflush : output.flush = m.state.output.flush) :
    (m.writing output).step = m.step.writing output := by
  obtain ⟨control, frames, st⟩ := m
  cases control with
  | eval e => exact evaluate_writing output frames st e
  | exec s => exact execute_writing output frames st s
  | complete c =>
      cases frames with
      | nil => rfl
      | cons frame frames =>
          cases c with
          | normal v =>
              refine continueWith_writing output frames st hflush ?_ v
              rintro rfl
              exact nomatch hprint
          | returned v =>
              cases frame with
              | program rest => exact program_writing output frames st hflush rest v
              | _ => rfl
          | raised f => cases frame <;> rfl

/-- So it leaves the sink alone. -/
theorem step_output (hprint : m.printing? = none) : m.step.state.output = m.state.output :=
  have hsame : (m.writing m.state.output).step = m.step.writing m.state.output :=
    step_writing hprint rfl
  congrArg (·.state.output) hsame

/-- A step that prints writes the line, and goes on or fails. -/
theorem step_print {line : String} (h : m.printing? = some line) :
    m.step = match m.state.output.writeLine line with
      | (output, none) => ⟨.complete .done, m.frames.tail, { m.state with output }⟩
      | (output, some fault) =>
        ⟨.complete (.raised (.sink fault)), m.frames.tail, { m.state with output }⟩ := by
  obtain ⟨control, frames, st⟩ := m
  unfold printing? at h
  dsimp only at h
  split at h
  · cases h
    rfl
  · exact nomatch h

/-! ## Sinks that take everything -/

/-- The lines that the first `k` steps print, in order. -/
def printedIn (m : Machine) (k : Nat) : List String :=
  (List.range k).filterMap fun j => (m.run j).printing?

theorem printedIn_succ (m : Machine) (k : Nat) :
    m.printedIn (k + 1) = m.printedIn k ++ (m.run k).printing?.toList := by
  unfold printedIn
  rw [List.range_succ, List.filterMap_append]
  cases h : (m.run k).printing? <;> simp [h]

/-- A sink without a limit stays one, and what a step prints is written to it. -/
theorem step_extends (hlimit : m.state.output.limit = none) :
    m.step.state.output.limit = none ∧ m.step.state.output.flush = m.state.output.flush ∧
      m.step.state.output.text = m.state.output.text ++ lines m.printing?.toList := by
  cases hprint : m.printing? with
  | none =>
      rw [step_output hprint]
      exact ⟨hlimit, rfl, String.append_empty.symm⟩
  | some line =>
      rw [step_print hprint, Sink.writeLine_of_none hlimit, Option.toList_some,
        CommandLine.lines_singleton]
      exact ⟨hlimit, rfl, String.append_assoc⟩

/-- **What a run prints is in the sink**, after what was there before. -/
theorem run_extends (hlimit : m.state.output.limit = none) (k : Nat) :
    (m.run k).state.output.limit = none ∧ (m.run k).state.output.flush = m.state.output.flush ∧
      (m.run k).state.output.text = m.state.output.text ++ lines (m.printedIn k) := by
  induction k with
  | zero => exact ⟨hlimit, rfl, String.append_empty.symm⟩
  | succ k ih =>
      obtain ⟨hlimit', hflush, htext⟩ := ih
      obtain ⟨hlast, hflush', hmore⟩ := step_extends hlimit'
      rw [run_succ_last]
      refine ⟨hlast, hflush'.trans hflush, ?_⟩
      rw [hmore, htext, printedIn_succ, CommandLine.lines_append, String.append_assoc]

/-! ## The same steps up to a refusal -/

/-- Until something is refused, a limit makes no difference. -/
theorem step_limited (hlimit : m.state.output.limit = none) (h : ¬ m.Overruns n) :
    (m.limited n).step = m.step.limited n := by
  cases hprint : m.printing? with
  | none =>
      unfold limited
      rw [step_output hprint]
      exact step_writing hprint rfl
  | some line =>
      have hfits : ¬ m.state.output.Overruns n line := fun hover => h ⟨line, hprint, hover⟩
      have hstep : (m.limited n).step = _ := step_print (m := m.limited n) hprint
      rw [show (m.limited n).state.output = m.state.output.limited n from rfl,
        Sink.writeLine_limited hfits] at hstep
      rw [hstep, step_print hprint, Sink.writeLine_of_none hlimit]
      rfl

theorem run_limited (hlimit : m.state.output.limit = none) : ∀ k,
    (∀ j, j < k → ¬ (m.run j).Overruns n) → (m.limited n).run k = (m.run k).limited n := by
  intro k
  induction k with
  | zero => exact fun _ => rfl
  | succ k ih =>
      intro h
      rw [run_succ_last, run_succ_last, ih fun j hj => h j (Nat.lt_succ_of_lt hj)]
      exact step_limited (run_extends hlimit k).1 (h k (Nat.lt_succ_self k))

/-- The first print that is not taken in full fails. -/
theorem step_refused {line : String} (hprint : m.printing? = some line)
    (h : m.state.output.Overruns n line) :
    (m.limited n).step = ⟨.complete (.raised (.sink .full)), m.frames.tail,
      { m.state with output := m.state.output.cutOff n line }⟩ := by
  have hstep : (m.limited n).step = _ := step_print (m := m.limited n) hprint
  rw [show (m.limited n).state.output = m.state.output.limited n from rfl,
    Sink.writeLine_cutOff h] at hstep
  exact hstep

/-! ## The failure on its way -/

/-- A failure takes off one frame with each step, and leaves the state as it is but for the place. -/
theorem run_raised_eq {f : Failure} (h : m.control = .complete (.raised f)) (k : Nat) :
    (m.run k).frames = m.frames.drop k ∧
      ∃ scope depth, (m.run k).state = { m.state with scope, depth } := by
  induction k with
  | zero => exact ⟨rfl, m.state.scope, m.state.depth, rfl⟩
  | succ k ih =>
      obtain ⟨hframes, scope, depth, hstate⟩ := ih
      have hcontrol := run_raised h k
      rw [run_succ_last, ← List.tail_drop, ← hframes]
      generalize m.run k = last at hcontrol hstate
      obtain ⟨control, frames, st⟩ := last
      dsimp only at hcontrol hstate
      subst hcontrol hstate
      cases frames with
      | nil => exact ⟨rfl, scope, depth, rfl⟩
      | cons frame frames => cases frame <;> exact ⟨rfl, _, _, rfl⟩

/-- No step takes off more than one frame. -/
theorem step_frames_length (m : Machine) : m.frames.length ≤ m.step.frames.length + 1 := by
  have hbelow : ∀ {below : List Frame}, m.Below below → m.frames.length ≤ below.length + 1 := by
    intro below h
    cases h with
    | starts _ => exact Nat.le_succ _
    | value _ hframes _ => rw [hframes]; exact Nat.le_refl _
  suffices ∀ m', m.Moves m' → m.frames.length ≤ m'.frames.length + 1 from this _ m.step_moves
  intro m' h
  cases h with
  | rests _ _ _ hm _ => exact hbelow hm
  | waits hm _ _ => exact Nat.le_succ_of_le (hbelow hm)
  | awaits _ => exact Nat.le_add_right _ 2
  | leaves _ => exact Nat.le_succ _
  | opens _ => exact Nat.le_add_right _ 3
  | enters args henters _ =>
      have hm := hbelow henters.below
      rw [enter_eq]
      simp only [List.length_cons]
      omega
  | overflows hcall _ _ => exact hbelow (below_of_calling hcall)
  | next _ hframes => rw [hframes]; exact Nat.le_succ _
  | halted _ => exact Nat.le_succ _
  | givesBack _ hframes => rw [hframes]; exact Nat.le_refl _
  | passes _ hframes _ => rw [hframes]; exact Nat.le_refl _
  | closes _ hframes _ => rw [hframes]; exact Nat.le_refl _
  | returns _ hframes _ => rw [hframes]; exact Nat.le_refl _
  | ends _ hframes _ => rw [hframes]; exact Nat.le_refl _
  | aborts _ hframes => rw [hframes]; exact Nat.le_refl _

theorem run_frames_length (m : Machine) (k : Nat) :
    m.frames.length ≤ (m.run k).frames.length + k := by
  induction k with
  | zero => exact Nat.le_refl _
  | succ k ih =>
      have hlast := (m.run k).step_frames_length
      rw [run_succ_last]
      omega

/-- A machine that has halted prints nothing. -/
theorem printing?_of_result? {c : Completion} (h : m.result? = some c) : m.printing? = none := by
  obtain ⟨hcontrol, hframes⟩ := result?_eq_some_iff.mp h
  unfold printing?
  rw [hcontrol, hframes]
  split
  · next heq => exact nomatch heq
  · rfl

/-- **After the first refusal nothing is done any more.** If the machine halts with a sink that takes
everything, it halts within as many steps with the failure of the sink, in the state in which the sink
has refused something. -/
theorem run_refused (hlimit : m.state.output.limit = none) {limit j : Nat} {c : Completion}
    (hc : (m.run limit).result? = some c) (hbefore : ∀ i, i < j → ¬ (m.run i).Overruns n)
    {line : String} (hprint : (m.run j).printing? = some line)
    (hover : (m.run j).state.output.Overruns n line) :
    j < limit ∧
      (∀ i, j < i → ((m.limited n).run i).control = .complete (.raised (.sink .full))) ∧
      ((m.limited n).run limit).result? = some (.raised (.sink .full)) ∧
      ∃ scope depth, ((m.limited n).run limit).state =
        { (m.run j).state with
          scope
          depth
          output := (m.run j).state.output.cutOff n line } := by
  have hj : j < limit := by
    refine Nat.lt_of_not_le fun hle => ?_
    rw [run_of_halted hc hle, printing?_of_result? hc] at hprint
    exact nomatch hprint
  -- the step that fails, and the steps after it
  have hrefused : (m.limited n).run (j + 1) = ⟨.complete (.raised (.sink .full)),
      (m.run j).frames.tail,
      { (m.run j).state with output := (m.run j).state.output.cutOff n line }⟩ := by
    rw [run_succ_last, run_limited hlimit j hbefore]
    exact step_refused hprint hover
  have hafter : ∀ i, j < i → (m.limited n).run i = ((m.limited n).run (j + 1)).run (i - (j + 1)) := by
    intro i hi
    rw [← run_add, Nat.add_sub_cancel' hi]
  have hraised : ((m.limited n).run (j + 1)).control = .complete (.raised (.sink .full)) :=
    congrArg control hrefused
  have hcontrol : ∀ i, j < i →
      ((m.limited n).run i).control = .complete (.raised (.sink .full)) := by
    intro i hi
    rw [hafter i hi]
    exact run_raised hraised _
  obtain ⟨hframes, scope, depth, hstate⟩ := run_raised_eq hraised (limit - (j + 1))
  rw [← hafter limit hj, hrefused] at hframes hstate
  refine ⟨hj, hcontrol, result?_eq_some_iff.mpr ⟨hcontrol limit hj, ?_⟩, scope, depth, hstate⟩
  -- there were no more frames than the machine has taken off without a limit
  have hlength := (m.run j).run_frames_length (limit - j)
  rw [← run_add, Nat.add_sub_cancel' (Nat.le_of_lt hj), (result?_eq_some_iff.mp hc).2] at hlength
  rw [hframes, List.drop_eq_nil_iff, List.length_tail]
  simp only [List.length_nil] at hlength
  omega

end Machine

/-! ## Sessions -/

namespace Session

variable {s : Session} {source : String}

/-- The session with another sink. -/
def writing (s : Session) (output : Sink) : Session :=
  { s with state := { s.state with output } }

theorem Reached.writing (h : s.Reached) (output : Sink) : (s.writing output).Reached :=
  h.host output s.state.clock

section

variable {loaded : Session} {m : Machine}

/-- Whether a program is rejected does not depend on the sink. -/
theorem load_writing_error {e : RunError} (h : s.load source = (loaded, .error e)) (output : Sink) :
    (s.writing output).load source = (loaded.writing output, .error e) := by
  cases Loads.of_load h with
  | unread hread => exact (Loads.unread (s := s.writing output) hread).load
  | unscoped hread hfaults => exact (Loads.unscoped (s := s.writing output) hread hfaults).load

theorem load_writing_ok (h : s.load source = (loaded, .ok m)) (output : Sink) :
    (s.writing output).load source = (loaded.writing output, .ok (m.writing output)) := by
  cases Loads.of_load h with
  | loaded hread hfaults => exact (Loads.loaded (s := s.writing output) hread hfaults).load

/-- A program that runs with one sink is loaded with every other one. -/
theorem load_of_writing {output : Sink} (h : (s.writing output).load source = (loaded, .ok m)) :
    (∀ output', (s.writing output').load source = (loaded.writing output', .ok (m.writing output'))) ∧
      m.state.output = output := by
  rcases hs : s.load source with ⟨loaded₀, e | m₀⟩
  · rw [load_writing_error hs] at h
    cases h
  · have hloaded := load_writing_ok hs output
    rw [h] at hloaded
    cases hloaded
    exact ⟨fun output' => load_writing_ok hs output', rfl⟩

end

/-- A program of which nothing is refused runs as it does with a sink that takes everything. -/
theorem run_limited {output : Sink} (hlimit : output.limit = none) {limit n : Nat} {s₁ : Session}
    {result : Except RunError Unit} (hrun : (s.writing output).run limit source = some (s₁, result))
    (hfits : ∀ loaded m, (s.writing output).load source = (loaded, .ok m) →
      ∀ j, ¬ (m.run j).Overruns n) :
    (s.writing (output.limited n)).run limit source
      = some (s₁.writing (s₁.state.output.limited n), result) := by
  rcases hs : s.load source with ⟨loaded, e | m⟩
  · rw [run_of_error (load_writing_error hs output)] at hrun
    rw [run_of_error (load_writing_error hs (output.limited n))]
    cases hrun
    rfl
  · have hload := load_writing_ok hs output
    rw [run_of_ok hload] at hrun
    obtain ⟨c, hc, hconclude⟩ := Option.map_eq_some_iff.mp hrun
    have hsame : (m.writing (output.limited n)).run limit = _ :=
      (m.writing output).run_limited (n := n) hlimit limit fun j _ => hfits _ _ hload j
    have hresult : (((m.writing output).run limit).limited n).result? = some c := hc
    rw [run_of_ok (load_writing_ok hs (output.limited n)), hsame, hresult]
    cases c <;> (cases hconclude; rfl)

/-- A program of which something is refused fails for it, and leaves behind what was there then. -/
theorem run_refused {output : Sink} (hlimit : output.limit = none) {limit n : Nat}
    {s₁ loaded : Session} {result : Except RunError Unit} {m : Machine}
    (hrun : (s.writing output).run limit source = some (s₁, result))
    (hload : (s.writing output).load source = (loaded, .ok m)) {j : Nat} {line : String}
    (hprint : (m.run j).printing? = some line) (hover : (m.run j).state.output.Overruns n line)
    (hbefore : ∀ i, i < j → ¬ (m.run i).Overruns n) :
    ∃ s₂, (s.writing (output.limited n)).run limit source
        = some (s₂, .error (.runtime (.sink .full))) ∧
      s₂.hadRuntimeError = true ∧
      (∃ rest, s₁.state.output.text = s₂.state.output.text ++ rest) ∧
      ∃ scope depth, s₂.state = { (m.run j).state with
        scope
        depth
        output := (m.run j).state.output.cutOff n line } := by
  obtain ⟨hloads, houtput⟩ := load_of_writing hload
  have hopen : m.state.output.limit = none := houtput ▸ hlimit
  rw [run_of_ok hload] at hrun
  obtain ⟨c, hc, hconclude⟩ := Option.map_eq_some_iff.mp hrun
  obtain ⟨hj, -, hresult, scope, depth, hstate⟩ := Machine.run_refused hopen hc hbefore hprint hover
  have hlimited : m.writing (output.limited n) = m.limited n := by
    rw [Machine.limited, houtput]
  refine ⟨((loaded.writing (output.limited n)).conclude (.raised (.sink .full))
    ((m.limited n).run limit).state).1, ?_, rfl, ?_, scope, depth, hstate⟩
  · rw [run_of_ok (hloads _), hlimited, hresult]
    rfl
  · -- the line is printed without a limit, and maybe more after it
    have hs₁ : s₁.state = (m.run limit).state := by
      rw [← conclude_state loaded c (m.run limit).state, hconclude]
    obtain ⟨hopen', -⟩ := Machine.run_extends hopen j
    obtain ⟨-, -, hmore⟩ := Machine.run_extends (Machine.run_extends hopen (j + 1)).1 (limit - (j + 1))
    generalize lines ((m.run (j + 1)).printedIn (limit - (j + 1))) = more at hmore
    obtain ⟨rest, hrest⟩ := (m.run j).state.output.exists_cutOff_text n line
    rw [← Machine.run_add, Nat.add_sub_cancel' hj, Machine.run_succ_last, Machine.step_print hprint,
      Sink.writeLine_of_none hopen'] at hmore
    refine ⟨rest ++ more, ?_⟩
    rw [hs₁, conclude_state, hstate, hmore]
    show ((m.run j).state.output.add line |>.add "\n").text ++ more = _
    rw [hrest, String.append_assoc]

/-- **A sink that fills up only cuts a program off.** A program that ends with a sink that takes
everything also ends, within as many steps, with a sink that takes `n` line ends; what it has printed
then is where the full text begins, and the top level is innermost again. If it never writes after the
`n`th line end, the result and the state are the same. Otherwise the first print that meets the refusal
fails with the error of the sink: up to there the machine is in the same states, from there on only the
failure is on its way, and all that is left behind is what was there at the refusal. The clock may
show any times, as long as it shows the same to both. -/
theorem full_sink_truncates {s s₁ : Session} (h : s.Reached) (clock : Clock) {limit n : Nat}
    {source : String} {result : Except RunError Unit}
    (hrun : ((s.timed clock).writing .unlimited).run limit source = some (s₁, result)) :
    ∃ s₂ result₂, ((s.timed clock).writing (.upTo n)).run limit source = some (s₂, result₂) ∧
      (∃ rest, s₁.state.output.text = s₂.state.output.text ++ rest) ∧
      (s₂.Reached ∧ s₂.state.scope = s₂.state.globals ∧ s₂.state.depth = 0) ∧
      ((∀ loaded m, ((s.timed clock).writing .unlimited).load source = (loaded, .ok m) →
          ∀ j, ¬ (m.run j).Overruns n) →
        result₂ = result ∧ s₂ = s₁.writing (s₁.state.output.limited n)) ∧
      ∀ loaded m, ((s.timed clock).writing .unlimited).load source = (loaded, .ok m) →
        ∀ j line, (m.run j).printing? = some line → (m.run j).state.output.Overruns n line →
          (∀ i, i < j → ¬ (m.run i).Overruns n) →
        result₂ = .error (.runtime (.sink .full)) ∧
        RunError.exitCode (.runtime (.sink .full)) = 70 ∧ s₂.hadRuntimeError = true ∧
        ((s.timed clock).writing (.upTo n)).load source
          = (loaded.writing (.upTo n), .ok (m.limited n)) ∧
        (∀ i, i ≤ j → (m.limited n).run i = (m.run i).limited n) ∧
        (∀ i, j < i → ((m.limited n).run i).control = .complete (.raised (.sink .full))) ∧
        s₂.state = { (m.run j).state with
          scope := (m.run j).state.globals
          depth := 0
          output := (m.run j).state.output.cutOff n line } := by
  replace h := h.timed clock
  generalize s.timed clock = s at h hrun ⊢
  have hlimited : ∀ {loaded m}, (s.writing .unlimited).load source = (loaded, .ok m) →
      (s.writing (.upTo n)).load source = (loaded.writing (.upTo n), .ok (m.limited n)) := by
    intro loaded m hload
    obtain ⟨hloads, houtput⟩ := load_of_writing hload
    rw [hloads (.upTo n), Machine.limited, houtput]
    rfl
  by_cases hfits : ∀ loaded m, (s.writing .unlimited).load source = (loaded, .ok m) →
      ∀ j, ¬ (m.run j).Overruns n
  · -- nothing is refused
    have hrun₂ := run_limited rfl hrun hfits
    have hreached := (h.writing (.upTo n)).run hrun₂
    refine ⟨_, result, hrun₂, ⟨"", String.append_empty.symm⟩, ⟨hreached, hreached.atTop⟩,
      fun _ => ⟨rfl, rfl⟩, ?_⟩
    exact fun loaded m hload j line hprint hover _ =>
      absurd ⟨line, hprint, hover⟩ (hfits loaded m hload j)
  · -- there is a first print that is refused
    have hrefused : ∃ loaded m, (s.writing .unlimited).load source = (loaded, .ok m) ∧
        ∃ j, (m.run j).Overruns n := by
      by_contra hnone
      exact hfits fun loaded m hload j hover => hnone ⟨loaded, m, hload, j, hover⟩
    obtain ⟨loaded, m, hload, hexists⟩ := hrefused
    obtain ⟨line, hprint, hover⟩ := Nat.find_spec hexists
    obtain ⟨s₂, hrun₂, hflag, htext, -⟩ := run_refused rfl hrun hload hprint hover
      fun i hi => Nat.find_min hexists hi
    have hreached := (h.writing (.upTo n)).run hrun₂
    refine ⟨s₂, _, hrun₂, htext, ⟨hreached, hreached.atTop⟩, fun hall => absurd hall hfits, ?_⟩
    intro loaded' m' hload' j line' hprint' hover' hbefore
    obtain ⟨s₂', hrun₂', -, -, scope, depth, hstate⟩ :=
      run_refused rfl hrun hload' hprint' hover' hbefore
    obtain rfl : s₂ = s₂' := by
      cases hrun₂.symm.trans hrun₂'
      rfl
    obtain ⟨hscope, hdepth⟩ := hreached.atTop
    rw [hstate] at hscope hdepth
    dsimp only at hscope hdepth
    subst hscope hdepth
    obtain ⟨hloads, houtput⟩ := load_of_writing hload'
    have hopen : m'.state.output.limit = none := houtput ▸ rfl
    obtain ⟨c, hc, -⟩ := Option.map_eq_some_iff.mp ((run_of_ok hload').symm.trans hrun)
    obtain ⟨-, hcontrol, -⟩ := Machine.run_refused hopen hc hbefore hprint' hover'
    exact ⟨rfl, rfl, hflag, hlimited hload',
      fun i hi => Machine.run_limited hopen i fun k hk => hbefore k (Nat.lt_of_lt_of_le hk hi),
      hcontrol, hstate⟩

/-- An initializer that prints in a loop, cut off at its second line. -/
theorem full_sink_truncates_initializer :
    ∃ (s₁ s₂ : Session) (m : Machine),
      ((fresh .unlimited ⟨0⟩).writing .unlimited).run 32
        "class A \x7b init() \x7b while (true) \x7b print true; print nil; return; \x7d \x7d \x7d A(); print false;"
        = some (s₁, .ok ()) ∧ s₁.state.output.text = "true\nnil\nfalse\n" ∧
      ((fresh .unlimited ⟨0⟩).writing (.upTo 1)).run 32
        "class A \x7b init() \x7b while (true) \x7b print true; print nil; return; \x7d \x7d \x7d A(); print false;"
        = some (s₂, .error (.runtime (.sink .full))) ∧
      (m.run 19).printing? = some "nil" ∧ s₂.state.output = (m.run 19).state.output.cutOff 1 "nil" ∧
      ∀ i, 19 < i → ((m.limited 1).run i).control = .complete (.raised (.sink .full)) := by
  have hall : (((fresh .unlimited ⟨0⟩).writing .unlimited).load
        "class A \x7b init() \x7b while (true) \x7b print true; print nil; return; \x7d \x7d \x7d A(); print false;").2.toOption.map
      (fun m => ((List.range 19).all fun i => !decide ((m.run i).Overruns 1), (m.run 19).printing?,
        decide ((m.run 19).state.output.Overruns 1 "nil"), (m.run 32).result?,
        (m.run 32).state.output.text))
      = some (true, some "nil", true, some .done, "true\nnil\nfalse\n") := by
    cbv
  obtain ⟨loaded, m, hload, hseen⟩ := exists_loaded hall
  simp only [Prod.mk.injEq, decide_eq_true_eq, List.all_eq_true, List.mem_range,
    Bool.not_eq_true', decide_eq_false_iff_not] at hseen
  obtain ⟨hbefore, hprint, hover, hresult, htext⟩ := hseen
  have hrun := @run_of_ok _ _ 32 _ _ hload
  rw [hresult] at hrun
  obtain ⟨s₂, result₂, hrun₂, -, -, -, hrefused⟩ :=
    full_sink_truncates (n := 1) (.fresh .unlimited ⟨0⟩) ⟨0⟩ hrun
  obtain ⟨rfl, -, -, -, -, hcontrol, hstate⟩ :=
    hrefused loaded m hload 19 "nil" hprint hover hbefore
  exact ⟨_, s₂, m, hrun, htext, hrun₂, hprint, congrArg State.output hstate, hcontrol⟩

end Session

end Lox
