import Lox.Proofs.Sequencing
import Lox.Proofs.Sessions.Mirrored
import Lox.Proofs.Sessions.Settled

/-!
# Programs cut into lines

A program that is cut in two and run piece by piece does what it does in one piece. The tokens of
the second piece then stand on other lines, and this is all that differs.
-/

namespace Lox

/-! ## Two sources as one -/

namespace Source

variable {a b source source' : String} {k : Nat}

/-- The source is read without faults, and there are none in its scopes. -/
def Passes (source : String) : Prop :=
  ∃ P, (read source 0).result = .ok P ∧ (Scoping.ofProgram P).faults = []

/-- Whether a source passes depends neither on numbers nor on lines. -/
theorem Passes.moved {lines : Nat → Nat} (h : Passes source) (hmoves : MovesTo lines source source')
    (k : Nat) : ∃ P, (read source' k).result = .ok P ∧ (Scoping.ofProgram P).faults = [] := by
  obtain ⟨P, hread, hfaults⟩ := h
  have hmoved := congrArg Parser.Outcome.result (read_moved (k := 0) hmoves k)
  rw [Nat.zero_add, Parser.Outcome.moved, hread] at hmoved
  refine ⟨_, hmoved, ?_⟩
  rw [Scoping.ofProgram_renamed, Scoping.Findings.renamed, hfaults, List.map_nil]

theorem faults_of_passes (h : Passes source) : faults source = [] := by
  obtain ⟨P, hread, -⟩ := h
  exact (read_eq_ok hread).1

/-- Two programs on different lines are read as one program. -/
theorem read_append {P Q : List Stmt} (ha : (read a k).result = .ok P)
    (hb : (read (blankLines (lineCount a) ++ b) (read a k).nextId).result = .ok Q) :
    read (a ++ "\n" ++ b) k
      = ⟨.ok (P ++ Q), (read (blankLines (lineCount a) ++ b) (read a k).nextId).nextId⟩ := by
  have hfaults := (read_eq_ok ha).1
  have hderived := (read_derives ha).append (read_derives hb)
  rw [← body_append hfaults] at hderived
  have hstop : (stop (a ++ "\n" ++ b)).kind = .eof := rfl
  have hprogram := parseProgram_of_program (body_kind _) hstop hderived
  unfold read at hprogram ⊢
  rw [faults_append hfaults, (read_eq_ok hb).1, tokens_eq, hprogram]
  rfl

/-- Puts the lines after line `N` after line `n` instead. -/
def placed (N n : Nat) (line : Nat) : Nat := if line ≤ N then line else line - N + n

/-- A source that starts after `N` blank lines starts after `n` blank lines instead. -/
theorem movesTo_placed (h : faults source = []) (N n : Nat) :
    MovesTo (placed N n) (blankLines N ++ source) (blankLines n ++ source) where
  tokens := by
    rw [tokens_blankLines, tokens_blankLines, List.map_map]
    refine List.map_congr_left fun t ht => ?_
    have hpos := line_pos source t ht
    have hline : placed N n (t.line + N) = t.line + n := by
      rw [placed, if_neg (by omega)]
      omega
    exact congrArg (Token.mk t.kind t.lexeme) hline.symm
  faults := by
    rw [faults_blankLines, faults_blankLines, h]
    rfl

theorem blankLines_zero_append : blankLines 0 ++ source = source := by
  rw [blankLines, List.replicate_zero]
  exact String.empty_append

end Source

theorem Scoping.Findings.append_assoc (a b c : Findings) : a ++ b ++ c = a ++ (b ++ c) := by
  show Findings.mk _ _ = Findings.mk _ _
  simp only [append_addresses, append_faults, List.append_assoc]

/-- The top level is no scope, so what comes before a statement does not matter there. -/
theorem Scoping.ofProgram_append (P Q : List Stmt) :
    ofProgram (P ++ Q) = ofProgram P ++ ofProgram Q := by
  have hafter (s : Stmt) : after [] s = [] := by
    unfold after
    split <;> rfl
  unfold ofProgram
  induction P with
  | nil => rfl
  | cons s P ih =>
      rw [List.cons_append, ofStmts, ofStmts, hafter, ih, Findings.append_assoc]

/-! ## Two runs as one -/

namespace Session

variable {s s₁ : Session} {a b : String}

theorem load_of_passes {P : List Stmt} {source : String}
    (hread : (Source.read source s.nextId).result = .ok P)
    (hfaults : (Scoping.ofProgram P).faults = []) :
    s.load source = (s.noted source P, .ok (Machine.ofProgram P (s.noted source P).state)) :=
  (Loads.loaded hread hfaults).load

/-- What is taken over from a machine replaces the state. -/
theorem conclude_congr {s s' : Session} (st : State)
    (h : { s with state := st } = { s' with state := st }) (c : Completion) :
    s.conclude c st = s'.conclude c st := by
  obtain ⟨st₁, next₁, static₁, runtime₁⟩ := s
  obtain ⟨st₂, next₂, static₂, runtime₂⟩ := s'
  cases h
  cases c <;> rfl

/-- The session once a source that was read as `P` has been run for at most `limit` steps. -/
def ran (s : Session) (source : String) (P : List Stmt) (limit : Nat) : Session :=
  { s.noted source P with
    state := ((Machine.ofProgram P (s.noted source P).state).run limit).state }

/-- A run that ends well has come to its end without a failure. -/
theorem run_eq_ok {limit : Nat} {source : String} (h : s.run limit source = some (s₁, .ok ())) :
    ∃ P c, (Source.read source s.nextId).result = .ok P ∧ (Scoping.ofProgram P).faults = [] ∧
      ((Machine.ofProgram P (s.noted source P).state).run limit).result? = some c ∧
      c.NotRaised ∧ s₁ = s.ran source P limit := by
  rcases run_eq_some_iff.mp h with ⟨e, -, hresult⟩ | ⟨s', m, c, hload, hc, rfl, hresult⟩
  · cases hresult
  · cases Loads.of_load hload with
    | @loaded P hread hfaults =>
        refine ⟨P, c, hread, hfaults, hc, ?_, ?_⟩
        · rintro f rfl
          cases hresult
        · cases c with
          | raised f => cases hresult
          | normal v => rfl
          | returned v => rfl

theorem noteAddresses_congr {st st' : State} (h : st.addresses = st'.addresses)
    (found : List (Nat × Nat)) :
    (st.noteAddresses found).addresses = (st'.noteAddresses found).addresses := by
  unfold State.noteAddresses
  rw [h]

section

variable {M limit : Nat} {whole : String} {P Q : List Stmt} {c : Completion}
  (hs : s.Settled M) (hlines : ∀ t ∈ Source.tokens a, t.line ≤ M)
  (ha : (Source.read a s.nextId).result = .ok P) (hfaults : (Scoping.ofProgram P).faults = [])
  (hb : (Source.read b (s.ran a P limit).nextId).result = .ok Q)

/-- With both pieces read as one, the same addresses are noted as with one after the other. -/
theorem noted_whole_addresses : (s.noted whole (P ++ Q)).state.addresses
    = ((s.ran a P limit).noted b Q).state.addresses := by
  have hrun := Machine.run_setting limit (Machine.ofProgram P (s.noted a P).state)
  show (s.state.noteAddresses _).addresses = ((s.ran a P limit).state.noteAddresses _).addresses
  rw [Scoping.ofProgram_append, Scoping.Findings.append_addresses, State.noteAddresses_append]
  exact noteAddresses_congr hrun.addresses.symm _

include hs hlines ha hfaults hb in
/-- The program that consists of both pieces comes to its second piece in the state that the first
one leaves behind. That the addresses of the second piece are there from the start makes no
difference to the first. -/
theorem reaches_second
    (hc : ((Machine.ofProgram P (s.noted a P).state).run limit).result? = some c)
    (hnotRaised : c.NotRaised) :
    ∃ steps c', c'.NotRaised ∧
      Machine.run steps (Machine.ofProgram (P ++ Q) (s.noted whole (P ++ Q)).state)
        = ⟨.complete c', [.program Q], ((s.ran a P limit).noted b Q).state⟩ := by
  have hload := load_of_passes ha hfaults
  have hran : (s.ran a P limit).Settled M := hs.ran hlines hload limit
  have hsetting := Machine.run_setting limit (Machine.ofProgram P (s.noted a P).state)
  have hkeeps := Renaming.shiftFrom_keeps (s.ran a P limit).nextId
    (((s.ran a P limit).noted b Q).nextId - (s.ran a P limit).nextId) M
  generalize hr : Renaming.shiftFrom _ _ = r at hkeeps
  -- the first piece, with all addresses from the start
  have hreaddressed : Readdressed r (s.noted whole (P ++ Q)).state.addresses
      (s.noted a P).state.addresses := by
    have h := hran.readdressed_shiftFrom (hran.note hb) Source.le_read_nextId (noted_addresses hb)
    rw [hr, ← noted_whole_addresses] at h
    rwa [show (s.ran a P limit).state.addresses = (s.noted a P).state.addresses from
      hsetting.addresses] at h
  have hrun := Machine.run_renamed (hkeeps.lines 0 (Nat.zero_le M)) limit (m :=
    Machine.ofProgram P (s.noted a P).state) hreaddressed
  rw [hs.machine hlines hload hkeeps] at hrun
  let start : Machine := ⟨.complete .done, [], (s.noted whole (P ++ Q)).state⟩
  have hstart : Machine.run limit (start.above [.program P])
      = ((Machine.ofProgram P (s.noted a P).state).run limit).renamed r
        (s.noted whole (P ++ Q)).state.addresses := hrun
  have hresult : (Machine.run limit (start.above [.program P])).result? = some (c.renamed r) := by
    rw [hstart, Machine.result?_renamed, hc]
    rfl
  have hnotRaised' : (c.renamed r).NotRaised := by
    cases c with
    | raised f => exact absurd rfl (hnotRaised f)
    | _ => exact fun f h => nomatch h
  obtain ⟨steps, c', hc', hsteps⟩ := Machine.run_program_append Q hresult hnotRaised'
  refine ⟨steps, c', hc', hsteps.trans ?_⟩
  -- nothing that was left behind has one of the numbers that were moved
  have hheap : (s.ran a P limit).state.heap.renamed r = (s.ran a P limit).state.heap :=
    hran.heap r hkeeps
  have hstate : ((s.ran a P limit).state.renamed r (s.noted whole (P ++ Q)).state.addresses)
      = ((s.ran a P limit).noted b Q).state := by
    rw [State.renamed, hheap, noted_whole_addresses (b := b)]
    rfl
  rw [hstart]
  exact congrArg (Machine.mk _ _) hstate

end

/-- Running both pieces as one is running the second piece, after as many blank lines, in the
session that the first one leaves behind. -/
theorem run_append (hs : s.Reached) {limit : Nat} (ha : s.run limit a = some (s₁, .ok ()))
    (hb : Source.Passes b) :
    ∃ steps, ∀ limit',
      s.run (steps + limit') (a ++ "\n" ++ b)
          = s₁.run limit' (Source.blankLines (Source.lineCount a) ++ b) ∧
        s.progress (steps + limit') (a ++ "\n" ++ b)
          = s₁.progress limit' (Source.blankLines (Source.lineCount a) ++ b) := by
  obtain ⟨M, hsettled⟩ := hs.settled
  obtain ⟨M', hlines⟩ := Source.exists_lineBound a
  have hsettled := hsettled.mono (Nat.le_add_right M M')
  have hlines (t) (ht : t ∈ Source.tokens a) : t.line ≤ M + M' :=
    Nat.le_trans (hlines t ht) (Nat.le_add_left M' M)
  obtain ⟨P, c, hread, hfaults, hc, hnotRaised, rfl⟩ := run_eq_ok ha
  have hmoves := Source.movesTo_placed (Source.faults_of_passes hb) 0 (Source.lineCount a)
  rw [Source.blankLines_zero_append] at hmoves
  obtain ⟨Q, hread', hfaults'⟩ := hb.moved hmoves (s.ran a P limit).nextId
  have hwhole := Source.read_append hread hread'
  obtain ⟨steps, c', hc', hsteps⟩ :=
    reaches_second hsettled hlines hread hfaults hread' hc hnotRaised
  have hload' := load_of_passes hread' hfaults'
  have hload := load_of_passes (congrArg Parser.Outcome.result hwhole) (by
    rw [Scoping.ofProgram_append, Scoping.Findings.append_faults, hfaults, hfaults']
    rfl)
  refine ⟨steps, fun limit' => ?_⟩
  rw [run_of_ok hload, run_of_ok hload', progress_of_ok hload, progress_of_ok hload',
    Machine.run_add, hsteps]
  obtain ⟨hresult, hstate⟩ :=
    Machine.run_program hc' Q ((s.ran a P limit).noted _ Q).state limit'
  rw [hresult, hstate]
  refine ⟨congrArg (Option.map · _) (funext fun c => conclude_congr _ ?_ c), rfl⟩
  simp only [noted, parse_eq, hwhole]
  rfl

theorem answers_append (hs : s.Reached) {limit : Nat} (ha : s.run limit a = some (s₁, .ok ()))
    (hb : Source.Passes b) : ∃ steps, ∀ limit' later,
      s.answers ((steps + limit', a ++ "\n" ++ b) :: later)
        = s₁.answers ((limit', Source.blankLines (Source.lineCount a) ++ b) :: later) := by
  obtain ⟨steps, h⟩ := run_append hs ha hb
  refine ⟨steps, fun limit' later => ?_⟩
  obtain ⟨hrun, hprogress⟩ := h limit'
  rw [answers, answers, hrun, hprogress]

/-- The lines of sources are bounded. -/
theorem exists_lineBound : ∀ inputs : List (Nat × String),
    ∃ M, ∀ input ∈ inputs, ∀ t ∈ Source.tokens input.2, t.line ≤ M
  | [] => ⟨0, fun _ h => nomatch h⟩
  | (_, source) :: inputs => by
      obtain ⟨M, hM⟩ := exists_lineBound inputs
      obtain ⟨M', hM'⟩ := Source.exists_lineBound source
      refine ⟨M + M', fun input hinput t ht => ?_⟩
      rcases List.mem_cons.mp hinput with rfl | hinput
      · exact Nat.le_trans (hM' t ht) (Nat.le_add_left M' M)
      · exact Nat.le_trans (hM input hinput t ht) (Nat.le_add_right M M')

/-- A session mirrors itself under moves of lines that it has not used yet. -/
theorem Settled.mirrors_placed {M N : Nat} (hs : s.Settled M) (hN : M ≤ N) (n : Nat) :
    s.Mirrors (.moving (Source.placed N n)) 0 s where
  state := by
    have hheap := hs.heap (.moving (Source.placed N n))
      ⟨fun _ _ => rfl, fun _ hi => hi, fun l hl => if_pos (Nat.le_trans hl hN)⟩
    simp only [State.renamed, hheap]
  addresses _ := rfl
  nextId := rfl
  ids _ _ := rfl
  injective _ _ h := h
  zero := by
    show (if 0 ≤ N then 0 else 0 - N + n) = 0
    rw [if_pos (Nat.zero_le N)]

/-- Where a program starts shows only in the lines of its own tokens. -/
theorem answers_placed {M N : Nat} (hs : s.Settled M) (hN : M ≤ N) (hb : Source.Passes b)
    {later : List (Nat × String)}
    (hlater : ∀ input ∈ later, ∀ t ∈ Source.tokens input.2, t.line ≤ N) (limit n : Nat) :
    s.answers ((limit, Source.blankLines n ++ b) :: later)
      = (s.answers ((limit, Source.blankLines N ++ b) :: later)).map
          (Answer.moved (Source.placed N n)) := by
  have hmirrors := hs.mirrors_placed hN n
  have hmoves := Source.movesTo_placed (Source.faults_of_passes hb) N n
  refine hmirrors.answers_cons hmoves (fun _ _ => rfl) (fun ds s₁ hload => ?_) fun h₁ =>
    h₁.answers fun input hinput t ht => if_pos (hlater input hinput t ht)
  -- the program passes wherever it starts
  have hmoves' := Source.movesTo_placed (Source.faults_of_passes hb) 0 N
  rw [Source.blankLines_zero_append] at hmoves'
  obtain ⟨P, hread, hfaults⟩ := hb.moved hmoves' s.nextId
  rw [load_of_passes hread hfaults] at hload
  exact nomatch congrArg Prod.snd hload

/-- **Cutting a program in two does not change it.** If the first piece ends well and the second one
passes, then both pieces in one program get the same answers as one after the other, and so do all
programs that are run from then on. To tell the lines of the second piece from all others, let it
start after so many blank lines that no other token stands as far down: from the answers to this,
line by line, come the answers for the second piece alone, whose lines count from 1, and the answers
for both pieces in one, where they count from the end of the first. The two runs are shown the same
times, whichever these are. -/
theorem answers_split (hs : s.Reached) (clock : Clock) {limit : Nat}
    (ha : (s.timed clock).run limit a = some (s₁, .ok ())) (hb : Source.Passes b) :
    ∃ steps, ∀ later, ∃ M, ∀ N, M ≤ N → ∀ limit',
      let answered := s₁.answers ((limit', Source.blankLines N ++ b) :: later)
      s₁.answers ((limit', b) :: later) = answered.map (Answer.moved (Source.placed N 0)) ∧
      (s.timed clock).answers ((steps + limit', a ++ "\n" ++ b) :: later)
        = answered.map (Answer.moved (Source.placed N (Source.lineCount a))) := by
  obtain ⟨steps, hsplit⟩ := answers_append (hs.timed clock) ha hb
  obtain ⟨M, hsettled⟩ := ((hs.timed clock).run ha).settled
  refine ⟨steps, fun later => ?_⟩
  obtain ⟨M', hlater⟩ := exists_lineBound later
  refine ⟨M + M', fun N hN limit' => ?_⟩
  have hlater' : ∀ input ∈ later, ∀ t ∈ Source.tokens input.2, t.line ≤ N :=
    fun input hinput t ht => Nat.le_trans (hlater input hinput t ht) (by omega)
  have hplaced := answers_placed hsettled (show M ≤ N by omega) hb hlater' limit'
  refine ⟨?_, (hsplit limit' later).trans (hplaced (Source.lineCount a))⟩
  have halone := hplaced 0
  rwa [Source.blankLines_zero_append] at halone

/-- The second piece fails in a function of the first one. -/
theorem answers_split_failing :
    let s := fresh .unlimited ⟨0⟩
    ∃ s₁ steps M, s.run 4 "fun f() \x7b missing; \x7d" = some (s₁, .ok ()) ∧ ∀ N, M ≤ N →
      ∀ limit',
        let answered := s₁.answers [(limit', Source.blankLines N ++ "f();")]
        s₁.answers [(limit', "f();")] = answered.map (Answer.moved (Source.placed N 0)) ∧
        s.answers [(steps + limit', "fun f() \x7b missing; \x7d" ++ "\n" ++ "f();")]
          = answered.map (Answer.moved (Source.placed N 1)) := by
  intro s
  have hresult : ((fresh .unlimited ⟨0⟩).run 4 "fun f() \x7b missing; \x7d").map Prod.snd
      = some (.ok ()) := by
    cbv
  have hpasses : Source.Passes "f();" := by
    refine ⟨[.expression (.call (.ident ⟨0, ⟨.identifier, "f", 1⟩⟩)
      ⟨.symbol .rightParen, ")", 1⟩ [])], ?_, ?_⟩ <;> cbv
  obtain ⟨⟨s₁, result⟩, hrun, rfl⟩ := Option.map_eq_some_iff.mp hresult
  obtain ⟨steps, hsplit⟩ := answers_split (.fresh .unlimited ⟨0⟩) ⟨0⟩ hrun hpasses
  obtain ⟨M, hM⟩ := hsplit []
  exact ⟨s₁, steps, M, hrun, hM⟩

end Session

end Lox
