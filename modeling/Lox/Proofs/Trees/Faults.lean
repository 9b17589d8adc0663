import Lox.Proofs.Control.Sessions
import Lox.Proofs.Parts
import Lox.Proofs.Scopes.Agreement
import Lox.Proofs.Trees.Running

/-!
# Faults that no program meets

Some faults are there only because a tree could be anything. An operator could be no operator, and `this` and
`super` could stand where nothing binds them. But trees that were read are well-formed, and the walk through
them has found where `this` and `super` are bound. So no program meets one of these faults, whichever
programs the session has run before.
-/

namespace Lox

/-! ## Messages -/

/-- What a program would be told whose tree could not have been read, or has not been walked through. -/
def invalidNodeMessages : List String :=
  ["Invalid unary operator.", "Invalid binary operator.", "Undefined variable 'super'.",
    "Undefined variable 'this'."]

/-- The fault is none of those that only trees could cause that are never read. -/
def RuntimeFault.Possible : RuntimeFault → Prop
  | .invalidUnaryOperator => False
  | .invalidBinaryOperator => False
  | .undefinedVariable name => name ≠ "super" ∧ name ≠ "this"
  | _ => True

namespace RuntimeFault

theorem name_of_message {name other : String}
    (h : (undefinedVariable name).message = (undefinedVariable other).message) : name = other := by
  have hlist := congrArg String.toList h
  unfold message at hlist
  rw [String.toList_append, String.toList_append, String.toList_append, String.toList_append]
    at hlist
  exact String.toList_inj.mp (List.append_cancel_left (List.append_cancel_right hlist))

/-- The four messages are those of the four faults alone. -/
theorem Possible.message {cause : RuntimeFault} (h : cause.Possible) :
    cause.message ∉ invalidNodeMessages := by
  -- the first letters tell most of the others from the four
  have hproperty : ∀ text ∈ invalidNodeMessages, text.toList.take 11 ≠ "Undefined p".toList := by
    decide
  have harity : ∀ text ∈ invalidNodeMessages, text.toList.head? ≠ some 'E' := by decide
  intro hmem
  cases cause with
  | invalidUnaryOperator => exact h
  | invalidBinaryOperator => exact h
  | undefinedVariable name =>
      have hvariable : ("Undefined variable '" ++ name ++ "'.").toList.head? = some 'U' := by simp
      replace hmem : "Undefined variable '" ++ name ++ "'." ∈ invalidNodeMessages := hmem
      simp only [invalidNodeMessages, List.mem_cons, List.not_mem_nil, or_false] at hmem
      rcases hmem with hunary | hbinary | hsuper | hthis
      · rw [hunary] at hvariable
        exact absurd hvariable (by decide)
      · rw [hbinary] at hvariable
        exact absurd hvariable (by decide)
      · exact h.1 (name_of_message (hsuper.trans rfl))
      · exact h.2 (name_of_message (hthis.trans rfl))
  | undefinedProperty name =>
      have hletters : ("Undefined property '" ++ name ++ "'.").toList.take 11
          = "Undefined p".toList := by simp
      exact hproperty _ hmem hletters
  | wrongArity expected given =>
      have hletter : ("Expected " ++ toString expected ++ " arguments but got " ++ toString given
          ++ ".").toList.head? = some 'E' := by simp
      exact harity _ hmem hletter
  | _ => exact absurd hmem (by decide)

end RuntimeFault

/-! ## Steps -/

/-- What has completed has not failed with one of the four faults. -/
def Completion.Possible (c : Completion) : Prop :=
  ∀ cause line, c = .raised (.fault cause line) → cause.Possible

namespace Completion

theorem possible_normal (v : Value) : Possible (.normal v) := nofun

theorem possible_returned (v : Value) : Possible (.returned v) := nofun

theorem possible_sink (cause : SinkFault) : Possible (.raised (.sink cause)) := nofun

theorem possible_faultAt (t : Token) {cause : RuntimeFault} (h : cause.Possible) :
    (Completion.faultAt t cause).Possible := by
  intro cause' line hfault
  cases hfault
  exact h

end Completion

namespace Operator

theorem unary_possible {operator : Token} (h : operator.kind ∈ unaryKinds) (v : Value) :
    (Completion.ofResult (unary operator v)).Possible := by
  have hkind : operator.kind = .symbol .bang ∨ operator.kind = .symbol .minus := by
    simpa [unaryKinds] using h
  unfold unary
  rcases hkind with hkind | hkind
  · rw [hkind]
    exact Completion.possible_normal _
  · rw [hkind]
    cases v with
    | number n => exact Completion.possible_normal _
    | _ => exact Completion.possible_faultAt operator trivial

theorem numeric_possible {operator : Token} (h : operator.kind ∈ binaryKinds)
    (hplus : operator.kind ≠ .symbol .plus) (hequal : operator.kind ≠ .symbol .equalEqual)
    (hdiffer : operator.kind ≠ .symbol .bangEqual) (a b : Float) :
    (Completion.ofResult (numeric operator a b)).Possible := by
  simp only [binaryKinds, List.mem_cons, List.not_mem_nil, or_false] at h
  unfold numeric
  rcases h with h | h | h | h | h | h | h | h | h | h
  · rw [h]; exact Completion.possible_normal _
  · exact absurd h hplus
  · rw [h]; exact Completion.possible_normal _
  · rw [h]; exact Completion.possible_normal _
  · rw [h]; exact Completion.possible_normal _
  · rw [h]; exact Completion.possible_normal _
  · rw [h]; exact Completion.possible_normal _
  · rw [h]; exact Completion.possible_normal _
  · exact absurd h hdiffer
  · exact absurd h hequal

theorem binary_possible (h : Heap) {operator : Token} (hkind : operator.kind ∈ binaryKinds)
    (left right : Value) : (Completion.ofResult (binary h operator left right)).Possible := by
  unfold binary
  split
  · exact Completion.possible_normal _
  · exact Completion.possible_normal _
  · unfold plus
    split
    · exact Completion.possible_normal _
    · exact Completion.possible_normal _
    · exact Completion.possible_normal _
    · exact Completion.possible_faultAt operator trivial
  · next hequal hdiffer hplus =>
    split
    · exact numeric_possible hkind hplus hequal hdiffer _ _
    · exact Completion.possible_faultAt operator trivial

end Operator

theorem Native.possible (f : Native) (args : List Value) (clock : Clock) {cause : RuntimeFault}
    {clock' : Clock} (h : f.call args clock = (.error cause, clock')) : cause.Possible := by
  have hnumber : ∀ {cause}, numberArgument args = .error cause → cause.Possible := by
    intro cause hcause
    unfold numberArgument at hcause
    split at hcause
    · cases hcause
    · cases hcause
      exact trivial
  cases hfirst : numberArgument args with
  | ok n => cases f <;> simp [Native.call, hfirst, pure, Except.pure, bind, Except.bind] at h
  | error cause' =>
      have hsame : cause' = cause := by
        cases f <;> simp [Native.call, hfirst, bind, Except.bind] at h
        all_goals exact h.1
      exact hsame ▸ hnumber hfirst

namespace Machine

/-- If the machine has completed something, then not with one of the four faults. -/
def Possible (m : Machine) : Prop := ∀ c, m.control = .complete c → c.Possible

variable {st : State} {frames : List Frame}

theorem possible_complete {c : Completion} (h : c.Possible) :
    Machine.Possible ⟨.complete c, frames, st⟩ := by
  intro c' hc'
  cases hc'
  exact h

theorem possible_eval (e : Expr) : Machine.Possible ⟨.eval e, frames, st⟩ := nofun

theorem possible_exec (s : Stmt) : Machine.Possible ⟨.exec s, frames, st⟩ := nofun

theorem possible_fault (t : Token) {cause : RuntimeFault} (h : cause.Possible) :
    Machine.Possible ⟨.complete (.faultAt t cause), frames, st⟩ :=
  possible_complete (Completion.possible_faultAt t h)

theorem possible_normal (v : Value) : Machine.Possible ⟨.complete (.normal v), frames, st⟩ :=
  possible_complete (Completion.possible_normal v)

theorem call_possible (callee : Value) (paren : Token) (args : List Value) :
    (call callee paren args frames st).Possible := by
  unfold call
  split
  · exact possible_fault paren trivial
  · split
    · exact possible_fault paren trivial
    · split
      · exact possible_fault paren trivial
      · unfold invoke
        split
        · split
          · exact possible_normal _
          · next hcall => exact possible_fault paren (Native.possible _ _ _ hcall)
        · exact possible_normal _
        · unfold construct
          dsimp only
          split <;> exact possible_normal _
        · exact possible_fault paren trivial

theorem nextArgument_possible (callee : Value) (paren : Token) (evaluated : List Value)
    (rest : List Expr) : (nextArgument callee paren evaluated rest frames st).Possible := by
  cases rest with
  | nil => exact call_possible callee paren evaluated.reverse
  | cons e es => exact possible_eval e

theorem property_possible (o : ObjectId) (name : Token) : (property st o name).1.Possible := by
  unfold property
  split
  · exact Completion.possible_normal _
  · split
    · exact Completion.possible_normal _
    · exact Completion.possible_faultAt name trivial

theorem program_possible (rest : List Stmt) (v : Value) :
    (continueWith (.program rest) v frames st).Possible := by
  cases rest with
  | nil =>
      simp only [continueWith]
      split
      · exact possible_normal _
      · exact possible_complete (Completion.possible_sink _)
  | cons s rest => exact possible_exec s

/-- Where no name is used, the operators are all that matters. -/
theorem continueWith_possible {frame : Frame} (hframe : frame.WellFormed) (v : Value)
    (huse : ∀ use, frame ≠ .assign use) : (continueWith frame v frames st).Possible := by
  cases frame with
  | unary operator => exact possible_complete (Operator.unary_possible hframe v)
  | binaryLeft operator right => exact possible_eval right
  | binaryRight left operator =>
      exact possible_complete (Operator.binary_possible st.heap hframe left v)
  | logical operator right =>
      simp only [continueWith]
      split
      · exact possible_normal v
      · exact possible_eval right
  | assign use => exact absurd rfl (huse use)
  | callee paren arguments => exact nextArgument_possible v paren [] arguments
  | argument callee paren evaluated rest =>
      exact nextArgument_possible callee paren (v :: evaluated) rest
  | get name =>
      cases v with
      | object o => exact possible_complete (property_possible o name)
      | _ => exact possible_fault name trivial
  | setObject name value =>
      cases v with
      | object o => exact possible_eval value
      | _ => exact possible_fault name trivial
  | print =>
      simp only [continueWith]
      split
      · exact possible_normal _
      · exact possible_complete (Completion.possible_sink _)
  | branch yes no =>
      simp only [continueWith]
      split
      · exact possible_exec yes
      · cases no with
        | none => exact possible_normal _
        | some no => exact possible_exec no
  | loopTest condition body =>
      simp only [continueWith]
      split
      · exact possible_exec body
      · exact possible_normal _
  | loopBody condition body => exact possible_eval condition
  | giveBack => exact possible_complete (Completion.possible_returned v)
  | superclass name use methods =>
      cases v with
      | classObject parent => exact possible_normal _
      | _ => exact possible_fault use.name trivial
  | sequence rest =>
      cases rest with
      | nil => exact possible_normal _
      | cons s rest => exact possible_exec s
  | program rest => exact program_possible rest v
  | _ => exact possible_normal _

theorem execute_possible (s : Stmt) : (execute s frames st).Possible := by
  cases s with
  | expression e => exact possible_eval e
  | print e => exact possible_eval e
  | variableDecl name value =>
      cases value with
      | none => exact possible_normal _
      | some e => exact possible_eval e
  | conditional condition yes no => exact possible_eval condition
  | loop condition body => exact possible_eval condition
  | giveBack keyword value =>
      cases value with
      | none => exact possible_complete (Completion.possible_returned _)
      | some e => exact possible_eval e
  | classDecl name superclass methods =>
      cases superclass with
      | none => exact possible_normal _
      | some use => exact possible_eval _
  | _ => exact possible_normal _

theorem superMethod_possible (use : Reference) (method : Token) :
    (superMethod st use method).1.Possible ∨
      ∃ t name, (superMethod st use method).1 = .faultAt t (.undefinedVariable name) := by
  unfold superMethod
  split
  · exact .inr ⟨_, _, rfl⟩
  · split
    · split
      · split
        · exact .inl (Completion.possible_normal _)
        · exact .inl (Completion.possible_faultAt method trivial)
      · exact .inr ⟨_, _, rfl⟩
    · exact .inr ⟨_, _, rfl⟩

/-- All that can be wrong with a use is that the name is not bound. -/
theorem Evaluates.possible {m : Machine} {u : Use} (h : m.Evaluates u) :
    m.step.Possible ∨ ∃ name line,
      m.step.control = .complete (.raised (.fault (.undefinedVariable name) line)) := by
  cases h with
  | read use frames st =>
      show (evaluate (.ident use) frames st).Possible ∨ ∃ name line,
        (evaluate (.ident use) frames st).control = _
      simp only [evaluate]
      split
      · exact .inl (possible_normal _)
      · exact .inr ⟨_, _, rfl⟩
  | this use frames st =>
      show (evaluate (.this use) frames st).Possible ∨ ∃ name line,
        (evaluate (.this use) frames st).control = _
      simp only [evaluate]
      split
      · exact .inl (possible_normal _)
      · exact .inr ⟨_, _, rfl⟩
  | super use method frames st =>
      rcases @superMethod_possible st use method with h | ⟨t, name, h⟩
      · exact .inl (possible_complete h)
      · exact .inr ⟨name, t.line, congrArg Control.complete h⟩
  | assign v use frames st =>
      show (continueWith (.assign use) v frames st).Possible ∨ ∃ name line,
        (continueWith (.assign use) v frames st).control = _
      rcases continueWith_assign use v frames st with ⟨x, hassign⟩ | hassign
      · rw [hassign]
        exact .inl (possible_normal v)
      · rw [hassign]
        exact .inr ⟨_, _, rfl⟩

/-- A name without an address is neither `this` nor `super`, and one with an address is bound. -/
theorem Belongs.possible_of_use {s : Session} {programs : List (List Stmt)} {m : Machine}
    (h : m.Belongs s programs) {u : Use} (hu : m.use? = some u) : m.step.Possible := by
  obtain ⟨labels, hfits⟩ := h.fits
  have hevaluates := evaluates hu
  obtain ⟨site, ⟨P, hP, huse⟩, hscope⟩ := hfits.exists_site hevaluates
  have hplace := h.places P hP _ huse
  rcases hevaluates.possible with hpossible | ⟨name, line, hundefined⟩
  · exact hpossible
  cases haddress : m.state.addresses[u.reference.id]? with
  | some d =>
      -- an assignment comes to its value, and every other use to what it is bound to
      obtain ⟨x, hx⟩ := hfits.reaches hevaluates hscope hplace h.addresses haddress
      by_cases hkind : u.kind = .assign
      · cases hevaluates with
        | assign v use frames st =>
            rw [hx.assigned v rfl rfl]
            exact possible_normal v
        | _ => cases hkind
      · exact absurd hundefined (hx.defined hkind name line)
  | none =>
      -- `this` and `super` have addresses wherever they are used
      have hglobals := hfits.usesGlobals hevaluates hplace h.addresses haddress
      have hplain : Plain u.name := by
        have hspelled := hplace.spelled
        unfold Use.Spelled at hspelled
        rcases hglobals.kind with hkind | hkind
        · rwa [hkind] at hspelled
        · rwa [hkind] at hspelled
      have hfault : (RuntimeFault.undefinedVariable u.name).Possible := ⟨hplain.2, hplain.1⟩
      rcases hglobals.kind with hkind | hkind
      · rw [hglobals.value hkind]
        split
        · exact possible_normal _
        · exact possible_fault u.reference.name hfault
      · cases hevaluates with
        | assign v use frames st =>
            rw [hglobals.assigned v rfl rfl]
            split
            · exact possible_normal v
            · exact possible_fault use.name hfault
        | _ => cases hkind

theorem step_possible {s : Session} {programs : List (List Stmt)} {m : Machine}
    (h : m.Belongs s programs) (hformed : m.WellFormed) (hbefore : m.Possible) :
    m.step.Possible := by
  cases hu : m.use? with
  | some u => exact h.possible_of_use hu
  | none =>
      obtain ⟨control, frames, st⟩ := m
      cases control with
      | eval e =>
          cases e with
          | literal value => cases value <;> exact possible_normal _
          | unary operator operand => exact possible_eval operand
          | binary left operator right => exact possible_eval left
          | logical left operator right => exact possible_eval left
          | grouping inner => exact possible_eval inner
          | ident use => cases hu
          | assign use value => exact possible_eval value
          | call callee paren arguments => exact possible_eval callee
          | get object name => exact possible_eval object
          | set object name value => exact possible_eval object
          | this use => cases hu
          | super use method => cases hu
      | exec s => exact execute_possible s
      | complete c =>
          cases frames with
          | nil => exact hbefore
          | cons frame frames =>
              have hframe := hformed.frames frame (List.mem_cons_self ..)
              cases c with
              | normal v =>
                  refine continueWith_possible hframe v ?_
                  rintro use rfl
                  cases hu
              | returned v =>
                  cases frame with
                  | program rest => exact program_possible rest v
                  | activation caller result => exact possible_normal _
                  | _ => exact possible_complete (Completion.possible_returned v)
              | raised f =>
                  -- a failure on its way is the one that was there before
                  have hraised := hbefore _ rfl
                  cases frame <;> exact possible_complete hraised

end Machine

/-! ## Sessions -/

namespace Session

/-- All functions on the heap of a session are parts of programs that were read. -/
theorem Traced.wellFormed {s : Session} {history : History} (h : s.Traced history) :
    s.state.heap.WellFormed := by
  refine h.keeps (I := fun _ st => st.heap.WellFormed) ?_ ?_ ?_
  · intro output clock
    exact .of_empty rfl
  · intro history st st' hheap _ _ hformed
    rw [hheap]
    exact hformed
  · intro s history source P limit c _ hformed hread _ _
    have hprogram : Stmt.AllWellFormed P := (Source.read_derives hread).wellFormed
    have hloaded : (Machine.ofProgram P (s.noted source P).state).WellFormed :=
      ⟨trivial, List.forall_mem_cons.mpr ⟨hprogram, List.forall_mem_nil _⟩, hformed⟩
    exact (hloaded.run limit).heap

/-- However far a program is run, it meets none of the four faults. -/
theorem Reached.possible {s s₁ : Session} (h : s.Reached) {source : String} {m : Machine}
    (hload : s.load source = (s₁, .ok m)) (n : Nat) : (m.run n).Possible := by
  obtain ⟨history, hs⟩ := h.traced
  obtain ⟨programs, hbelongs⟩ := h.belongs hload
  cases Loads.of_load hload with
  | @loaded P hread _ =>
      have hprogram : Stmt.AllWellFormed P := (Source.read_derives hread).wellFormed
      have hloaded : (Machine.ofProgram P (s.noted source P).state).WellFormed :=
        ⟨trivial, List.forall_mem_cons.mpr ⟨hprogram, List.forall_mem_nil _⟩, hs.wellFormed⟩
      induction n with
      | zero => exact Machine.possible_normal .nil
      | succ n ih =>
          rw [Machine.run_succ_last]
          exact Machine.step_possible (hbelongs n) (hloaded.run n) ih

end Session

/-- **Trees that are read have no invalid nodes, and running them meets none.** Whatever the tokens are, and
from whichever number references are counted, a program or an expression that is read from them is
well-formed. In every session that comes about, no program that is loaded comes to one of the faults that
invalid nodes would cause, however far it is run, and no run ends with the message of one. -/
theorem invalid_nodes_never_met :
    (∀ (tokens : List Token) (k : Nat) (P : List Stmt),
      (parseProgram tokens k).result = .ok P → Stmt.AllWellFormed P) ∧
    (∀ (tokens : List Token) (k : Nat) (e : Expr),
      (parseExpression tokens k).result = .ok e → e.WellFormed) ∧
    ∀ s : Session, s.Reached → ∀ source : String,
      (∀ s₁ m, s.load source = (s₁, .ok m) → ∀ n cause line,
        (m.run n).control = .complete (.raised (.fault cause line)) →
          cause.message ∉ invalidNodeMessages) ∧
      ∀ limit s' cause line,
        s.run limit source = some (s', .error (.runtime (.fault cause line))) →
          cause.message ∉ invalidNodeMessages := by
  refine ⟨fun tokens k P h => parseProgram_wellFormed h,
    fun tokens k e h => parseExpression_wellFormed h, fun s hs source => ⟨?_, ?_⟩⟩
  · intro s₁ m hload n cause line hraised
    exact (hs.possible hload n _ hraised cause line rfl).message
  · intro limit s' cause line hrun
    rcases Session.run_eq_some_iff.mp hrun with
      ⟨e, hload, hresult⟩ | ⟨s₁, m, c, hload, hc, -, hresult⟩
    · cases hresult
      cases Session.Loads.of_load hload
    · -- a run that ends has come to its end at one of the moments above
      obtain ⟨hcontrol, -⟩ := Machine.result?_eq_some_iff.mp hc
      cases c with
      | normal v => cases hresult
      | returned v => cases hresult
      | raised f =>
          cases hresult
          exact (hs.possible hload limit _ hcontrol cause line rfl).message

/-- `- this . a ;` is a program and `- a` an expression. A method that is called after the run that made it
has failed finds `this`, and fails for a field that is not there. -/
theorem invalid_nodes_never_met_survivor :
    let word (k : Keyword) : Token := ⟨.keyword k, k.spelling, 1⟩
    let symbol (s : Symbol) : Token := ⟨.symbol s, s.spelling, 1⟩
    let name : Token := ⟨.identifier, "a", 1⟩
    let failure : RuntimeFault := .undefinedProperty "x"
    let P : List Stmt := [.expression (.unary (symbol .minus) (.get (.this ⟨0, word .thisWord⟩) name))]
    let e : Expr := .unary (symbol .minus) (.ident ⟨0, name⟩)
    ∃ (s s₁ : Session) (m : Machine),
      (parseProgram [symbol .minus, word .thisWord, symbol .dot, name, symbol .semicolon] 0).result
        = .ok P ∧
      Stmt.AllWellFormed P ∧
      (parseExpression [symbol .minus, name] 0).result = .ok e ∧ e.WellFormed ∧
      (Session.fresh .unlimited ⟨0⟩).run 40
          "class A \x7b m() \x7b return this.x; \x7d \x7d var f = A().m; nil();"
        = some (s, .error (.runtime (.fault .notCallable 1))) ∧
      RuntimeFault.notCallable.message ∉ invalidNodeMessages ∧
      s.load "f();" = (s₁, .ok m) ∧ (m.run 10).control = .complete (.raised (.fault failure 1)) ∧
      failure.message ∉ invalidNodeMessages := by
  intro word symbol name failure P e
  have hprogram : (parseProgram
      [symbol .minus, word .thisWord, symbol .dot, name, symbol .semicolon] 0).result = .ok P := by
    cbv
  have hexpression : (parseExpression [symbol .minus, name] 0).result = .ok e := by cbv
  have hall : ((Session.fresh .unlimited ⟨0⟩).run 40
      "class A \x7b m() \x7b return this.x; \x7d \x7d var f = A().m; nil();").bind
        (fun answer => (answer.1.load "f();").2.toOption.map fun m => (answer.2, (m.run 10).control))
      = some (.error (.runtime (.fault .notCallable 1)), .complete (.raised (.fault failure 1))) := by
    cbv
  obtain ⟨⟨s, result⟩, hrun, hcall⟩ := Option.bind_eq_some_iff.mp hall
  have hfresh := Session.Reached.fresh .unlimited ⟨0⟩
  obtain ⟨htrees, hexpressions, hsessions⟩ := invalid_nodes_never_met
  obtain ⟨s₁, m, hload, hcall⟩ := Session.exists_loaded hcall
  obtain ⟨rfl, hcontrol⟩ := Prod.mk.inj hcall
  have hfirst := (hsessions _ hfresh _).2 40 s .notCallable 1 hrun
  have hsecond := (hsessions s (hfresh.run hrun) "f();").1 s₁ m hload 10 failure 1 hcontrol
  exact ⟨s, s₁, m, hprogram, htrees _ 0 P hprogram, hexpression, hexpressions _ 0 e hexpression,
    hrun, hfirst, hload, hcontrol, hsecond⟩

end Lox
