import Lox.Proofs.Heaps
import Lox.Proofs.Steps

/-!
# What a step does to the frames

A step works on what is on top. As a rule it comes to a value or a fault, or it goes on to another
part; at most the frame that has got its value is gone then, and at most one frame is new. The
innermost scope changes only where a block or a call begins or ends, and the depth only with a call. A
return begins with a `return`, passes the frames up to that of its call, and ends there.

What a step enters or binds, and all that this depends on, is described first.
-/

namespace Lox

/-! ## Assignments -/

/-- An assignment binds the name in some scope, or it finds the name in none. -/
theorem State.assign_cases (st : State) (use : Reference) (v : Value) :
    (∃ x, st.assign use v = (.normal v, { st with heap := st.heap.define x use.name.lexeme v })) ∨
      st.assign use v = (.faultAt use.name (.undefinedVariable use.name.lexeme), st) := by
  unfold assign
  dsimp only
  split
  · exact .inl ⟨_, rfl⟩
  · split
    · exact .inl ⟨_, rfl⟩
    · exact .inr rfl

/-! ## Values in themselves -/

/-- The value refers to nothing on the heap. -/
def Value.isAtomic : Value → Bool
  | .function _ => false
  | .classObject _ => false
  | .object _ => false
  | _ => true

theorem Value.ne_function_of_isAtomic {v : Value} (h : v.isAtomic = true) (f : FunctionId) :
    v ≠ .function f := by
  rintro rfl
  exact nomatch h

section

variable {operator : Token} {u : Value}

theorem Operator.unary_isAtomic {v : Value} (h : unary operator v = .ok u) : u.isAtomic = true := by
  unfold unary at h
  split at h
  · split at h
    · cases h
      rfl
    · exact nomatch h
  · cases h
    rfl
  · exact nomatch h

theorem Operator.plus_isAtomic {heap : Heap} {left right : Value}
    (h : plus heap operator left right = .ok u) : u.isAtomic = true := by
  unfold plus at h
  split at h <;> cases h <;> rfl

theorem Operator.numeric_isAtomic {a b : Float} (h : numeric operator a b = .ok u) :
    u.isAtomic = true := by
  unfold numeric at h
  split at h <;> cases h <;> rfl

/-- Operators compute values in themselves. -/
theorem Operator.binary_isAtomic {heap : Heap} {left right : Value}
    (h : binary heap operator left right = .ok u) : u.isAtomic = true := by
  unfold binary at h
  split at h
  · cases h
    rfl
  · cases h
    rfl
  · exact plus_isAtomic h
  · split at h
    · exact numeric_isAtomic h
    · exact nomatch h

/-- So do native functions. -/
theorem Native.call_isAtomic {f : Native} {args : List Value} {clock : Clock}
    (h : (f.call args clock).1 = .ok u) : u.isAtomic = true := by
  unfold call at h
  cases f with
  | clock =>
      cases h
      rfl
  | sleep =>
      dsimp only at h
      split at h
      · cases h
        rfl
      · exact nomatch h
  | _ =>
      cases hargument : numberArgument args with
      | error cause =>
          rw [hargument] at h
          exact nomatch h
      | ok n =>
          rw [hargument] at h
          cases h
          rfl

end

namespace Machine

/-- So an assignment whose value is there comes to this value, or to a fault. -/
theorem continueWith_assign (use : Reference) (v : Value) (frames : List Frame) (st : State) :
    (∃ x, continueWith (.assign use) v frames st = ⟨.complete (.normal v), frames,
        { st with heap := st.heap.define x use.name.lexeme v }⟩) ∨
      continueWith (.assign use) v frames st
        = ⟨.complete (.faultAt use.name (.undefinedVariable use.name.lexeme)), frames, st⟩ := by
  simp only [continueWith]
  rcases st.assign_cases use v with ⟨x, hassign⟩ | hassign
  · exact .inl ⟨x, by rw [hassign]⟩
  · exact .inr (by rw [hassign])

/-! ## Calls -/

/-- The call that the next step makes: the callee and the arguments are there. -/
def calling? (m : Machine) : Option (Value × Token × List Value) :=
  match m.control, m.frames with
  | .complete (.normal callee), .callee paren [] :: _ => some (callee, paren, [])
  | .complete (.normal v), .argument callee paren evaluated [] :: _ =>
    some (callee, paren, (v :: evaluated).reverse)
  | _, _ => none

variable {m : Machine}

/-- The ways in which a machine comes to a call. -/
theorem step_of_calling {callee : Value} {paren : Token} {args : List Value}
    (h : m.calling? = some (callee, paren, args)) :
    m.step = call callee paren args m.frames.tail m.state := by
  obtain ⟨control, frames, st⟩ := m
  unfold calling? at h
  dsimp only at h
  split at h
  · cases h
    rfl
  · cases h
    rfl
  · exact nomatch h

/-- A class with an initializer binds it to the new object, and enters its body. -/
theorem call_initializer {st : State} {c : ClassId} {init : FunctionId}
    (hinit : st.heap.findMethod? c Function.initializerName = some init) {args : List Value}
    (hlength : args.length = (st.heap.functionAt init).declared.arity)
    (hdepth : st.depth < State.maxDepth) (paren : Token) (frames : List Frame) :
    call (.classObject c) paren args frames st =
      enter { st.heap.functionAt init with scope := ⟨st.heap.scopes.size⟩ }
        (.constructed ⟨st.heap.objects.size⟩) args frames
        { st with
          heap := ((st.heap.addObject ⟨c, ∅⟩).2.bindMethod init ⟨st.heap.objects.size⟩).2 } := by
  have harity : st.heap.classArity c = (st.heap.functionAt init).declared.arity := by
    unfold Heap.classArity
    rw [hinit]
  have hclasses : (st.heap.addObject ⟨c, ∅⟩).2.classes = st.heap.classes := rfl
  have hadded : (st.heap.addObject ⟨c, ∅⟩).2.findMethod? c Function.initializerName = some init :=
    (Heap.findMethodFrom_classes hclasses _ _ c).trans hinit
  unfold call
  dsimp only [Heap.arity?]
  rw [harity, if_neg (not_not_intro hlength), if_neg (Nat.not_le.mpr hdepth)]
  unfold invoke construct
  dsimp only
  rw [hadded]
  dsimp only
  rw [Heap.functionAt_bindMethod]
  rfl

/-- The next step enters the body of this function, in a call with this result. A class with an
initializer binds it to the new object first. -/
inductive Enters (m : Machine) : Closure → CallResult → Prop where
  | function {f : FunctionId} {paren : Token} {args : List Value} :
      m.calling? = some (.function f, paren, args) →
      args.length = (m.state.heap.functionAt f).declared.arity → m.state.depth < State.maxDepth →
      Enters m (m.state.heap.functionAt f)
        (if (m.state.heap.functionAt f).isInitializer
          then .receiver (m.state.heap.functionAt f).scope else .ofBody)
  | construction {c : ClassId} {init : FunctionId} {paren : Token} {args : List Value} :
      m.calling? = some (.classObject c, paren, args) →
      m.state.heap.findMethod? c Function.initializerName = some init →
      args.length = (m.state.heap.functionAt init).declared.arity →
      m.state.depth < State.maxDepth →
      Enters m { m.state.heap.functionAt init with scope := ⟨m.state.heap.scopes.size⟩ }
        (.constructed ⟨m.state.heap.objects.size⟩)

theorem Enters.step_eq {f : Closure} {result : CallResult} (h : m.Enters f result) :
    ∃ st args, m.step = enter f result args m.frames.tail st ∧ st.scope = m.state.scope := by
  cases h with
  | @function f paren args hcall hlength hdepth =>
      refine ⟨m.state, args, ?_, rfl⟩
      rw [step_of_calling hcall]
      unfold call
      dsimp only [Heap.arity?]
      rw [if_neg (not_not_intro hlength), if_neg (Nat.not_le.mpr hdepth)]
      rfl
  | @construction c init paren args hcall hinit hlength hdepth =>
      exact ⟨_, args, (step_of_calling hcall).trans
        (call_initializer hinit hlength hdepth paren m.frames.tail), rfl⟩

theorem Enters.depth_lt {f : Closure} {result : CallResult} (h : m.Enters f result) :
    m.state.depth < State.maxDepth := by
  cases h with
  | function _ _ hdepth => exact hdepth
  | construction _ _ _ hdepth => exact hdepth

/-! ## Methods that are bound -/

/-- The next step binds a method to an object: the object has it as a property; a superclass of the
class around has it, and the object is `this`; or it is the initializer for a new object. -/
inductive BindsMethod (m : Machine) : FunctionId → ObjectId → Prop where
  | property {f : FunctionId} {o : ObjectId} {name : Token} {frames : List Frame} :
      m.control = .complete (.normal (.object o)) → m.frames = .get name :: frames →
      (m.state.heap.objectAt o).fields[name.lexeme]? = none →
      m.state.heap.findMethod? (m.state.heap.objectAt o).ofClass name.lexeme = some f →
      BindsMethod m f o
  | super {f : FunctionId} {o : ObjectId} {use : Reference} {name : Token} {distance : Nat}
      {parent : ClassId} :
      m.control = .eval (.super use name) → m.state.addresses[use.id]? = some distance →
      m.state.heap.lookupAt? m.state.scope distance "super" = some (.classObject parent) →
      m.state.heap.lookupAt? m.state.scope (distance - 1) "this" = some (.object o) →
      m.state.heap.findMethod? parent name.lexeme = some f → BindsMethod m f o
  | construction {c : ClassId} {f : FunctionId} {paren : Token} {args : List Value} :
      m.calling? = some (.classObject c, paren, args) →
      m.state.heap.findMethod? c Function.initializerName = some f →
      args.length = (m.state.heap.functionAt f).declared.arity → m.state.depth < State.maxDepth →
      BindsMethod m f ⟨m.state.heap.objects.size⟩

/-- What the value of a property or of a use of `super` comes to. -/
inductive Accesses (m : Machine) : Completion × State → Prop where
  | field (v : Value) : Accesses m (.normal v, m.state)
  | method {f : FunctionId} {o : ObjectId} : m.BindsMethod f o →
      Accesses m (.normal (.function (m.state.heap.bindMethod f o).1),
        { m.state with heap := (m.state.heap.bindMethod f o).2 })
  | fault (t : Token) {cause : RuntimeFault} :
      cause ≠ .stackOverflow → Accesses m (.faultAt t cause, m.state)

theorem superMethod_accesses (use : Reference) (method : Token) (frames : List Frame) (st : State) :
    Accesses ⟨.eval (.super use method), frames, st⟩ (superMethod st use method) := by
  unfold superMethod
  split
  · exact .fault _ nofun
  · next distance haddress =>
    split
    · next parent hsuper =>
      split
      · next o hthis =>
        split
        · next found hfound => exact .method (.super rfl haddress hsuper hthis hfound)
        · exact .fault _ nofun
      · exact .fault _ nofun
    · exact .fault _ nofun

theorem property_accesses (o : ObjectId) (name : Token) (frames : List Frame) (st : State) :
    Accesses ⟨.complete (.normal (.object o)), .get name :: frames, st⟩ (property st o name) := by
  unfold property
  split
  · exact .field _
  · next hfield =>
    split
    · next method hfound => exact .method (.property rfl rfl hfield hfound)
    · exact .fault _ nofun

end Machine

/-! ## Moves -/

namespace Frame

/-- The frame of a call whose callee is running. -/
def isActivation : Frame → Bool
  | activation _ _ => true
  | _ => false

/-- The innermost scope stays what it is when the frame comes and when it goes. -/
def keepsScope : Frame → Bool
  | block _ => false
  | activation _ _ => false
  | program _ => false
  | _ => true

/-- The frame waits for a value to go on with, and not to return it. -/
def isPart : Frame → Bool
  | giveBack => false
  | frame => frame.keepsScope

theorem keepsScope_of_isPart {frame : Frame} (h : frame.isPart) : frame.keepsScope := by
  cases frame with
  | giveBack => exact nomatch h
  | _ => exact h

end Frame

/-- A fault of a call that goes too deep. -/
def Machine.overflow (line : Nat) : Control := .complete (.raised (.fault .stackOverflow line))

/-- Neither a return, nor a fault of a call that goes too deep. -/
def Control.goesOn : Control → Bool
  | .complete (.returned _) => false
  | .complete (.raised (.fault .stackOverflow _)) => false
  | _ => true

theorem Control.ne_returned {control : Control} (h : control.goesOn) (v : Value) :
    control ≠ .complete (.returned v) := by
  rintro rfl
  exact nomatch h

theorem Control.ne_overflow {control : Control} (h : control.goesOn) (line : Nat) :
    control ≠ Machine.overflow line := by
  rintro rfl
  exact nomatch h

/-- The state with another heap, other output and another time. -/
def State.refilled (st : State) (heap : Heap) (output : Sink) (clock : Clock) : State :=
  { st with heap, output, clock }

namespace Machine

/-- What is below the part that the next step works on: a frame that gets its value is gone. -/
inductive Below (m : Machine) : List Frame → Prop where
  | starts : (∀ c, m.control ≠ .complete c) → Below m m.frames
  | value {v : Value} {frame : Frame} {below : List Frame} :
      m.control = .complete (.normal v) → m.frames = frame :: below → frame.isPart → Below m below

/-- What a step can make of a machine. -/
inductive Moves (m : Machine) : Machine → Prop where
  | rests {below : List Frame} {control : Control} (heap : Heap) (output : Sink) (clock : Clock) :
      m.Below below → control.goesOn → Moves m ⟨control, below, m.state.refilled heap output clock⟩
  | waits {below : List Frame} {control : Control} {frame : Frame} :
      m.Below below → control.goesOn → frame.isPart → Moves m ⟨control, frame :: below, m.state⟩
  -- returns
  | awaits {keyword : Token} {e : Expr} : m.control = .exec (.giveBack keyword (some e)) →
      Moves m ⟨.eval e, .giveBack :: m.frames, m.state⟩
  | leaves {keyword : Token} : m.control = .exec (.giveBack keyword none) →
      Moves m ⟨.complete (.returned .nil), m.frames, m.state⟩
  | givesBack {v : Value} {below : List Frame} : m.control = .complete (.normal v) →
      m.frames = .giveBack :: below → Moves m ⟨.complete (.returned v), below, m.state⟩
  | passes {c : Completion} {frame : Frame} {below : List Frame} : m.control = .complete c →
      m.frames = frame :: below → frame.keepsScope → Moves m ⟨.complete c, below, m.state⟩
  -- blocks
  | opens {body : List Stmt} : m.control = .exec (.block body) →
      Moves m ⟨.complete .done, .sequence body :: .block m.state.scope :: m.frames,
        { m.state with
          heap := (m.state.heap.addInnerScope m.state.scope).2
          scope := ⟨m.state.heap.scopes.size⟩ }⟩
  | closes {c c' : Completion} {outer : ScopeId} {below : List Frame} : m.control = .complete c →
      m.frames = .block outer :: below → c' = c ∨ c' = .done →
      Moves m ⟨.complete c', below, { m.state with scope := outer }⟩
  -- calls
  | enters {f : Closure} {result : CallResult} (args : List Value) {heap : Heap} :
      m.Enters f result → m.state.heap.scopes.size ≤ heap.scopes.size →
      Moves m (enter f result args m.frames.tail { m.state with heap })
  | overflows {callee : Value} {paren : Token} {args : List Value} :
      m.calling? = some (callee, paren, args) →
      m.state.heap.arity? callee = some args.length → State.maxDepth ≤ m.state.depth →
      Moves m ⟨overflow paren.line, m.frames.tail, m.state⟩
  | returns {c c' : Completion} {caller : ScopeId} {result : CallResult} {below : List Frame} :
      m.control = .complete c → m.frames = .activation caller result :: below →
      (∃ v, c' = .normal v) ∨ (∃ f, c' = .raised f) ∧ c' = c →
      Moves m ⟨.complete c', below, { m.state with scope := caller, depth := m.state.depth - 1 }⟩
  -- programs
  | next {c : Completion} {s : Stmt} {rest : List Stmt} {below : List Frame} :
      m.control = .complete c → m.frames = .program (s :: rest) :: below →
      Moves m ⟨.exec s, .program rest :: below, m.state⟩
  | ends {c : Completion} {control : Control} {below : List Frame} : m.control = .complete c →
      m.frames = .program [] :: below → control.goesOn → Moves m ⟨control, below, m.state⟩
  | aborts {f : Failure} {rest : List Stmt} {below : List Frame} :
      m.control = .complete (.raised f) → m.frames = .program rest :: below →
      Moves m ⟨.complete (.raised f), below, { m.state with scope := m.state.globals, depth := 0 }⟩
  | halted : m.frames = [] → Moves m m

/-! ### Values and faults -/

section

variable {line : Nat}

theorem unary_fault (operator : Token) (v : Value) :
    Operator.unary operator v ≠ .error (.fault .stackOverflow line) := by
  unfold Operator.unary
  split
  · split <;> exact nofun
  · exact nofun
  · exact nofun

theorem binary_fault (h : Heap) (operator : Token) (left right : Value) :
    Operator.binary h operator left right ≠ .error (.fault .stackOverflow line) := by
  unfold Operator.binary
  split
  · exact nofun
  · exact nofun
  · unfold Operator.plus
    split <;> exact nofun
  · split
    · unfold Operator.numeric
      split <;> exact nofun
    · exact nofun

end

theorem goesOn_ofResult {r : Except Failure Value}
    (h : ∀ line, r ≠ .error (.fault .stackOverflow line)) :
    (Control.complete (.ofResult r)).goesOn := by
  cases r with
  | ok v => rfl
  | error f =>
      unfold Completion.ofResult Control.goesOn
      split
      · next heq => exact nomatch heq
      · next line heq =>
        cases heq
        exact absurd rfl (h line)
      · rfl

theorem goesOn_fault {cause : RuntimeFault} (h : cause ≠ .stackOverflow) (t : Token) :
    (Control.complete (.faultAt t cause)).goesOn := by
  unfold Completion.faultAt Control.goesOn
  split
  · next heq => exact nomatch heq
  · next line heq =>
    cases heq
    exact absurd rfl h
  · rfl

/-- All that a native function can complain about is its argument. -/
theorem native_fault {f : Native} {args : List Value} {clock : Clock} {cause : RuntimeFault}
    (h : (f.call args clock).1 = .error cause) : cause = .argumentNotNumber := by
  have hargument : ∀ cause, Native.numberArgument args = .error cause →
      cause = .argumentNotNumber := by
    intro cause hcause
    unfold Native.numberArgument at hcause
    split at hcause
    · exact nomatch hcause
    · cases hcause
      rfl
  unfold Native.call at h
  cases f with
  | clock => exact nomatch h
  | _ =>
      cases hn : Native.numberArgument args with
      | ok n =>
          rw [hn] at h
          exact nomatch h
      | error cause' =>
          rw [hn] at h
          cases h
          exact hargument _ hn

/-! ### Every step is a move -/

variable {m : Machine}

/-- A step that leaves the state as it is. -/
theorem Moves.stays {below : List Frame} {control : Control} (h : m.Below below)
    (hcontrol : control.goesOn) : m.Moves ⟨control, below, m.state⟩ :=
  .rests m.state.heap m.state.output m.state.clock h hcontrol

theorem Accesses.moves {below : List Frame} {r : Completion × State} (hr : m.Accesses r)
    (h : m.Below below) : m.Moves ⟨.complete r.1, below, r.2⟩ := by
  cases hr with
  | field v => exact .stays h rfl
  | method _ => exact .rests _ m.state.output m.state.clock h rfl
  | fault t hcause => exact .stays h (goesOn_fault hcause t)

theorem below_of_calling {call : Value × Token × List Value} (h : m.calling? = some call) :
    m.Below m.frames.tail := by
  obtain ⟨control, frames, st⟩ := m
  unfold calling? at h
  dsimp only at h
  split at h
  · exact .value rfl rfl rfl
  · exact .value rfl rfl rfl
  · exact nomatch h

theorem Enters.below {f : Closure} {result : CallResult} (h : m.Enters f result) :
    m.Below m.frames.tail := by
  cases h with
  | function hcall => exact below_of_calling hcall
  | construction hcall => exact below_of_calling hcall

theorem construct_moves {c : ClassId} {paren : Token} {args : List Value}
    (hcall : m.calling? = some (.classObject c, paren, args))
    (hlength : args.length = m.state.heap.classArity c) (hdepth : m.state.depth < State.maxDepth) :
    m.Moves (construct c args m.frames.tail m.state) := by
  have hclasses : (m.state.heap.addObject ⟨c, ∅⟩).2.classes = m.state.heap.classes := rfl
  have hadded : (m.state.heap.addObject ⟨c, ∅⟩).2.findMethod? c Function.initializerName
      = m.state.heap.findMethod? c Function.initializerName :=
    Heap.findMethodFrom_classes hclasses _ _ c
  unfold construct
  dsimp only
  -- the new object has no part in which method is found
  rw [hadded]
  split
  · next init hinit =>
    have hlength : args.length = (m.state.heap.functionAt init).declared.arity := by
      rw [hlength, Heap.classArity, hinit]
    rw [Heap.functionAt_bindMethod]
    refine .enters args (.construction hcall hinit hlength hdepth) ?_
    -- the initializer is bound in a scope of its own
    simp [Heap.bindMethod, Heap.addInnerScope, Heap.addScope, Heap.define, Heap.addFunction,
      Heap.addObject]
  · exact .rests _ m.state.output m.state.clock (below_of_calling hcall) rfl

theorem call_moves {callee : Value} {paren : Token} {args : List Value}
    (hcall : m.calling? = some (callee, paren, args)) :
    m.Moves (call callee paren args m.frames.tail m.state) := by
  have hbelow := below_of_calling hcall
  unfold call
  cases harity : m.state.heap.arity? callee with
  | none => exact .stays hbelow rfl
  | some arity =>
      dsimp only
      by_cases hlength : args.length = arity
      · subst hlength
        rw [if_neg (not_not_intro rfl)]
        by_cases hdepth : State.maxDepth ≤ m.state.depth
        · rw [if_pos hdepth]
          exact .overflows hcall harity hdepth
        · rw [if_neg hdepth]
          have hdepth := Nat.lt_of_not_le hdepth
          cases callee with
          | native f =>
              -- it is called and done with in this step
              unfold invoke
              dsimp only
              split
              · exact .rests m.state.heap m.state.output _ hbelow rfl
              · next cause clock hfault =>
                obtain rfl := native_fault (congrArg Prod.fst hfault)
                exact .rests m.state.heap m.state.output _ hbelow rfl
          | function f =>
              have hlength := (Option.some.inj harity).symm
              exact .enters args (.function hcall hlength hdepth) (Nat.le_refl _)
          | classObject c => exact construct_moves hcall (Option.some.inj harity).symm hdepth
          | _ => exact .stays hbelow rfl
      · rw [if_pos hlength]
        exact .stays hbelow rfl

section

variable (frames : List Frame) (st : State)

theorem evaluate_moves (e : Expr) : Moves ⟨.eval e, frames, st⟩ (evaluate e frames st) := by
  have hbelow : Below ⟨.eval e, frames, st⟩ frames := .starts nofun
  cases e with
  | literal value => cases value <;> exact .stays hbelow rfl
  | grouping inner => exact .stays hbelow rfl
  | ident use => simp only [evaluate]; split <;> exact .stays hbelow rfl
  | this use => simp only [evaluate]; split <;> exact .stays hbelow rfl
  | super use method => exact (superMethod_accesses use method frames st).moves hbelow
  | _ => exact .waits hbelow rfl rfl

theorem execute_moves (s : Stmt) : Moves ⟨.exec s, frames, st⟩ (execute s frames st) := by
  have hbelow : Below ⟨.exec s, frames, st⟩ frames := .starts nofun
  cases s with
  | expression e => exact .stays hbelow rfl
  | variableDecl name value =>
      cases value with
      | none => exact .rests _ st.output st.clock hbelow rfl
      | some e => exact .waits hbelow rfl rfl
  | block body => exact .opens rfl
  | functionDecl declared => exact .rests _ st.output st.clock hbelow rfl
  | giveBack keyword value =>
      cases value with
      | none => exact .leaves rfl
      | some e => exact .awaits rfl
  | classDecl name superclass methods =>
      cases superclass with
      | none => exact .rests _ st.output st.clock hbelow rfl
      | some use => exact .waits hbelow rfl rfl
  | _ => exact .waits hbelow rfl rfl

/-- A frame that gets its value goes on in its own place. -/
theorem continueWith_moves {frame : Frame} (hpart : frame.isPart) (v : Value) :
    Moves ⟨.complete (.normal v), frame :: frames, st⟩ (continueWith frame v frames st) := by
  have hbelow : Below ⟨.complete (.normal v), frame :: frames, st⟩ frames := .value rfl rfl hpart
  cases frame with
  | unary operator => exact .stays hbelow (goesOn_ofResult fun _ => unary_fault operator v)
  | binaryLeft operator right => exact .waits hbelow rfl rfl
  | binaryRight left operator =>
      exact .stays hbelow (goesOn_ofResult fun _ => binary_fault st.heap operator left v)
  | logical operator right => simp only [continueWith]; split <;> exact .stays hbelow rfl
  | assign use =>
      rcases continueWith_assign use v frames st with ⟨x, hassign⟩ | hassign
      · rw [hassign]
        exact .rests _ st.output st.clock hbelow rfl
      · rw [hassign]
        exact .stays hbelow rfl
  | callee paren arguments =>
      cases arguments with
      | nil => exact call_moves rfl
      | cons e es => exact .waits hbelow rfl rfl
  | argument callee paren evaluated rest =>
      cases rest with
      | nil => exact call_moves rfl
      | cons e es => exact .waits hbelow rfl rfl
  | get name =>
      cases v with
      | object o => exact (property_accesses o name frames st).moves hbelow
      | _ => exact .stays hbelow rfl
  | setObject name value =>
      cases v with
      | object o => exact .waits hbelow rfl rfl
      | _ => exact .stays hbelow rfl
  | setValue o name => exact .rests _ st.output st.clock hbelow rfl
  | print => simp only [continueWith]; split <;> exact .rests st.heap _ st.clock hbelow rfl
  | define name => exact .rests _ st.output st.clock hbelow rfl
  | branch yes no =>
      simp only [continueWith]
      split
      · exact .stays hbelow rfl
      · cases no <;> exact .stays hbelow rfl
  | loopTest condition body =>
      simp only [continueWith]
      split
      · exact .waits hbelow rfl rfl
      · exact .stays hbelow rfl
  | loopBody condition body => exact .waits hbelow rfl rfl
  | superclass name use methods =>
      cases v with
      | classObject parent => exact .rests _ st.output st.clock hbelow rfl
      | _ => exact .stays hbelow rfl
  | sequence rest =>
      cases rest with
      | nil => exact .stays hbelow rfl
      | cons s rest => exact .waits hbelow rfl rfl
  | giveBack => exact nomatch hpart
  | block outer => exact nomatch hpart
  | activation caller result => exact nomatch hpart
  | program rest => exact nomatch hpart

/-- A program goes on with a completion of either sort. -/
theorem program_moves {c : Completion} (rest : List Stmt) (v : Value) :
    Moves ⟨.complete c, .program rest :: frames, st⟩ (continueWith (.program rest) v frames st) := by
  cases rest with
  | nil => simp only [continueWith]; split <;> exact .ends rfl rfl rfl
  | cons s rest => exact .next rfl rfl

end

/-- **What every step makes of the machine.** -/
theorem step_moves (m : Machine) : m.Moves m.step := by
  obtain ⟨control, frames, st⟩ := m
  cases control with
  | eval e => exact evaluate_moves frames st e
  | exec s => exact execute_moves frames st s
  | complete c =>
      cases frames with
      | nil => exact .halted rfl
      | cons frame frames =>
          cases c with
          | normal v =>
              cases frame with
              | giveBack => exact .givesBack rfl rfl
              | block outer => exact .closes rfl rfl (.inr rfl)
              | activation caller result => exact .returns rfl rfl (.inl ⟨_, rfl⟩)
              | program rest => exact program_moves frames st rest v
              | _ => exact continueWith_moves frames st rfl v
          | returned v =>
              cases frame with
              | block outer => exact .closes rfl rfl (.inl rfl)
              | activation caller result => exact .returns rfl rfl (.inl ⟨_, rfl⟩)
              | program rest => exact program_moves frames st rest v
              | _ => exact .passes rfl rfl rfl
          | raised f =>
              cases frame with
              | block outer => exact .closes rfl rfl (.inl rfl)
              | activation caller result => exact .returns rfl rfl (.inr ⟨⟨f, rfl⟩, rfl⟩)
              | program rest => exact .aborts rfl rfl
              | _ => exact .passes rfl rfl rfl

/-! ## Addresses and the top level -/

theorem step_setting (m : Machine) : m.state.SameSetting m.step.state := by
  suffices ∀ m', m.Moves m' → m.state.SameSetting m'.state from this _ m.step_moves
  intro m' h
  cases h <;> exact ⟨rfl, rfl⟩

/-- A run changes neither the addresses nor which scope is the top level. -/
theorem run_setting : ∀ (limit : Nat) (m : Machine), m.state.SameSetting (run limit m).state
  | 0, m => .refl m.state
  | limit + 1, m => by
      rw [run_succ]
      exact (step_setting m).trans (run_setting limit m.step)

end Machine

end Lox
