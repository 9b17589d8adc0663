import Lox.Machine
import Lox.Operator
/-!
# The steps of a running program

A step either starts on an expression or a statement, or hands a completion to the frame that waits
for it. Parts are evaluated in the order in which they are written, and each result is checked as
soon as all that the check looks at is there.

Whatever way a block or a call ends, its frame puts back the scope that was innermost before, and
the frame of a call counts the call as ended.
-/

namespace Lox

namespace Machine

/-! ## Classes and calls -/

/-- The value of `super.method`: the method of the superclass, bound to the object that `this` is.
The scope of `this` is the one just inside the scope of `super`. -/
def superMethod (st : State) (use : Reference) (method : Token) : Completion × State :=
  match st.addresses[use.id]? with
  | none => (.faultAt use.name (.undefinedVariable "super"), st)
  | some distance =>
    match st.heap.lookupAt? st.scope distance "super" with
    | some (.classObject parent) =>
      match st.heap.lookupAt? st.scope (distance - 1) "this" with
      | some (.object o) =>
        match st.heap.findMethod? parent method.lexeme with
        | some found =>
          let (bound, heap) := st.heap.bindMethod found o
          (.normal (.function bound), { st with heap })
        | none => (.faultAt method (.undefinedProperty method.lexeme), st)
      | _ => (.faultAt use.name (.undefinedVariable "this"), st)
    | _ => (.faultAt use.name (.undefinedVariable "super"), st)

/-- The value of a property: a field, or else a method bound to the object. -/
def property (st : State) (o : ObjectId) (name : Token) : Completion × State :=
  match (st.heap.objectAt o).fields[name.lexeme]? with
  | some v => (.normal v, st)
  | none =>
    match st.heap.findMethod? (st.heap.objectAt o).ofClass name.lexeme with
    | some method =>
      let (bound, heap) := st.heap.bindMethod method o
      (.normal (.function bound), { st with heap })
    | none => (.faultAt name (.undefinedProperty name.lexeme), st)

/-- Adds the methods of a class, closed over a scope. Of two methods with one name the later one
counts. -/
def addMethods (scope : ScopeId) (methods : List Function) (h : Heap) :
    Std.TreeMap String FunctionId × Heap :=
  methods.foldl (fun (table, h) declared =>
    let (f, h) := h.addFunction ⟨declared, scope, declared.isNamedInitializer⟩
    (table.insert declared.name.lexeme f, h)) (∅, h)

/-- Executes the declaration of a class whose superclass is known. -/
def declareClass (st : State) (name : Token) (superclass : Option ClassId)
    (methods : List Function) : State :=
  let h := st.heap.define st.scope name.lexeme .nil
  let (methodScope, h) :=
    match superclass with
    | some parent =>
      let (scope, h) := h.addInnerScope st.scope
      (scope, h.define scope "super" (.classObject parent))
    | none => (st.scope, h)
  let (table, h) := addMethods methodScope methods h
  let (c, h) := h.addClass ⟨name.lexeme, superclass, table⟩
  { st with heap := h.define st.scope name.lexeme (.classObject c) }

/-- Starts on the body of a function, in a new scope that binds the parameters. -/
def enter (f : Closure) (result : CallResult) (args : List Value) (frames : List Frame)
    (st : State) : Machine :=
  let (scope, h) := st.heap.addInnerScope f.scope
  let h := (f.declared.params.zip args).foldl (fun h (p, v) => h.define scope p.lexeme v) h
  ⟨.complete .done,
    .sequence f.declared.body :: .activation st.scope result :: frames,
    { st with heap := h, scope, depth := st.depth + 1 }⟩

/-- Constructs an object, and starts on the initializer if the class has one. -/
def construct (c : ClassId) (args : List Value) (frames : List Frame) (st : State) : Machine :=
  let (o, h) := st.heap.addObject ⟨c, ∅⟩
  match h.findMethod? c Function.initializerName with
  | some init =>
    let (bound, h) := h.bindMethod init o
    enter (h.functionAt bound) (.constructed o) args frames { st with heap := h }
  | none => ⟨.complete (.normal (.object o)), frames, { st with heap := h }⟩

/-- Calls a value that takes this number of arguments. -/
def invoke (callee : Value) (paren : Token) (args : List Value) (frames : List Frame)
    (st : State) : Machine :=
  match callee with
  | .native f =>
    match f.call args st.clock with
    | (.ok v, clock) => ⟨.complete (.normal v), frames, { st with clock }⟩
    | (.error cause, clock) => ⟨.complete (.faultAt paren cause), frames, { st with clock }⟩
  | .function f =>
    let closure := st.heap.functionAt f
    let result := if closure.isInitializer then .receiver closure.scope else .ofBody
    enter closure result args frames st
  | .classObject c => construct c args frames st
  | _ => ⟨.complete (.faultAt paren .notCallable), frames, st⟩

/-- Calls a value once its arguments are there. -/
def call (callee : Value) (paren : Token) (args : List Value) (frames : List Frame)
    (st : State) : Machine :=
  match st.heap.arity? callee with
  | none => ⟨.complete (.faultAt paren .notCallable), frames, st⟩
  | some arity =>
    if args.length ≠ arity then
      ⟨.complete (.faultAt paren (.wrongArity arity args.length)), frames, st⟩
    else if State.maxDepth ≤ st.depth then
      ⟨.complete (.faultAt paren .stackOverflow), frames, st⟩
    else
      invoke callee paren args frames st

/-- What a call yields whose body has ended without a failure. -/
def callValue (h : Heap) (result : CallResult) (returned : Value) : Value :=
  match result with
  | .ofBody => returned
  | .receiver scope => (h.bound? scope "this").getD .nil
  | .constructed o => .object o

/-! ## Starting -/

/-- Starts on an expression. -/
def evaluate (e : Expr) (frames : List Frame) (st : State) : Machine :=
  match e with
  | .literal .nil => ⟨.complete (.normal .nil), frames, st⟩
  | .literal (.bool value) => ⟨.complete (.normal (.bool value)), frames, st⟩
  | .literal (.number value) => ⟨.complete (.normal (.number value)), frames, st⟩
  | .literal (.string value) => ⟨.complete (.normal (.string value)), frames, st⟩
  | .unary operator operand => ⟨.eval operand, .unary operator :: frames, st⟩
  | .binary left operator right => ⟨.eval left, .binaryLeft operator right :: frames, st⟩
  | .logical left operator right => ⟨.eval left, .logical operator right :: frames, st⟩
  | .grouping inner => ⟨.eval inner, frames, st⟩
  | .ident use | .this use =>
    match st.lookup? use with
    | some v => ⟨.complete (.normal v), frames, st⟩
    | none => ⟨.complete (.faultAt use.name (.undefinedVariable use.name.lexeme)), frames, st⟩
  | .assign use value => ⟨.eval value, .assign use :: frames, st⟩
  | .call callee paren arguments => ⟨.eval callee, .callee paren arguments :: frames, st⟩
  | .get object name => ⟨.eval object, .get name :: frames, st⟩
  | .set object name value => ⟨.eval object, .setObject name value :: frames, st⟩
  | .super use method =>
    let (c, st) := superMethod st use method
    ⟨.complete c, frames, st⟩

/-- Starts on a statement. -/
def execute (s : Stmt) (frames : List Frame) (st : State) : Machine :=
  match s with
  | .expression e => ⟨.eval e, frames, st⟩
  | .print e => ⟨.eval e, .print :: frames, st⟩
  | .variableDecl name none => ⟨.complete .done, frames, st.define name .nil⟩
  | .variableDecl name (some value) => ⟨.eval value, .define name :: frames, st⟩
  | .block body =>
    let (scope, heap) := st.heap.addInnerScope st.scope
    ⟨.complete .done, .sequence body :: .block st.scope :: frames, { st with heap, scope }⟩
  | .conditional condition yes no => ⟨.eval condition, .branch yes no :: frames, st⟩
  | .loop condition body => ⟨.eval condition, .loopTest condition body :: frames, st⟩
  | .functionDecl declared =>
    let (f, heap) := st.heap.addFunction ⟨declared, st.scope, false⟩
    ⟨.complete .done, frames, { st with heap }.define declared.name (.function f)⟩
  | .giveBack _ none => ⟨.complete (.returned .nil), frames, st⟩
  | .giveBack _ (some value) => ⟨.eval value, .giveBack :: frames, st⟩
  | .classDecl name none methods => ⟨.complete .done, frames, declareClass st name none methods⟩
  | .classDecl name (some superclass) methods =>
    ⟨.eval (.ident superclass), .superclass name superclass methods :: frames, st⟩

/-! ## Going on -/

/-- Evaluates the next argument of a call, or makes the call after the last one. -/
def nextArgument (callee : Value) (paren : Token) (evaluated : List Value) (rest : List Expr)
    (frames : List Frame) (st : State) : Machine :=
  match rest with
  | e :: es => ⟨.eval e, .argument callee paren evaluated es :: frames, st⟩
  | [] => call callee paren evaluated.reverse frames st

/-- Goes on in a frame with the value that it waited for. -/
def continueWith (frame : Frame) (v : Value) (frames : List Frame) (st : State) : Machine :=
  match frame with
  | .unary operator => ⟨.complete (.ofResult (Operator.unary operator v)), frames, st⟩
  | .binaryLeft operator right => ⟨.eval right, .binaryRight v operator :: frames, st⟩
  | .binaryRight left operator =>
    ⟨.complete (.ofResult (Operator.binary st.heap operator left v)), frames, st⟩
  | .logical operator right =>
    if Operator.settles operator v then ⟨.complete (.normal v), frames, st⟩
    else ⟨.eval right, frames, st⟩
  | .assign use =>
    let (c, st) := st.assign use v
    ⟨.complete c, frames, st⟩
  | .callee paren arguments => nextArgument v paren [] arguments frames st
  | .argument callee paren evaluated rest =>
    nextArgument callee paren (v :: evaluated) rest frames st
  | .get name =>
    match v with
    | .object o =>
      let (c, st) := property st o name
      ⟨.complete c, frames, st⟩
    | _ => ⟨.complete (.faultAt name .noProperties), frames, st⟩
  | .setObject name value =>
    match v with
    | .object o => ⟨.eval value, .setValue o name :: frames, st⟩
    | _ => ⟨.complete (.faultAt name .noFields), frames, st⟩
  | .setValue o name =>
    ⟨.complete (.normal v), frames, { st with heap := st.heap.setField o name.lexeme v }⟩
  | .print =>
    match st.output.writeLine (v.text st.heap) with
    | (output, none) => ⟨.complete .done, frames, { st with output }⟩
    | (output, some fault) => ⟨.complete (.raised (.sink fault)), frames, { st with output }⟩
  | .define name => ⟨.complete .done, frames, st.define name v⟩
  | .branch yes no =>
    if v.isTruthy then ⟨.exec yes, frames, st⟩
    else match no with
      | some no => ⟨.exec no, frames, st⟩
      | none => ⟨.complete .done, frames, st⟩
  | .loopTest condition body =>
    if v.isTruthy then ⟨.exec body, .loopBody condition body :: frames, st⟩
    else ⟨.complete .done, frames, st⟩
  | .loopBody condition body => ⟨.eval condition, .loopTest condition body :: frames, st⟩
  | .giveBack => ⟨.complete (.returned v), frames, st⟩
  | .superclass name superclass methods =>
    match v with
    | .classObject parent =>
      ⟨.complete .done, frames, declareClass st name (some parent) methods⟩
    | _ => ⟨.complete (.faultAt superclass.name .superclassNotClass), frames, st⟩
  | .sequence [] => ⟨.complete .done, frames, st⟩
  | .sequence (s :: rest) => ⟨.exec s, .sequence rest :: frames, st⟩
  | .block outer => ⟨.complete .done, frames, { st with scope := outer }⟩
  | .activation caller result =>
    ⟨.complete (.normal (callValue st.heap result .nil)), frames,
      { st with scope := caller, depth := st.depth - 1 }⟩
  | .program [] =>
    match st.output.flush with
    | none => ⟨.complete .done, frames, st⟩
    | some fault => ⟨.complete (.raised (.sink fault)), frames, st⟩
  | .program (s :: rest) => ⟨.exec s, .program rest :: frames, st⟩

/-- Leaves a frame with a `return`. It ends with its call; a program takes no notice of it. -/
def returnFrom (frame : Frame) (v : Value) (frames : List Frame) (st : State) : Machine :=
  match frame with
  | .block outer => ⟨.complete (.returned v), frames, { st with scope := outer }⟩
  | .activation caller result =>
    ⟨.complete (.normal (callValue st.heap result v)), frames,
      { st with scope := caller, depth := st.depth - 1 }⟩
  | .program rest => continueWith (.program rest) v frames st
  | _ => ⟨.complete (.returned v), frames, st⟩

/-- Leaves a frame with a failure. A program that fails leaves everything but the top level. -/
def raiseFrom (frame : Frame) (f : Failure) (frames : List Frame) (st : State) : Machine :=
  match frame with
  | .block outer => ⟨.complete (.raised f), frames, { st with scope := outer }⟩
  | .activation caller _ =>
    ⟨.complete (.raised f), frames, { st with scope := caller, depth := st.depth - 1 }⟩
  | .program _ => ⟨.complete (.raised f), frames, { st with scope := st.globals, depth := 0 }⟩
  | _ => ⟨.complete (.raised f), frames, st⟩

/-- One step. A machine that has halted stays as it is. -/
def step (m : Machine) : Machine :=
  match m with
  | ⟨.eval e, frames, st⟩ => evaluate e frames st
  | ⟨.exec s, frames, st⟩ => execute s frames st
  | ⟨.complete _, [], _⟩ => m
  | ⟨.complete (.normal v), frame :: frames, st⟩ => continueWith frame v frames st
  | ⟨.complete (.returned v), frame :: frames, st⟩ => returnFrom frame v frames st
  | ⟨.complete (.raised f), frame :: frames, st⟩ => raiseFrom frame f frames st

/-- Makes `limit` steps, or as many as there are before the machine halts. -/
def run : (limit : Nat) → Machine → Machine
  | 0, m => m
  | limit + 1, m =>
    match m.result? with
    | some _ => m
    | none => run limit m.step

/-- A machine that is about to run a program, statement by statement. -/
def ofProgram (program : List Stmt) (st : State) : Machine :=
  ⟨.complete .done, [.program program], st⟩

/-- A machine that is about to execute a single statement. -/
def ofStmt (s : Stmt) (st : State) : Machine := ⟨.exec s, [], st⟩

/-- A machine that is about to evaluate an expression. -/
def ofExpr (e : Expr) (st : State) : Machine := ⟨.eval e, [], st⟩

end Machine

end Lox
