import Lox.Proofs.Moves
import Lox.Proofs.Renaming

/-!
# Running under a renaming

A machine whose program and heap are renamed makes the same steps, as long as its references have
the addresses that they had under their old numbers. What it prints and what it computes is the
same, and failures are reported on the new lines.

A function that was never added reads as a declaration on line 0, so renamings keep that line.
-/

namespace Lox

variable (r : Renaming)

/-! ## Renamed machines -/

def Failure.renamed : Failure → Failure
  | .fault cause line => .fault cause (r.lines line)
  | .sink cause => .sink cause

def Completion.renamed : Completion → Completion
  | .normal v => .normal v
  | .returned v => .returned v
  | .raised f => .raised (f.renamed r)

def Control.renamed : Control → Control
  | .eval e => .eval (e.renamed r)
  | .exec s => .exec (s.renamed r)
  | .complete c => .complete (c.renamed r)

def Frame.renamed : Frame → Frame
  | .unary operator => .unary (operator.renamed r)
  | .binaryLeft operator right => .binaryLeft (operator.renamed r) (right.renamed r)
  | .binaryRight left operator => .binaryRight left (operator.renamed r)
  | .logical operator right => .logical (operator.renamed r) (right.renamed r)
  | .assign use => .assign (use.renamed r)
  | .callee paren arguments => .callee (paren.renamed r) (arguments.map (Expr.renamed r))
  | .argument f paren evaluated rest =>
    .argument f (paren.renamed r) evaluated (rest.map (Expr.renamed r))
  | .get name => .get (name.renamed r)
  | .setObject name value => .setObject (name.renamed r) (value.renamed r)
  | .setValue o name => .setValue o (name.renamed r)
  | .print => .print
  | .define name => .define (name.renamed r)
  | .branch yes no => .branch (yes.renamed r) (no.map (Stmt.renamed r))
  | .loopTest condition body => .loopTest (condition.renamed r) (body.renamed r)
  | .loopBody condition body => .loopBody (condition.renamed r) (body.renamed r)
  | .giveBack => .giveBack
  | .superclass name parent methods =>
    .superclass (name.renamed r) (parent.renamed r) (methods.map (Function.renamed r))
  | .sequence rest => .sequence (rest.map (Stmt.renamed r))
  | .block outer => .block outer
  | .activation caller result => .activation caller result
  | .program rest => .program (rest.map (Stmt.renamed r))

def Closure.renamed (f : Closure) : Closure := { f with declared := f.declared.renamed r }

def Heap.renamed (h : Heap) : Heap := { h with functions := h.functions.map (Closure.renamed r) }

/-- A renamed state, with other addresses. -/
def State.renamed (A : Addresses) (st : State) : State :=
  { st with heap := st.heap.renamed r, addresses := A }

def Machine.renamed (A : Addresses) (m : Machine) : Machine where
  control := m.control.renamed r
  frames := m.frames.map (Frame.renamed r)
  state := m.state.renamed r A

/-! ## The heap

What scopes, classes and objects hold stays as it is. -/

namespace Heap

variable (h : Heap)

@[simp] theorem renamed_scopeAt (s : ScopeId) : (h.renamed r).scopeAt s = h.scopeAt s := rfl

@[simp] theorem renamed_classAt (c : ClassId) : (h.renamed r).classAt c = h.classAt c := rfl

@[simp] theorem renamed_objectAt (o : ObjectId) : (h.renamed r).objectAt o = h.objectAt o := rfl

@[simp] theorem renamed_bound? (s : ScopeId) (name : String) :
    (h.renamed r).bound? s name = h.bound? s name := rfl

@[simp] theorem renamed_define (s : ScopeId) (name : String) (v : Value) :
    (h.renamed r).define s name v = (h.define s name v).renamed r := rfl

@[simp] theorem renamed_setField (o : ObjectId) (name : String) (v : Value) :
    (h.renamed r).setField o name v = (h.setField o name v).renamed r := rfl

@[simp] theorem renamed_addInnerScope (s : ScopeId) :
    (h.renamed r).addInnerScope s = ((h.addInnerScope s).1, (h.addInnerScope s).2.renamed r) := rfl

@[simp] theorem renamed_addObject (o : Object) :
    (h.renamed r).addObject o = ((h.addObject o).1, (h.addObject o).2.renamed r) := rfl

@[simp] theorem renamed_addClass (c : Class) :
    (h.renamed r).addClass c = ((h.addClass c).1, (h.addClass c).2.renamed r) := rfl

@[simp] theorem renamed_addFunction (f : Closure) :
    (h.renamed r).addFunction (f.renamed r)
      = ((h.addFunction f).1, (h.addFunction f).2.renamed r) := by
  simp [addFunction, renamed]

theorem renamed_chainFrom : ∀ (limit : Nat) (s : ScopeId),
    (h.renamed r).chainFrom limit s = h.chainFrom limit s
  | 0, _ => rfl
  | limit + 1, s => by
      rw [chainFrom, chainFrom, renamed_scopeAt]
      cases (h.scopeAt s).outer with
      | none => rfl
      | some outer => exact congrArg _ (renamed_chainFrom limit outer)

@[simp] theorem renamed_binder? (s : ScopeId) (name : String) :
    (h.renamed r).binder? s name = h.binder? s name := by
  rw [binder?, chain, renamed_chainFrom]
  rfl

@[simp] theorem renamed_lookup? (s : ScopeId) (name : String) :
    (h.renamed r).lookup? s name = h.lookup? s name := by
  rw [lookup?, renamed_binder?]
  rfl

@[simp] theorem renamed_ancestor : ∀ (distance : Nat) (s : ScopeId),
    (h.renamed r).ancestor s distance = h.ancestor s distance
  | 0, _ => rfl
  | distance + 1, s => by
      rw [ancestor, ancestor, renamed_scopeAt]
      cases (h.scopeAt s).outer with
      | none => rfl
      | some outer => exact renamed_ancestor distance outer

@[simp] theorem renamed_lookupAt? (s : ScopeId) (distance : Nat) (name : String) :
    (h.renamed r).lookupAt? s distance name = h.lookupAt? s distance name := by
  rw [lookupAt?, renamed_ancestor]
  rfl

@[simp] theorem renamed_assignAt (s : ScopeId) (distance : Nat) (name : String) (v : Value) :
    (h.renamed r).assignAt s distance name v = (h.assignAt s distance name v).renamed r := by
  rw [assignAt, renamed_ancestor]
  rfl

theorem renamed_findMethodFrom (name : String) : ∀ (limit : Nat) (c : ClassId),
    (h.renamed r).findMethodFrom name limit c = h.findMethodFrom name limit c
  | 0, _ => rfl
  | limit + 1, c => by
      rw [findMethodFrom, findMethodFrom, renamed_classAt]
      cases (h.classAt c).methods[name]? with
      | some method => rfl
      | none =>
          cases (h.classAt c).superclass with
          | none => rfl
          | some parent => exact renamed_findMethodFrom name limit parent

@[simp] theorem renamed_findMethod? (c : ClassId) (name : String) :
    (h.renamed r).findMethod? c name = h.findMethod? c name :=
  renamed_findMethodFrom r h name _ c

section

variable {r} (hzero : r.lines 0 = 0)
include hzero

theorem renamed_functionAt (f : FunctionId) :
    (h.renamed r).functionAt f = (h.functionAt f).renamed r := by
  unfold functionAt
  simp only [renamed, Array.getD_eq_getD_getElem?, Array.getElem?_map]
  cases h.functions[f.index]? with
  | some closure => rfl
  | none => simp [Closure.renamed, Function.renamed, Token.renamed, Stmt.renamedAll, hzero]

theorem renamed_bindMethod (method : FunctionId) (o : ObjectId) :
    (h.renamed r).bindMethod method o
      = ((h.bindMethod method o).1, (h.bindMethod method o).2.renamed r) := by
  let closure := h.functionAt method
  let inner := h.addInnerScope closure.scope
  unfold bindMethod
  rw [renamed_functionAt h hzero]
  exact renamed_addFunction r (inner.2.define inner.1 "this" (.object o))
    { closure with scope := inner.1 }

theorem renamed_classArity (c : ClassId) : (h.renamed r).classArity c = h.classArity c := by
  unfold classArity
  rw [renamed_findMethod?]
  cases h.findMethod? c Function.initializerName with
  | none => rfl
  | some init => simp [renamed_functionAt h hzero, Closure.renamed]

theorem renamed_arity? (v : Value) : (h.renamed r).arity? v = h.arity? v := by
  cases v with
  | function f => simp [arity?, renamed_functionAt h hzero, Closure.renamed]
  | classObject c => simp [arity?, renamed_classArity h hzero]
  | _ => rfl

theorem renamed_text (v : Value) : v.text (h.renamed r) = v.text h := by
  cases v with
  | function f => simp [Value.text, renamed_functionAt h hzero, Closure.renamed]
  | _ => rfl

end

end Heap

/-! ## Operators -/

namespace Operator

theorem unary_renamed (operator : Token) (v : Value) :
    unary (operator.renamed r) v = (unary operator v).mapError (Failure.renamed r) := by
  unfold unary
  rw [Token.renamed_kind]
  split
  · cases v <;> rfl
  · rfl
  · rfl

theorem plus_renamed {r : Renaming} (hzero : r.lines 0 = 0) (h : Heap) (operator : Token)
    (left right : Value) : plus (h.renamed r) (operator.renamed r) left right
      = (plus h operator left right).mapError (Failure.renamed r) := by
  unfold plus
  simp only [Heap.renamed_text h hzero]
  split <;> rfl

theorem numeric_renamed (operator : Token) (a b : Float) :
    numeric (operator.renamed r) a b = (numeric operator a b).mapError (Failure.renamed r) := by
  unfold numeric
  rw [Token.renamed_kind]
  split <;> rfl

theorem binary_renamed {r : Renaming} (hzero : r.lines 0 = 0) (h : Heap) (operator : Token)
    (left right : Value) : binary (h.renamed r) (operator.renamed r) left right
      = (binary h operator left right).mapError (Failure.renamed r) := by
  unfold binary
  rw [Token.renamed_kind]
  split
  · rfl
  · rfl
  · exact plus_renamed hzero h operator left right
  · split
    · exact numeric_renamed r operator _ _
    · rfl

end Operator

namespace Completion

@[simp] theorem renamed_faultAt (t : Token) (cause : RuntimeFault) :
    (faultAt t cause).renamed r = faultAt (t.renamed r) cause := rfl

@[simp] theorem renamed_done : done.renamed r = done := rfl

@[simp] theorem renamed_ofResult (result : Except Failure Value) :
    (ofResult result).renamed r = ofResult (result.mapError (Failure.renamed r)) := by
  cases result <;> rfl

end Completion

/-! ## Parts of steps -/

section

variable {r} {A : Addresses} {st : State}

/-- The references have the addresses under their new numbers that they had before. -/
def Readdressed (r : Renaming) (A' A : Addresses) : Prop := ∀ i, A'[r.ids i]? = A[i]?

/-- A completion with the state it leaves, renamed. -/
def renamedPair (r : Renaming) (A : Addresses) (result : Completion × State) :
    Completion × State :=
  (result.1.renamed r, result.2.renamed r A)

namespace State

theorem renamed_lookup? (hA : Readdressed r A st.addresses) (use : Reference) :
    (st.renamed r A).lookup? (use.renamed r) = st.lookup? use := by
  unfold lookup?
  rw [show (st.renamed r A).addresses[(use.renamed r).id]? = st.addresses[use.id]? from hA use.id]
  cases st.addresses[use.id]? with
  | none => exact Heap.renamed_lookup? r st.heap _ _
  | some distance => exact Heap.renamed_lookupAt? r st.heap _ _ _

theorem renamed_assign (hA : Readdressed r A st.addresses) (use : Reference) (v : Value) :
    (st.renamed r A).assign (use.renamed r) v = renamedPair r A (st.assign use v) := by
  unfold assign
  rw [show (st.renamed r A).addresses[(use.renamed r).id]? = st.addresses[use.id]? from hA use.id]
  cases st.addresses[use.id]? with
  | some distance =>
      simp only [State.renamed, Heap.renamed_assignAt]
      rfl
  | none =>
      simp only [State.renamed, Heap.renamed_binder?, Reference.renamed_name, Token.renamed_lexeme]
      cases st.heap.binder? st.globals use.name.lexeme <;> rfl

@[simp] theorem renamed_define (name : Token) (v : Value) :
    (st.renamed r A).define (name.renamed r) v = (st.define name v).renamed r A := rfl

end State

namespace Machine

theorem superMethod_renamed (hzero : r.lines 0 = 0) (hA : Readdressed r A st.addresses)
    (use : Reference) (method : Token) :
    superMethod (st.renamed r A) (use.renamed r) (method.renamed r)
      = renamedPair r A (superMethod st use method) := by
  unfold superMethod
  rw [show (st.renamed r A).addresses[(use.renamed r).id]? = st.addresses[use.id]? from hA use.id]
  cases st.addresses[use.id]? with
  | none => rfl
  | some distance =>
      simp only [State.renamed, Heap.renamed_lookupAt?, Heap.renamed_findMethod?,
        Heap.renamed_bindMethod st.heap hzero, Token.renamed_lexeme]
      split
      · split
        · split <;> rfl
        · rfl
      · rfl

theorem property_renamed (hzero : r.lines 0 = 0) (o : ObjectId) (name : Token) :
    property (st.renamed r A) o (name.renamed r) = renamedPair r A (property st o name) := by
  unfold property
  simp only [State.renamed, Heap.renamed_objectAt, Heap.renamed_findMethod?,
    Heap.renamed_bindMethod st.heap hzero, Token.renamed_lexeme]
  split
  · rfl
  · split <;> rfl

theorem addMethod_renamed (scope : ScopeId) (table : Std.TreeMap String FunctionId) (h : Heap)
    (f : Function) : addMethod scope (table, h.renamed r) (f.renamed r)
      = ((addMethod scope (table, h) f).1, (addMethod scope (table, h) f).2.renamed r) := by
  have hadd := Heap.renamed_addFunction r h ⟨f, scope, f.isNamedInitializer⟩
  simp only [Closure.renamed] at hadd
  simp only [addMethod, Function.renamed_isNamedInitializer, Function.renamed_name,
    Token.renamed_lexeme, hadd]

theorem addMethods_renamed (scope : ScopeId) (methods : List Function) (h : Heap) :
    addMethods scope (methods.map (Function.renamed r)) (h.renamed r)
      = ((addMethods scope methods h).1, (addMethods scope methods h).2.renamed r) := by
  rw [addMethods_eq, addMethods_eq]
  generalize (∅ : Std.TreeMap String FunctionId) = table
  induction methods generalizing table h with
  | nil => rfl
  | cons f fs ih =>
      rw [List.map_cons, List.foldl_cons, List.foldl_cons, addMethod_renamed]
      exact ih _ _

theorem declareClass_renamed (name : Token) (superclass : Option ClassId)
    (methods : List Function) :
    declareClass (st.renamed r A) (name.renamed r) superclass (methods.map (Function.renamed r))
      = (declareClass st name superclass methods).renamed r A := by
  unfold declareClass
  cases superclass with
  | none => simp only [State.renamed, Token.renamed_lexeme, Heap.renamed_define,
      addMethods_renamed, Heap.renamed_addClass]
  | some parent => simp only [State.renamed, Token.renamed_lexeme, Heap.renamed_define,
      Heap.renamed_addInnerScope, addMethods_renamed, Heap.renamed_addClass]

theorem bindParams_renamed (scope : ScopeId) (params : List Token) (args : List Value) (h : Heap) :
    bindParams scope (params.map (Token.renamed r)) args (h.renamed r)
      = (bindParams scope params args h).renamed r := by
  unfold bindParams
  induction params generalizing args h with
  | nil => rfl
  | cons p ps ih =>
      cases args with
      | nil => rfl
      | cons v vs => exact ih vs (h.define scope p.lexeme v)

theorem enter_renamed (f : Closure) (result : CallResult) (args : List Value)
    (frames : List Frame) (st : State) :
    enter (f.renamed r) result args (frames.map (Frame.renamed r)) (st.renamed r A)
      = (enter f result args frames st).renamed r A := by
  rw [enter_eq, enter_eq]
  simp only [Closure.renamed, Function.renamed_params, Function.renamed_body, State.renamed,
    Heap.renamed_addInnerScope, bindParams_renamed]
  rfl

theorem construct_renamed (hzero : r.lines 0 = 0) (c : ClassId) (args : List Value)
    (frames : List Frame) :
    construct c args (frames.map (Frame.renamed r)) (st.renamed r A)
      = (construct c args frames st).renamed r A := by
  unfold construct
  simp only [State.renamed, Heap.renamed_addObject, Heap.renamed_findMethod?]
  cases (st.heap.addObject ⟨c, ∅⟩).2.findMethod? c Function.initializerName with
  | none => rfl
  | some init =>
      simp only [Heap.renamed_bindMethod _ hzero, Heap.renamed_functionAt _ hzero]
      let bound := (st.heap.addObject ⟨c, ∅⟩).2.bindMethod init (st.heap.addObject ⟨c, ∅⟩).1
      exact enter_renamed (bound.2.functionAt bound.1) _ args frames { st with heap := bound.2 }

theorem invoke_renamed (hzero : r.lines 0 = 0) (callee : Value) (paren : Token)
    (args : List Value) (frames : List Frame) :
    invoke callee (paren.renamed r) args (frames.map (Frame.renamed r)) (st.renamed r A)
      = (invoke callee paren args frames st).renamed r A := by
  unfold invoke
  cases callee with
  | native f =>
      dsimp only [State.renamed]
      generalize f.call args st.clock = result
      rcases result with ⟨v | cause, clock⟩ <;> rfl
  | function f =>
      simp only [State.renamed, Heap.renamed_functionAt _ hzero]
      exact enter_renamed (st.heap.functionAt f) _ args frames st
  | classObject c => exact construct_renamed hzero c args frames
  | _ => rfl

theorem call_renamed (hzero : r.lines 0 = 0) (callee : Value) (paren : Token)
    (args : List Value) (frames : List Frame) :
    call callee (paren.renamed r) args (frames.map (Frame.renamed r)) (st.renamed r A)
      = (call callee paren args frames st).renamed r A := by
  unfold call
  rw [show (st.renamed r A).heap.arity? callee = st.heap.arity? callee from
    Heap.renamed_arity? st.heap hzero callee]
  cases st.heap.arity? callee with
  | none => rfl
  | some arity =>
      dsimp only
      by_cases harity : args.length ≠ arity
      · rw [if_pos harity, if_pos harity]
        rfl
      · rw [if_neg harity, if_neg harity]
        by_cases hdepth : State.maxDepth ≤ st.depth
        · rw [if_pos hdepth, if_pos (show State.maxDepth ≤ (st.renamed r A).depth from hdepth)]
          rfl
        · rw [if_neg hdepth, if_neg (show ¬State.maxDepth ≤ (st.renamed r A).depth from hdepth)]
          exact invoke_renamed hzero callee paren args frames

/-! ## Steps -/

theorem evaluate_renamed (hzero : r.lines 0 = 0) (hA : Readdressed r A st.addresses) (e : Expr)
    (frames : List Frame) :
    evaluate (e.renamed r) (frames.map (Frame.renamed r)) (st.renamed r A)
      = (evaluate e frames st).renamed r A := by
  cases e with
  | literal value => cases value <;> rfl
  | ident use =>
      simp only [Expr.renamed, evaluate, State.renamed_lookup? hA]
      cases st.lookup? use <;> rfl
  | this use =>
      simp only [Expr.renamed, evaluate, State.renamed_lookup? hA]
      cases st.lookup? use <;> rfl
  | super use method =>
      simp only [Expr.renamed, evaluate, superMethod_renamed hzero hA]
      rfl
  | call callee paren arguments =>
      simp only [Expr.renamed, Expr.renamedAll_eq_map]
      rfl
  | _ => rfl

theorem execute_renamed (s : Stmt) (frames : List Frame) :
    execute (s.renamed r) (frames.map (Frame.renamed r)) (st.renamed r A)
      = (execute s frames st).renamed r A := by
  cases s with
  | variableDecl name value => cases value <;> rfl
  | block body =>
      simp only [Stmt.renamed, Stmt.renamedAll_eq_map]
      rfl
  | conditional condition yes no => cases no <;> rfl
  | functionDecl declared =>
      have hadd := Heap.renamed_addFunction r st.heap ⟨declared, st.scope, false⟩
      simp only [Closure.renamed] at hadd
      simp only [Stmt.renamed, execute, State.renamed, hadd, Function.renamed_name]
      rfl
  | giveBack keyword value => cases value <;> rfl
  | classDecl name superclass methods =>
      cases superclass with
      | none =>
          simp only [Stmt.renamed, Function.renamedAll_eq_map, Option.map_none, execute,
            declareClass_renamed]
          rfl
      | some use =>
          simp only [Stmt.renamed, Function.renamedAll_eq_map, Option.map_some, execute]
          rfl
  | _ => rfl

theorem nextArgument_renamed (hzero : r.lines 0 = 0) (callee : Value) (paren : Token)
    (evaluated : List Value) (rest : List Expr) (frames : List Frame) :
    nextArgument callee (paren.renamed r) evaluated (rest.map (Expr.renamed r))
        (frames.map (Frame.renamed r)) (st.renamed r A)
      = (nextArgument callee paren evaluated rest frames st).renamed r A := by
  cases rest with
  | nil => exact call_renamed hzero callee paren evaluated.reverse frames
  | cons e es => rfl

theorem continueWith_renamed (hzero : r.lines 0 = 0) (hA : Readdressed r A st.addresses)
    (frame : Frame) (v : Value) (frames : List Frame) :
    continueWith (frame.renamed r) v (frames.map (Frame.renamed r)) (st.renamed r A)
      = (continueWith frame v frames st).renamed r A := by
  cases frame with
  | unary operator =>
      simp only [Frame.renamed, continueWith, Operator.unary_renamed]
      rw [← Completion.renamed_ofResult]
      rfl
  | binaryRight left operator =>
      simp only [Frame.renamed, continueWith, State.renamed, Operator.binary_renamed hzero]
      rw [← Completion.renamed_ofResult]
      rfl
  | logical operator right =>
      have hsettles : Operator.settles (operator.renamed r) v = Operator.settles operator v := rfl
      simp only [Frame.renamed, continueWith, hsettles]
      cases Operator.settles operator v <;> rfl
  | assign use =>
      simp only [Frame.renamed, continueWith, State.renamed_assign hA]
      rfl
  | callee paren arguments => exact nextArgument_renamed hzero v paren [] arguments frames
  | argument callee paren evaluated rest =>
      exact nextArgument_renamed hzero callee paren (v :: evaluated) rest frames
  | get name =>
      cases v with
      | object o =>
          simp only [Frame.renamed, continueWith, property_renamed hzero]
          rfl
      | _ => rfl
  | setObject name value => cases v <;> rfl
  | print =>
      simp only [Frame.renamed, continueWith, State.renamed, Heap.renamed_text _ hzero]
      generalize st.output.writeLine (v.text st.heap) = written
      rcases written with ⟨output, fault | fault⟩ <;> rfl
  | branch yes no =>
      simp only [Frame.renamed, continueWith]
      cases v.isTruthy with
      | true => rfl
      | false => cases no <;> rfl
  | loopTest condition body =>
      simp only [Frame.renamed, continueWith]
      cases v.isTruthy <;> rfl
  | superclass name parent methods =>
      cases v with
      | classObject c =>
          simp only [Frame.renamed, continueWith, declareClass_renamed]
          rfl
      | _ => rfl
  | sequence rest => cases rest <;> rfl
  | program rest =>
      cases rest with
      | nil =>
          simp only [Frame.renamed, List.map_nil, continueWith]
          have houtput : (st.renamed r A).output = st.output := rfl
          rw [houtput]
          cases st.output.flush <;> rfl
      | cons s rest => rfl
  | _ => rfl

theorem returnFrom_renamed (hzero : r.lines 0 = 0) (hA : Readdressed r A st.addresses)
    (frame : Frame) (v : Value) (frames : List Frame) :
    returnFrom (frame.renamed r) v (frames.map (Frame.renamed r)) (st.renamed r A)
      = (returnFrom frame v frames st).renamed r A := by
  cases frame with
  | program rest => exact continueWith_renamed hzero hA (.program rest) v frames
  | _ => rfl

theorem raiseFrom_renamed (frame : Frame) (f : Failure) (frames : List Frame) :
    raiseFrom (frame.renamed r) (f.renamed r) (frames.map (Frame.renamed r)) (st.renamed r A)
      = (raiseFrom frame f frames st).renamed r A := by
  cases frame <;> rfl

/-- **A step of the renamed machine is the renamed step.** -/
theorem step_renamed (hzero : r.lines 0 = 0) {m : Machine}
    (hA : Readdressed r A m.state.addresses) : (m.renamed r A).step = m.step.renamed r A := by
  obtain ⟨control, frames, st⟩ := m
  cases control with
  | eval e => exact evaluate_renamed hzero hA e frames
  | exec s => exact execute_renamed s frames
  | complete c =>
      cases frames with
      | nil => rfl
      | cons frame frames =>
          cases c with
          | normal v => exact continueWith_renamed hzero hA frame v frames
          | returned v => exact returnFrom_renamed hzero hA frame v frames
          | raised f => exact raiseFrom_renamed frame f frames

theorem result?_renamed (m : Machine) :
    (m.renamed r A).result? = m.result?.map (Completion.renamed r) := by
  obtain ⟨control, frames, st⟩ := m
  cases control with
  | complete c => cases frames <;> rfl
  | _ => rfl

/-- A run of the renamed machine is the renamed run. -/
theorem run_renamed (hzero : r.lines 0 = 0) : ∀ (limit : Nat) {m : Machine},
    Readdressed r A m.state.addresses → run limit (m.renamed r A) = (run limit m).renamed r A
  | 0, _, _ => rfl
  | limit + 1, m, hA => by
      rw [run_succ, run_succ, step_renamed hzero hA]
      refine run_renamed hzero limit ?_
      rw [(step_setting m).addresses]
      exact hA

end Machine

end

end Lox
