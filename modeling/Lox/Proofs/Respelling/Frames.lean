import Lox.Proofs.Respelling.Changes

/-!
# Machines in step

A machine that runs a respelled program is in step with one that runs the program if it does the
same, respelled for the scopes around, and if it waits in the same frames, each respelled for the
scopes that it waits in. All values are the same, and so are the states but for their heaps.
-/

namespace Lox

open Respelling (nearest reached same)

namespace Twin

section

variable (A : Addresses) (Ways : Respelling → Prop) (w : Twin)

/-- The frames wait for the same result, in scopes that are spelled in the first ways, and go on in
scopes that are spelled in the second ones. -/
inductive FrameMatches : List Respelling → List Respelling → Frame → Frame → Prop where
  | unary {E : List Respelling} (operator : Token) :
      FrameMatches E E (.unary operator) (.unary operator)
  | binaryLeft {E : List Respelling} (operator : Token) (right : Expr) :
      FrameMatches E E (.binaryLeft operator right) (.binaryLeft operator (right.respelled A E))
  | binaryRight {E : List Respelling} (left : Value) (operator : Token) :
      FrameMatches E E (.binaryRight left operator) (.binaryRight left operator)
  | logical {E : List Respelling} (operator : Token) (right : Expr) :
      FrameMatches E E (.logical operator right) (.logical operator (right.respelled A E))
  | assign {E : List Respelling} (use : Reference) :
      FrameMatches E E (.assign use) (.assign (use.respelled A E))
  | callee {E : List Respelling} (paren : Token) (arguments : List Expr) :
      FrameMatches E E (.callee paren arguments)
        (.callee paren (arguments.map (Expr.respelled A E)))
  | argument {E : List Respelling} {callee : Value} (paren : Token) {evaluated : List Value}
      (rest : List Expr) :
      w.Holds A Ways callee → (∀ v ∈ evaluated, w.Holds A Ways v) →
      FrameMatches E E (.argument callee paren evaluated rest)
        (.argument callee paren evaluated (rest.map (Expr.respelled A E)))
  | get {E : List Respelling} (name : Token) : FrameMatches E E (.get name) (.get name)
  | setObject {E : List Respelling} (name : Token) (value : Expr) :
      FrameMatches E E (.setObject name value) (.setObject name (value.respelled A E))
  | setValue {E : List Respelling} (o : ObjectId) (name : Token) :
      FrameMatches E E (.setValue o name) (.setValue o name)
  | print {E : List Respelling} : FrameMatches E E .print .print
  | define {E : List Respelling} (name : Token) :
      FrameMatches E E (.define name) (.define (name.respelled (nearest E)))
  | branchThen {E : List Respelling} {yes yes' : Stmt} :
      yes.Respells A Ways E yes' → FrameMatches E E (.branch yes none) (.branch yes' none)
  | branchElse {E : List Respelling} {yes yes' no no' : Stmt} :
      yes.Respells A Ways E yes' → no.Respells A Ways E no' →
      FrameMatches E E (.branch yes (some no)) (.branch yes' (some no'))
  | loopTest {E : List Respelling} (condition : Expr) {body body' : Stmt} :
      body.Respells A Ways E body' →
      FrameMatches E E (.loopTest condition body) (.loopTest (condition.respelled A E) body')
  | loopBody {E : List Respelling} (condition : Expr) {body body' : Stmt} :
      body.Respells A Ways E body' →
      FrameMatches E E (.loopBody condition body) (.loopBody (condition.respelled A E) body')
  | giveBack {E : List Respelling} : FrameMatches E E .giveBack .giveBack
  | superclass {E : List Respelling} {name : Token} (superclass : Reference)
      {methods methods' : List Function} :
      (nearest E).spell name.lexeme = name.lexeme →
      Function.AllRespell A Ways (same :: E) methods methods' →
      FrameMatches E E (.superclass name superclass methods)
        (.superclass name (superclass.respelled A E) methods')
  | sequence {E : List Respelling} {rest rest' : List Stmt} :
      Stmt.AllRespell A Ways E rest rest' → FrameMatches E E (.sequence rest) (.sequence rest')
  | block {E E' : List Respelling} {outer : ScopeId} :
      w.Spells outer E' → FrameMatches E E' (.block outer) (.block outer)
  | activation {E E' : List Respelling} {caller : ScopeId} (result : CallResult) :
      w.Spells caller E' → FrameMatches E E' (.activation caller result) (.activation caller result)
  | program {rest rest' : List Stmt} :
      Stmt.AllRespell A Ways [] rest rest' → FrameMatches [] [] (.program rest) (.program rest')

inductive FramesMatch : List Respelling → List Frame → List Frame → Prop where
  | nil {E : List Respelling} : FramesMatch E [] []
  | cons {E E' : List Respelling} {frame frame' : Frame} {frames frames' : List Frame} :
      FrameMatches A Ways w E E' frame frame' → FramesMatch E' frames frames' →
      FramesMatch E (frame :: frames) (frame' :: frames')

end

variable {A : Addresses} {Ways : Respelling → Prop} {w w' : Twin}

theorem FrameMatches.mono (h : w.Matched) (hextends : w.Extends w') {E E' : List Respelling}
    {frame frame' : Frame} (hf : w.FrameMatches A Ways E E' frame frame') :
    w'.FrameMatches A Ways E E' frame frame' := by
  cases hf with
  | unary operator => exact .unary operator
  | binaryLeft operator right => exact .binaryLeft operator right
  | binaryRight left operator => exact .binaryRight left operator
  | logical operator right => exact .logical operator right
  | assign use => exact .assign use
  | callee paren arguments => exact .callee paren arguments
  | argument paren rest hcallee hevaluated =>
      exact .argument paren rest (hcallee.mono h hextends)
        fun v hv => (hevaluated v hv).mono h hextends
  | get name => exact .get name
  | setObject name value => exact .setObject name value
  | setValue o name => exact .setValue o name
  | print => exact .print
  | define name => exact .define name
  | branchThen hyes => exact .branchThen hyes
  | branchElse hyes hno => exact .branchElse hyes hno
  | loopTest condition hbody => exact .loopTest condition hbody
  | loopBody condition hbody => exact .loopBody condition hbody
  | giveBack => exact .giveBack
  | superclass superclass hname hmethods => exact .superclass superclass hname hmethods
  | sequence hrest => exact .sequence hrest
  | block houter => exact .block (houter.mono hextends)
  | activation result hcaller => exact .activation result (hcaller.mono hextends)
  | program hrest => exact .program hrest

theorem FramesMatch.mono (h : w.Matched) (hextends : w.Extends w') {E : List Respelling}
    {frames frames' : List Frame} (hf : w.FramesMatch A Ways E frames frames') :
    w'.FramesMatch A Ways E frames frames' := by
  induction hf with
  | nil => exact .nil
  | cons hframe _ ih => exact .cons (hframe.mono h hextends) ih

end Twin

/-- The heap of a state, with that of a respelled program. -/
def State.twin (st : State) (copy : Heap) (spellings : List Respelling) : Twin :=
  ⟨st.heap, copy, spellings⟩

section

variable (A : Addresses) (Ways : Respelling → Prop)

/-- The state, and the same state with the other heap, stand in scopes that are spelled in these
ways, where the frames wait. -/
structure State.InStep (st : State) (copy : Heap) (spellings E : List Respelling)
    (frames frames' : List Frame) : Prop where
  sound : (st.twin copy spellings).Sound A Ways
  globals : st.globals = ⟨0⟩
  addresses : st.addresses = A
  scope : (st.twin copy spellings).Spells st.scope E
  frames : (st.twin copy spellings).FramesMatch A Ways E frames frames'

/-- The second machine does in the respelled program what the first one does. -/
inductive Machine.InStep : Machine → Machine → Prop where
  | eval {st : State} {copy : Heap} {spellings E : List Respelling} {frames frames' : List Frame}
      (e : Expr) :
      st.InStep A Ways copy spellings E frames frames' →
      InStep ⟨.eval e, frames, st⟩ ⟨.eval (e.respelled A E), frames', { st with heap := copy }⟩
  | exec {st : State} {copy : Heap} {spellings E : List Respelling} {frames frames' : List Frame}
      {s s' : Stmt} :
      st.InStep A Ways copy spellings E frames frames' → s.Respells A Ways E s' →
      InStep ⟨.exec s, frames, st⟩ ⟨.exec s', frames', { st with heap := copy }⟩
  | complete {st : State} {copy : Heap} {spellings E : List Respelling}
      {frames frames' : List Frame} {c : Completion} :
      st.InStep A Ways copy spellings E frames frames' →
      (∀ v, c = .normal v ∨ c = .returned v → (st.twin copy spellings).Holds A Ways v) →
      InStep ⟨.complete c, frames, st⟩ ⟨.complete c, frames', { st with heap := copy }⟩

end

variable {A : Addresses} {Ways : Respelling → Prop}

/-- Machines in step come to the same end, with the same output. -/
theorem Machine.InStep.result {m m' : Machine} (h : m.InStep A Ways m') :
    m'.result? = m.result? ∧ m'.state.output = m.state.output := by
  cases h with
  | eval e _ => exact ⟨rfl, rfl⟩
  | exec _ _ => exact ⟨rfl, rfl⟩
  | complete hst _ =>
      refine ⟨?_, rfl⟩
      have hframes := hst.frames
      cases hframes <;> rfl

namespace State.InStep

variable {st : State} {copy : Heap} {spellings E : List Respelling} {frames frames' : List Frame}

/-! ## Completion -/

theorem normal (h : st.InStep A Ways copy spellings E frames frames') {v : Value}
    (hv : (st.twin copy spellings).Holds A Ways v) :
    Machine.InStep A Ways ⟨.complete (.normal v), frames, st⟩
      ⟨.complete (.normal v), frames', { st with heap := copy }⟩ := by
  refine .complete h fun u hu => ?_
  rcases hu with hu | hu <;> cases hu
  exact hv

/-- A value that is no function needs nothing. -/
theorem plain (h : st.InStep A Ways copy spellings E frames frames') {v : Value}
    (hv : ∀ f, v ≠ .function f) :
    Machine.InStep A Ways ⟨.complete (.normal v), frames, st⟩
      ⟨.complete (.normal v), frames', { st with heap := copy }⟩ :=
  h.normal (Twin.holds_of_ne hv)

theorem done (h : st.InStep A Ways copy spellings E frames frames') :
    Machine.InStep A Ways ⟨.complete .done, frames, st⟩
      ⟨.complete .done, frames', { st with heap := copy }⟩ :=
  h.plain nofun

theorem returned (h : st.InStep A Ways copy spellings E frames frames') {v : Value}
    (hv : (st.twin copy spellings).Holds A Ways v) :
    Machine.InStep A Ways ⟨.complete (.returned v), frames, st⟩
      ⟨.complete (.returned v), frames', { st with heap := copy }⟩ := by
  refine .complete h fun u hu => ?_
  rcases hu with hu | hu <;> cases hu
  exact hv

theorem raised (h : st.InStep A Ways copy spellings E frames frames') (f : Failure) :
    Machine.InStep A Ways ⟨.complete (.raised f), frames, st⟩
      ⟨.complete (.raised f), frames', { st with heap := copy }⟩ := by
  refine .complete h fun u hu => ?_
  rcases hu with hu | hu <;> cases hu

theorem result (h : st.InStep A Ways copy spellings E frames frames') {r : Except Failure Value}
    (hr : ∀ v, r = .ok v → v.isAtomic = true) :
    Machine.InStep A Ways ⟨.complete (.ofResult r), frames, st⟩
      ⟨.complete (.ofResult r), frames', { st with heap := copy }⟩ := by
  cases r with
  | ok v => exact h.plain (Value.ne_function_of_isAtomic (hr v rfl))
  | error f => exact h.raised f

/-! ## Changes -/

theorem push (h : st.InStep A Ways copy spellings E frames frames') {frame frame' : Frame}
    (hframe : (st.twin copy spellings).FrameMatches A Ways E E frame frame') :
    st.InStep A Ways copy spellings E (frame :: frames) (frame' :: frames') :=
  ⟨h.sound, h.globals, h.addresses, h.scope, .cons hframe h.frames⟩

/-- Other heaps that extend these. -/
theorem moved (h : st.InStep A Ways copy spellings E frames frames') {heap' copy' : Heap}
    {spellings' : List Respelling}
    (hextends : (st.twin copy spellings).Extends ⟨heap', copy', spellings'⟩)
    (hsound : Twin.Sound A Ways ⟨heap', copy', spellings'⟩) :
    ({ st with heap := heap' } : State).InStep A Ways copy' spellings' E frames frames' :=
  ⟨hsound, h.globals, h.addresses, h.scope.mono hextends,
    h.frames.mono h.sound.matched hextends⟩

end State.InStep

end Lox
