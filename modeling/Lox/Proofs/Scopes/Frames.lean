import Lox.Proofs.Scopes.Changes

/-!
# Machines at a site

What a machine does stands at a site of the program, and so does every frame: it waits at a site for
a result, and goes on at another one when it has done its part. A machine fits if the innermost
scope realises the site of the control, and the frames lead from there out to the top level. What
ends abruptly may have left names without values, so all that is kept of its site are the regions.
-/

namespace Lox

/-- The world of a state, if the scopes on its heap have these labels. -/
def State.world (st : State) (labels : List Region) : World := ⟨st.heap, labels, st.globals⟩

namespace World

section

variable (Good : Use → Site → Prop) (w : World)

/-- The frame waits at the first site, and goes on at the second. -/
inductive FrameFits : Frame → Site → Site → Prop where
  | unary {site : Site} (operator : Token) : FrameFits (.unary operator) site site
  | binaryLeft {site : Site} (operator : Token) {right : Expr} :
      right.Fits Good site → FrameFits (.binaryLeft operator right) site site
  | binaryRight {site : Site} (left : Value) (operator : Token) :
      FrameFits (.binaryRight left operator) site site
  | logical {site : Site} (operator : Token) {right : Expr} :
      right.Fits Good site → FrameFits (.logical operator right) site site
  | assign {site : Site} {use : Reference} :
      Good ⟨.assign, use⟩ site → FrameFits (.assign use) site site
  | callee {site : Site} (paren : Token) {arguments : List Expr} :
      Expr.AllFit Good site arguments → FrameFits (.callee paren arguments) site site
  | argument {site : Site} {callee : Value} (paren : Token) {evaluated : List Value}
      {rest : List Expr} :
      w.Holds Good callee → (∀ v ∈ evaluated, w.Holds Good v) → Expr.AllFit Good site rest →
      FrameFits (.argument callee paren evaluated rest) site site
  | get {site : Site} (name : Token) : FrameFits (.get name) site site
  | setObject {site : Site} (name : Token) {value : Expr} :
      value.Fits Good site → FrameFits (.setObject name value) site site
  | setValue {site : Site} (o : ObjectId) (name : Token) : FrameFits (.setValue o name) site site
  | print {site : Site} : FrameFits .print site site
  | define {site : Site} {name : Token} :
      Plain name.lexeme → FrameFits (.define name) site (site.define name.lexeme)
  | branch {site : Site} {yes : Stmt} {no : Option Stmt} :
      yes.Fits Good site → (∀ s, no = some s → s.Fits Good site) →
      FrameFits (.branch yes no) site site
  | loopTest {site : Site} {condition : Expr} {body : Stmt} :
      condition.Fits Good site → body.Fits Good site →
      FrameFits (.loopTest condition body) site site
  | loopBody {site : Site} {condition : Expr} {body : Stmt} :
      condition.Fits Good site → body.Fits Good site →
      FrameFits (.loopBody condition body) site site
  | giveBack {site : Site} : FrameFits .giveBack site site
  | superclass {site : Site} {name : Token} {superclass : Reference} {methods : List Function} :
      Plain name.lexeme →
      Function.AllFit Good ((site.define name.lexeme).inClass (some superclass) methods) methods →
      FrameFits (.superclass name superclass methods) site (site.define name.lexeme)
  | sequence {site : Site} {rest : List Stmt} :
      Stmt.AllFit Good site rest → FrameFits (.sequence rest) site (site.afterAll rest)
  | block {site outside : Site} {outer : ScopeId} :
      w.Realises outer outside → FrameFits (.block outer) site outside
  | activation {site outside : Site} {caller : ScopeId} {result : CallResult} :
      w.Realises caller outside → FrameFits (.activation caller result) site outside
  | program {rest : List Stmt} : Stmt.AllFit Good [] rest → FrameFits (.program rest) [] []

/-- The frames lead from a site to the top level. A frame may make use of fewer names than are ready
where it waits. -/
inductive FramesFit : Site → List Frame → Prop where
  | nil : FramesFit [] []
  | cons {site inner outer : Site} {frame : Frame} {frames : List Frame} :
      inner.Within site → FrameFits Good w frame inner outer → FramesFit outer frames →
      FramesFit site (frame :: frames)

/-- The control fits the innermost scope, and goes on at the site. -/
inductive ControlFits (x : ScopeId) : Control → Site → Prop where
  | eval {site : Site} {e : Expr} :
      w.Realises x site → e.Fits Good site → ControlFits x (.eval e) site
  | exec {site : Site} {s : Stmt} :
      w.Realises x site → s.Fits Good site → ControlFits x (.exec s) (site.after s)
  | normal {site : Site} {v : Value} :
      w.Realises x site → w.Holds Good v → ControlFits x (.complete (.normal v)) site
  | returned {site : Site} {v : Value} :
      w.Stands x site.regions → w.Holds Good v → ControlFits x (.complete (.returned v)) site
  | raised {site : Site} (f : Failure) :
      w.Stands x site.regions → ControlFits x (.complete (.raised f)) site

end

variable {Good : Use → Site → Prop} {w w' : World}

theorem FrameFits.mono (h : w.Extends w') {frame : Frame} {inner outer : Site}
    (hf : w.FrameFits Good frame inner outer) : w'.FrameFits Good frame inner outer := by
  cases hf with
  | unary operator => exact .unary operator
  | binaryLeft operator hright => exact .binaryLeft operator hright
  | binaryRight left operator => exact .binaryRight left operator
  | logical operator hright => exact .logical operator hright
  | assign huse => exact .assign huse
  | callee paren harguments => exact .callee paren harguments
  | argument paren hcallee hevaluated hrest =>
      exact .argument paren (hcallee.mono h) (fun v hv => (hevaluated v hv).mono h) hrest
  | get name => exact .get name
  | setObject name hvalue => exact .setObject name hvalue
  | setValue o name => exact .setValue o name
  | print => exact .print
  | define hname => exact .define hname
  | branch hyes hno => exact .branch hyes hno
  | loopTest hcondition hbody => exact .loopTest hcondition hbody
  | loopBody hcondition hbody => exact .loopBody hcondition hbody
  | giveBack => exact .giveBack
  | superclass hname hmethods => exact .superclass hname hmethods
  | sequence hrest => exact .sequence hrest
  | block houter => exact .block (houter.mono h)
  | activation hcaller => exact .activation (hcaller.mono h)
  | program hrest => exact .program hrest

theorem FramesFit.mono (h : w.Extends w') {site : Site} {frames : List Frame}
    (hf : w.FramesFit Good site frames) : w'.FramesFit Good site frames := by
  induction hf with
  | nil => exact .nil
  | cons hwithin hframe _ ih => exact .cons hwithin (hframe.mono h) ih

/-- Frames may wait where more names are ready. -/
theorem FramesFit.within {a b : Site} (h : a.Within b) {frames : List Frame}
    (hf : w.FramesFit Good a frames) : w.FramesFit Good b frames := by
  cases hf with
  | nil =>
      cases b with
      | nil => exact .nil
      | cons entry outer => exact h.elim
  | cons hwithin hframe hframes => exact .cons (hwithin.trans h) hframe hframes

/-- A frame in front, which waits exactly where the others go on from. -/
theorem FramesFit.push {site outer : Site} {frame : Frame} {frames : List Frame}
    (hf : w.FramesFit Good outer frames) (hframe : w.FrameFits Good frame site outer) :
    w.FramesFit Good site (frame :: frames) :=
  .cons (.refl site) hframe hf

/-- Statements that declare nothing at the top level leave it as it is. -/
theorem after_top (s : Stmt) : Site.after [] s = [] := by
  unfold Site.after
  cases Scoping.declaredName? s <;> rfl

end World

/-- The machine fits where it stands, when the scopes on its heap have these labels. -/
structure Machine.Fits (Good : Use → Site → Prop) (labels : List Region) (m : Machine) : Prop where
  sound : (m.state.world labels).Sound Good
  stand : ∃ site, (m.state.world labels).ControlFits Good m.state.scope m.control site ∧
    (m.state.world labels).FramesFit Good site m.frames

end Lox
