import Lox.Proofs.Respelling.Frames
import Lox.Proofs.Scopes.Agreement

/-!
# Steps of a respelled program

Machines in step stay in step. The one thing that may go wrong is that a name is not bound that has
an address, as the failure tells the name. So it is asked that what a use with an address reads is
bound.
-/

namespace Lox

open Respelling (nearest reached same)

/-- A use with an address finds what it reads. -/
def Machine.Finds (m : Machine) : Prop :=
  ∀ use, m.control = .eval (.ident use) ∨ m.control = .eval (.this use) →
    m.state.addresses[use.id]? ≠ none → m.state.lookup? use ≠ none

namespace State.InStep

variable {A : Addresses} {Ways : Respelling → Prop} {st : State} {copy : Heap}
  {spellings E : List Respelling} {frames frames' : List Frame}

/-! ## Names -/

/-- The top level is the outermost scope of both programs. -/
theorem outermost (h : st.InStep A Ways copy spellings E frames frames') :
    (st.heap.scopeAt st.globals).outer = none ∧ (copy.scopeAt st.globals).outer = none := by
  have houter : (st.heap.scopeAt st.globals).outer = none := h.globals ▸ h.sound.matched.outermost
  exact ⟨houter, (h.sound.matched.outer st.globals).trans houter⟩

theorem lookup?_respelled (h : st.InStep A Ways copy spellings E frames frames') (use : Reference) :
    ({ st with heap := copy } : State).lookup? (use.respelled A E) = st.lookup? use := by
  have hmatched := h.sound.matched
  obtain rfl : st.addresses = A := h.addresses
  cases haddress : st.addresses[use.id]? with
  | none =>
      -- the top level is searched, and it is spelled as before
      obtain ⟨houter, houter'⟩ := h.outermost
      let right : State := { st with heap := copy }
      have haddress' : right.addresses[use.id]? = none := haddress
      rw [Reference.respelled_of_none haddress, Machine.lookup?_of_none haddress houter,
        Machine.lookup?_of_none haddress' houter', h.globals]
      exact hmatched.bound?_top use.name.lexeme
  | some d =>
      -- both uses lead to the same scope, and are spelled as it is
      unfold State.lookup?
      rw [Reference.respelled_id, Reference.respelled_lexeme haddress]
      dsimp only
      rw [haddress]
      exact h.scope.lookupAt?_copy hmatched d use.name.lexeme

theorem lookup_holds (h : st.InStep A Ways copy spellings E frames frames') {use : Reference}
    {v : Value} (hv : st.lookup? use = some v) : (st.twin copy spellings).Holds A Ways v := by
  obtain ⟨x, hx⟩ := State.bound_of_lookup? hv
  exact h.sound.values x _ v hx

/-- A name is bound as the innermost scope is spelled. -/
theorem define (h : st.InStep A Ways copy spellings E frames frames') (name : Token) {v : Value}
    (hv : (st.twin copy spellings).Holds A Ways v) :
    Machine.InStep A Ways ⟨.complete .done, frames, st.define name v⟩
      ⟨.complete .done, frames',
        ({ st with heap := copy } : State).define (name.respelled (nearest E)) v⟩ := by
  have hsound := h.sound.define (h.scope.nearest h.sound.matched) name.lexeme hv
  exact (h.moved ((st.twin copy spellings).extends_define _ _ _ v) hsound).done

/-- A value is given to the name in the scope that is reached. -/
theorem assign (h : st.InStep A Ways copy spellings E frames frames') (use : Reference) {v : Value}
    (hv : (st.twin copy spellings).Holds A Ways v) :
    let r := st.assign use v
    let r' := ({ st with heap := copy } : State).assign (use.respelled A E) v
    Machine.InStep A Ways ⟨.complete r.1, frames, r.2⟩ ⟨.complete r'.1, frames', r'.2⟩ := by
  have hmatched := h.sound.matched
  have hdefined : ∀ (x : ScopeId) (ρ : Respelling), spellings[x.index]? = some ρ →
      Machine.InStep A Ways
        ⟨.complete (.normal v), frames, { st with heap := st.heap.define x use.name.lexeme v }⟩
        ⟨.complete (.normal v), frames',
          { st with heap := copy.define x (ρ.spell use.name.lexeme) v }⟩ := by
    intro x ρ hx
    have hextends := (st.twin copy spellings).extends_define x use.name.lexeme
      (ρ.spell use.name.lexeme) v
    have hsound := h.sound.define hx use.name.lexeme hv
    exact (h.moved hextends hsound).normal (hv.mono hmatched hextends)
  obtain rfl : st.addresses = A := h.addresses
  cases haddress : st.addresses[use.id]? with
  | none =>
      obtain ⟨houter, houter'⟩ := h.outermost
      have hbound : copy.bound? st.globals use.name.lexeme
          = st.heap.bound? st.globals use.name.lexeme := by
        rw [h.globals]
        exact hmatched.bound?_top use.name.lexeme
      have htop : spellings[st.globals.index]? = some same := by
        rw [h.globals]
        exact hmatched.top
      let right : State := { st with heap := copy }
      have haddress' : right.addresses[use.id]? = none := haddress
      rw [Reference.respelled_of_none haddress, Machine.assign_of_none haddress houter,
        Machine.assign_of_none haddress' houter']
      dsimp only [right]
      rw [hbound]
      cases st.heap.bound? st.globals use.name.lexeme with
      | some _ => exact hdefined st.globals same htop
      | none => exact h.raised _
  | some d =>
      have hancestor : copy.ancestor st.scope d = st.heap.ancestor st.scope d :=
        hmatched.ancestor_copy d st.scope
      unfold State.assign
      rw [Reference.respelled_id, Reference.respelled_lexeme haddress]
      dsimp only
      rw [haddress]
      dsimp only [Heap.assignAt]
      rw [hancestor]
      exact hdefined _ _ (h.scope.ancestor hmatched d)

/-! ## Methods -/

/-- A method is bound to an object. -/
theorem bind (h : st.InStep A Ways copy spellings E frames frames') {method : FunctionId}
    (hm : (st.twin copy spellings).Method A Ways method) (o : ObjectId) :
    let r := st.heap.bindMethod method o
    let r' := copy.bindMethod method o
    Machine.InStep A Ways
      ⟨.complete (.normal (.function r.1)), frames, { st with heap := r.2 }⟩
      ⟨.complete (.normal (.function r'.1)), frames', { st with heap := r'.2 }⟩ := by
  let w := st.twin copy spellings
  obtain ⟨hextends, hsound, hcallable⟩ := h.sound.bindMethod hm o
  have hleft : st.heap.bindMethod method o
      = (⟨st.heap.functions.size⟩, (w.bindMethod method o).heap) := w.heap_bindMethod method o
  have hright : copy.bindMethod method o
      = (⟨st.heap.functions.size⟩, (w.bindMethod method o).copy) :=
    h.sound.matched.copy_bindMethod method o
  dsimp only
  rw [hleft, hright]
  refine (h.moved hextends hsound).normal fun f hf => ?_
  cases hf
  exact hcallable

theorem superMethod (h : st.InStep A Ways copy spellings E frames frames') (use : Reference)
    (method : Token) :
    let r := Machine.superMethod st use method
    let r' := Machine.superMethod { st with heap := copy } (use.respelled A E) method
    Machine.InStep A Ways ⟨.complete r.1, frames, r.2⟩ ⟨.complete r'.1, frames', r'.2⟩ := by
  have hmatched := h.sound.matched
  have hspecial : ∀ (d : Nat) name, (∀ ρ : Respelling, ρ.spell name = name) →
      copy.lookupAt? st.scope d name = st.heap.lookupAt? st.scope d name := by
    intro d name hname
    have hlookup := h.scope.lookupAt?_copy hmatched d name
    rw [hname] at hlookup
    exact hlookup
  have hfind : ∀ c name, copy.findMethod? c name = st.heap.findMethod? c name :=
    hmatched.findMethod?_copy
  dsimp only
  unfold Machine.superMethod
  rw [Reference.respelled_id]
  dsimp only
  cases st.addresses[use.id]? with
  | none => exact h.raised _
  | some d =>
      dsimp only
      rw [hspecial d "super" Respelling.super, hspecial (d - 1) "this" Respelling.this]
      split
      · split
        · rw [hfind]
          split
          · next found hfound => exact h.bind (h.sound.findMethod hfound) _
          · exact h.raised _
        · exact h.raised _
      · exact h.raised _

theorem property (h : st.InStep A Ways copy spellings E frames frames') (o : ObjectId)
    (name : Token) :
    let r := Machine.property st o name
    let r' := Machine.property { st with heap := copy } o name
    Machine.InStep A Ways ⟨.complete r.1, frames, r.2⟩ ⟨.complete r'.1, frames', r'.2⟩ := by
  have hobject : copy.objectAt o = st.heap.objectAt o := h.sound.matched.objectAt_copy o
  have hfind : ∀ c name, copy.findMethod? c name = st.heap.findMethod? c name :=
    h.sound.matched.findMethod?_copy
  dsimp only
  unfold Machine.property
  dsimp only
  rw [hobject, hfind]
  split
  · next v hv => exact h.normal (h.sound.fields o name.lexeme v hv)
  · split
    · next found hfound => exact h.bind (h.sound.findMethod hfound) o
    · exact h.raised _

/-! ## Calls -/

theorem enter (h : st.InStep A Ways copy spellings E frames frames') {f f' : Closure}
    (hf : f.Alike f') {around : List Respelling}
    (hscope : (st.twin copy spellings).Spells f.scope around)
    (hdeclared : f.declared.Respells A Ways around f'.declared) {args : List Value}
    (hargs : ∀ v ∈ args, (st.twin copy spellings).Holds A Ways v) (result : CallResult) :
    Machine.InStep A Ways (Machine.enter f result args frames st)
      (Machine.enter f' result args frames' { st with heap := copy }) := by
  obtain ⟨ρ, hextends, hsound, hinside, hbody⟩ := h.sound.enter hf hscope hdeclared hargs
  have hsize : copy.scopes.size = st.heap.scopes.size := h.sound.matched.scopes_size
  have hentered : ({ st with
      heap := st.heap.enter f args
      scope := ⟨st.heap.scopes.size⟩
      depth := st.depth + 1 } : State).InStep A Ways (copy.enter f' args) (spellings ++ [ρ])
        (ρ :: around) (.sequence f.declared.body :: .activation st.scope result :: frames)
        (.sequence f'.declared.body :: .activation st.scope result :: frames') :=
    ⟨hsound, h.globals, h.addresses, hinside, .cons (.sequence hbody)
      (.cons (.activation result (h.scope.mono hextends))
        (h.frames.mono h.sound.matched hextends))⟩
  have hright : Machine.enter f' result args frames' { st with heap := copy }
      = ⟨.complete .done,
          .sequence f'.declared.body :: .activation st.scope result :: frames',
          { st with
            heap := copy.enter f' args
            scope := ⟨st.heap.scopes.size⟩
            depth := st.depth + 1 }⟩ := by
    rw [← hsize]
    rfl
  rw [hright]
  exact hentered.done

/-- A class constructs the same object, and calls the same initializer on it. -/
theorem construct (h : st.InStep A Ways copy spellings E frames frames') (c : ClassId)
    {args : List Value} (hargs : ∀ v ∈ args, (st.twin copy spellings).Holds A Ways v) :
    Machine.InStep A Ways (Machine.construct c args frames st)
      (Machine.construct c args frames' { st with heap := copy }) := by
  let w := st.twin copy spellings
  have hadded := w.extends_addObject ⟨c, ∅⟩
  have hstep : ({ st with heap := (st.heap.addObject ⟨c, ∅⟩).2 } : State).InStep A Ways
      (copy.addObject ⟨c, ∅⟩).2 spellings E frames frames' :=
    h.moved hadded (h.sound.addObject c)
  have hmatched := hstep.sound.matched
  have hfind : (copy.addObject ⟨c, ∅⟩).2.findMethod? c Function.initializerName
      = (st.heap.addObject ⟨c, ∅⟩).2.findMethod? c Function.initializerName :=
    hmatched.findMethod?_copy c _
  -- the object is new to both heaps, under the same identifier
  have hobject : (copy.addObject ⟨c, ∅⟩).1 = (st.heap.addObject ⟨c, ∅⟩).1 :=
    congrArg (fun objects : Array Object => ObjectId.mk objects.size) h.sound.matched.objects
  simp only [Machine.construct]
  rw [hfind, hobject]
  cases hfound : (st.heap.addObject ⟨c, ∅⟩).2.findMethod? c Function.initializerName with
  | none => exact hstep.plain fun _ hf => by cases hf
  | some init =>
      obtain ⟨hextends, hsound, hcallable⟩ :=
        hstep.sound.bindMethod (hstep.sound.findMethod hfound) (st.heap.addObject ⟨c, ∅⟩).1
      obtain ⟨-, around, hscope, hdeclared⟩ := hcallable
      let o : ObjectId := (st.heap.addObject ⟨c, ∅⟩).1
      have hleft : (st.heap.addObject ⟨c, ∅⟩).2.bindMethod init o
          = (⟨st.heap.functions.size⟩, ((w.addObject ⟨c, ∅⟩).bindMethod init o).heap) :=
        (w.addObject ⟨c, ∅⟩).heap_bindMethod init o
      have hright : (copy.addObject ⟨c, ∅⟩).2.bindMethod init o
          = (⟨st.heap.functions.size⟩, ((w.addObject ⟨c, ∅⟩).bindMethod init o).copy) :=
        hmatched.copy_bindMethod init o
      dsimp only
      rw [hleft, hright]
      exact (hstep.moved hextends hsound).enter (hsound.matched.functions _) hscope hdeclared
        (fun v hv => ((hargs v hv).mono h.sound.matched hadded).mono hmatched hextends) _

theorem invoke (h : st.InStep A Ways copy spellings E frames frames') {callee : Value}
    (hcallee : (st.twin copy spellings).Holds A Ways callee) (paren : Token) {args : List Value}
    (hargs : ∀ v ∈ args, (st.twin copy spellings).Holds A Ways v) :
    Machine.InStep A Ways (Machine.invoke callee paren args frames st)
      (Machine.invoke callee paren args frames' { st with heap := copy }) := by
  cases callee with
  | native f =>
      have hclock : ∀ clock, ({ st with clock } : State).InStep A Ways copy spellings E frames
          frames' := fun _ => ⟨h.sound, h.globals, h.addresses, h.scope, h.frames⟩
      simp only [Machine.invoke]
      split
      · next v clock hcall =>
        have hv : v.isAtomic = true := Native.call_isAtomic (congrArg Prod.fst hcall)
        exact (hclock clock).plain (Value.ne_function_of_isAtomic hv)
      · exact (hclock _).raised _
  | function f =>
      obtain ⟨-, around, hscope, hdeclared⟩ := hcallee f rfl
      have halike := h.sound.matched.functions f
      have hinitializer :
          (copy.functionAt f).isInitializer = (st.heap.functionAt f).isInitializer :=
        halike.isInitializer
      have hclosure : (copy.functionAt f).scope = (st.heap.functionAt f).scope := halike.scope
      simp only [Machine.invoke]
      rw [hinitializer, hclosure]
      exact h.enter halike hscope hdeclared hargs _
  | classObject c => exact h.construct c hargs
  | _ => exact h.raised _

theorem call (h : st.InStep A Ways copy spellings E frames frames') {callee : Value}
    (hcallee : (st.twin copy spellings).Holds A Ways callee) (paren : Token) {args : List Value}
    (hargs : ∀ v ∈ args, (st.twin copy spellings).Holds A Ways v) :
    Machine.InStep A Ways (Machine.call callee paren args frames st)
      (Machine.call callee paren args frames' { st with heap := copy }) := by
  have harity : copy.arity? callee = st.heap.arity? callee := h.sound.matched.arity?_copy callee
  unfold Machine.call
  dsimp only
  rw [harity]
  split
  · exact h.raised _
  · split
    · exact h.raised _
    · split
      · exact h.raised _
      · exact h.invoke hcallee paren hargs

theorem nextArgument (h : st.InStep A Ways copy spellings E frames frames') {callee : Value}
    (hcallee : (st.twin copy spellings).Holds A Ways callee) (paren : Token)
    {evaluated : List Value} (hevaluated : ∀ v ∈ evaluated, (st.twin copy spellings).Holds A Ways v)
    (rest : List Expr) :
    Machine.InStep A Ways (Machine.nextArgument callee paren evaluated rest frames st)
      (Machine.nextArgument callee paren evaluated (rest.map (Expr.respelled A E)) frames'
        { st with heap := copy }) := by
  cases rest with
  | cons e es => exact .eval e (h.push (.argument paren es hcallee hevaluated))
  | nil => exact h.call hcallee paren fun v hv => hevaluated v (List.mem_reverse.mp hv)

/-- What a call yields is the same. -/
theorem callValue (h : (st.twin copy spellings).Sound A Ways) (result : CallResult) {v : Value}
    (hv : (st.twin copy spellings).Holds A Ways v) :
    Machine.callValue copy result v = Machine.callValue st.heap result v ∧
      (st.twin copy spellings).Holds A Ways (Machine.callValue st.heap result v) := by
  cases result with
  | ofBody => exact ⟨rfl, hv⟩
  | constructed o => exact ⟨rfl, Twin.holds_of_ne nofun⟩
  | receiver x =>
      have hthis : copy.bound? x "this" = st.heap.bound? x "this" :=
        h.matched.bound?_fixed x Respelling.this
      unfold Machine.callValue
      dsimp only
      refine ⟨by rw [hthis], ?_⟩
      cases hbound : st.heap.bound? x "this" with
      | none => exact Twin.holds_of_ne nofun
      | some u => exact h.values x "this" u hbound

/-! ## Expressions -/

theorem evaluate (h : st.InStep A Ways copy spellings E frames frames') (e : Expr)
    (hfinds : Machine.Finds ⟨.eval e, frames, st⟩) :
    Machine.InStep A Ways (Machine.evaluate e frames st)
      (Machine.evaluate (e.respelled A E) frames' { st with heap := copy }) := by
  -- a name that is not bound has no address, so it is the same name
  have hread : ∀ use, (st.addresses[use.id]? ≠ none → st.lookup? use ≠ none) →
      Machine.InStep A Ways (Machine.evaluate (.ident use) frames st)
        (Machine.evaluate (.ident (use.respelled A E)) frames' { st with heap := copy }) := by
    intro use huse
    simp only [Machine.evaluate]
    rw [h.lookup?_respelled use]
    cases hlookup : st.lookup? use with
    | some v => exact h.normal (h.lookup_holds hlookup)
    | none =>
        have haddress : A[use.id]? = none := by
          rw [← h.addresses]
          exact Classical.byContradiction fun hsome => huse hsome hlookup
        rw [Reference.respelled_of_none haddress]
        exact h.raised _
  cases e with
  | literal value => cases value <;> exact h.plain fun _ hf => by cases hf
  | unary operator operand => exact .eval operand (h.push (.unary operator))
  | binary left operator right => exact .eval left (h.push (.binaryLeft operator right))
  | logical left operator right => exact .eval left (h.push (.logical operator right))
  | grouping inner => exact .eval inner h
  | ident use => exact hread use (hfinds use (.inl rfl))
  | this use => exact hread use (hfinds use (.inr rfl))
  | assign use value => exact .eval value (h.push (.assign use))
  | call callee paren arguments =>
      have harguments : (Expr.call callee paren arguments).respelled A E
          = .call (callee.respelled A E) paren (arguments.map (Expr.respelled A E)) :=
        congrArg (Expr.call _ paren) (Expr.mapUsesAll_eq_map _ arguments)
      rw [harguments]
      exact .eval callee (h.push (.callee paren arguments))
  | get object name => exact .eval object (h.push (.get name))
  | set object name value => exact .eval object (h.push (.setObject name value))
  | super use method => exact h.superMethod use method

/-! ## Statements -/

theorem execute (h : st.InStep A Ways copy spellings E frames frames') {s s' : Stmt}
    (hs : s.Respells A Ways E s') :
    Machine.InStep A Ways (Machine.execute s frames st)
      (Machine.execute s' frames' { st with heap := copy }) := by
  have hmatched := h.sound.matched
  let w := st.twin copy spellings
  cases hs with
  | expression e => exact .eval e h
  | print e => exact .eval e (h.push .print)
  | variableDecl name value =>
      cases value with
      | none => exact h.define name (Twin.holds_of_ne nofun)
      | some e => exact .eval e (h.push (.define name))
  | @block _ ρ body body' hways hbody =>
      -- the new scope is spelled as the body is
      have hextends := w.extends_addScope ⟨∅, some st.scope⟩ ρ
      have hentered : ({ st with
          heap := (st.heap.addInnerScope st.scope).2
          scope := ⟨st.heap.scopes.size⟩ } : State).InStep A Ways
            (copy.addInnerScope st.scope).2 (spellings ++ [ρ]) (ρ :: E)
            (.sequence body :: .block st.scope :: frames)
            (.sequence body' :: .block st.scope :: frames') :=
        ⟨h.sound.addEmpty st.scope ρ, h.globals, h.addresses, h.scope.addScope hmatched ∅ ρ,
          .cons (.sequence hbody) (.cons (.block (h.scope.mono hextends))
            (h.frames.mono hmatched hextends))⟩
      have hsize : copy.scopes.size = st.heap.scopes.size := hmatched.scopes_size
      have hright : Machine.execute (.block body') frames' { st with heap := copy }
          = ⟨.complete .done, .sequence body' :: .block st.scope :: frames',
              { st with
                heap := (copy.addInnerScope st.scope).2
                scope := ⟨st.heap.scopes.size⟩ }⟩ := by
        rw [← hsize]
        rfl
      rw [hright]
      exact hentered.done
  | ifThen condition hyes => exact .eval condition (h.push (.branchThen hyes))
  | ifElse condition hyes hno => exact .eval condition (h.push (.branchElse hyes hno))
  | loop condition hbody => exact .eval condition (h.push (.loopTest condition hbody))
  | @functionDecl _ f f' hname hf =>
      let c : Closure := ⟨f, st.scope, false⟩
      let c' : Closure := ⟨f', st.scope, false⟩
      have halike : c.Alike c' := ⟨rfl, rfl, hf.name, hf.arity⟩
      have hcallable : (w.addFunction c c').Callable A Ways ⟨st.heap.functions.size⟩ :=
        hmatched.callable_addFunction h.scope hf
      have hadded := h.moved (w.extends_addFunction c c') (h.sound.addFunction halike)
      have hdefined := hadded.define f.name (v := .function ⟨st.heap.functions.size⟩)
        fun g hg => by cases hg; exact hcallable
      have hsize : copy.functions.size = st.heap.functions.size := hmatched.functions_size
      have hright : Machine.execute (.functionDecl f') frames' { st with heap := copy }
          = ⟨.complete .done, frames',
              ({ st with heap := (copy.addFunction c').2 } : State).define
                (f.name.respelled (nearest E)) (.function ⟨st.heap.functions.size⟩)⟩ := by
        rw [← hsize, Token.respelled_of_eq hname, ← hf.name]
        rfl
      rw [hright]
      exact hdefined
  | giveBack keyword value =>
      cases value with
      | none => exact h.returned (Twin.holds_of_ne nofun)
      | some e => exact .eval e (h.push .giveBack)
  | plainClass hname hmethods =>
      obtain ⟨hextends, hsound⟩ := h.sound.declareClass h.scope hname none hmethods
      exact (h.moved hextends hsound).done
  | subclass superclass hname hmethods =>
      exact .eval (.ident superclass) (h.push (.superclass superclass hname hmethods))

/-! ## Frames -/

theorem program (h : st.InStep A Ways copy spellings [] frames frames') {rest rest' : List Stmt}
    (hrest : Stmt.AllRespell A Ways [] rest rest') (v : Value) :
    Machine.InStep A Ways (Machine.continueWith (.program rest) v frames st)
      (Machine.continueWith (.program rest') v frames' { st with heap := copy }) := by
  cases hrest with
  | nil =>
      simp only [Machine.continueWith]
      split
      · exact h.done
      · exact h.raised _
  | cons hs hrest => exact .exec (h.push (.program hrest)) hs

theorem continueWith {inner outer : List Respelling} {frame frame' : Frame} {v : Value}
    (hsound : (st.twin copy spellings).Sound A Ways) (hglobals : st.globals = ⟨0⟩)
    (haddresses : st.addresses = A) (hscope : (st.twin copy spellings).Spells st.scope inner)
    (hv : (st.twin copy spellings).Holds A Ways v)
    (hframe : (st.twin copy spellings).FrameMatches A Ways inner outer frame frame')
    (hframes : (st.twin copy spellings).FramesMatch A Ways outer frames frames') :
    Machine.InStep A Ways (Machine.continueWith frame v frames st)
      (Machine.continueWith frame' v frames' { st with heap := copy }) := by
  have hmatched := hsound.matched
  have hleave : ∀ (x : ScopeId) (depth : Nat), (st.twin copy spellings).Spells x outer →
      ({ st with scope := x, depth } : State).InStep A Ways copy spellings outer frames frames' :=
    fun _ _ hx => ⟨hsound, hglobals, haddresses, hx, hframes⟩
  -- most frames go on in the scope where they have waited
  have hstay : outer = inner → st.InStep A Ways copy spellings inner frames frames' :=
    fun houter => ⟨hsound, hglobals, haddresses, hscope, houter ▸ hframes⟩
  cases hframe with
  | unary operator => exact (hstay rfl).result fun _ => Operator.unary_isAtomic
  | binaryLeft operator right => exact .eval right ((hstay rfl).push (.binaryRight v operator))
  | binaryRight left operator =>
      have htext : Operator.binary copy operator left v = Operator.binary st.heap operator left v :=
        hmatched.binary_copy operator left v
      simp only [Machine.continueWith]
      rw [htext]
      exact (hstay rfl).result fun _ => Operator.binary_isAtomic
  | logical operator right =>
      simp only [Machine.continueWith]
      split
      · exact (hstay rfl).normal hv
      · exact .eval right (hstay rfl)
  | assign use => exact (hstay rfl).assign use hv
  | callee paren arguments =>
      have hnone : ∀ u ∈ ([] : List Value), (st.twin copy spellings).Holds A Ways u :=
        List.forall_mem_nil _
      exact (hstay rfl).nextArgument hv paren hnone arguments
  | argument paren rest hcallee hevaluated =>
      exact (hstay rfl).nextArgument hcallee paren (List.forall_mem_cons.mpr ⟨hv, hevaluated⟩) rest
  | get name =>
      cases v with
      | object o => exact (hstay rfl).property o name
      | _ => exact (hstay rfl).raised _
  | setObject name value =>
      cases v with
      | object o => exact .eval value ((hstay rfl).push (.setValue o name))
      | _ => exact (hstay rfl).raised _
  | setValue o name =>
      have hextends := (st.twin copy spellings).extends_setField o name.lexeme v
      have hmoved := (hstay rfl).moved hextends (hsound.setField hv o name.lexeme)
      exact hmoved.normal (hv.mono hmatched hextends)
  | print =>
      have hmoved : ∀ output, ({ st with output } : State).InStep A Ways copy spellings inner frames
          frames' := fun _ => ⟨hsound, hglobals, haddresses, hscope, hframes⟩
      have htext : v.text copy = v.text st.heap := hmatched.text_copy v
      simp only [Machine.continueWith]
      rw [htext]
      split
      · exact (hmoved _).done
      · exact (hmoved _).raised _
  | define name => exact (hstay rfl).define name hv
  | branchThen hyes =>
      simp only [Machine.continueWith]
      split
      · exact .exec (hstay rfl) hyes
      · exact (hstay rfl).done
  | branchElse hyes hno =>
      simp only [Machine.continueWith]
      split
      · exact .exec (hstay rfl) hyes
      · exact .exec (hstay rfl) hno
  | loopTest condition hbody =>
      simp only [Machine.continueWith]
      split
      · exact .exec ((hstay rfl).push (.loopBody condition hbody)) hbody
      · exact (hstay rfl).done
  | loopBody condition hbody =>
      exact .eval condition ((hstay rfl).push (.loopTest condition hbody))
  | giveBack => exact (hstay rfl).returned hv
  | superclass superclass hname hmethods =>
      cases v with
      | classObject parent =>
          obtain ⟨hextends, hsound'⟩ := hsound.declareClass hscope hname (some parent) hmethods
          exact ((hstay rfl).moved hextends hsound').done
      | _ => exact (hstay rfl).raised _
  | sequence hrest =>
      cases hrest with
      | nil => exact (hstay rfl).done
      | cons hs hrest => exact .exec ((hstay rfl).push (.sequence hrest)) hs
  | block houter => exact (hleave _ st.depth houter).done
  | activation result hcaller =>
      have hnil : (st.twin copy spellings).Holds A Ways .nil :=
        Twin.holds_of_ne fun _ hf => by cases hf
      obtain ⟨hvalue, hheld⟩ := callValue hsound result hnil
      simp only [Machine.continueWith]
      rw [hvalue]
      exact (hleave _ _ hcaller).normal hheld
  | program hrest => exact (hstay rfl).program hrest v

/-! ## Abrupt ends -/

theorem returnFrom {inner outer : List Respelling} {frame frame' : Frame} {v : Value}
    (hsound : (st.twin copy spellings).Sound A Ways) (hglobals : st.globals = ⟨0⟩)
    (haddresses : st.addresses = A) (hscope : (st.twin copy spellings).Spells st.scope inner)
    (hv : (st.twin copy spellings).Holds A Ways v)
    (hframe : (st.twin copy spellings).FrameMatches A Ways inner outer frame frame')
    (hframes : (st.twin copy spellings).FramesMatch A Ways outer frames frames') :
    Machine.InStep A Ways (Machine.returnFrom frame v frames st)
      (Machine.returnFrom frame' v frames' { st with heap := copy }) := by
  have hleave : ∀ (x : ScopeId) (depth : Nat), (st.twin copy spellings).Spells x outer →
      ({ st with scope := x, depth } : State).InStep A Ways copy spellings outer frames frames' :=
    fun _ _ hx => ⟨hsound, hglobals, haddresses, hx, hframes⟩
  have hreturned : outer = inner → Machine.InStep A Ways ⟨.complete (.returned v), frames, st⟩
      ⟨.complete (.returned v), frames', { st with heap := copy }⟩ := by
    rintro rfl
    exact State.InStep.returned ⟨hsound, hglobals, haddresses, hscope, hframes⟩ hv
  cases hframe with
  | block houter => exact (hleave _ st.depth houter).returned hv
  | activation result hcaller =>
      obtain ⟨hvalue, hheld⟩ := callValue hsound result hv
      simp only [Machine.returnFrom]
      rw [hvalue]
      exact (hleave _ _ hcaller).normal hheld
  | program hrest => exact program ⟨hsound, hglobals, haddresses, hscope, hframes⟩ hrest v
  | _ => exact hreturned rfl

theorem raiseFrom {inner outer : List Respelling} {frame frame' : Frame} (f : Failure)
    (hsound : (st.twin copy spellings).Sound A Ways) (hglobals : st.globals = ⟨0⟩)
    (haddresses : st.addresses = A) (hscope : (st.twin copy spellings).Spells st.scope inner)
    (hframe : (st.twin copy spellings).FrameMatches A Ways inner outer frame frame')
    (hframes : (st.twin copy spellings).FramesMatch A Ways outer frames frames') :
    Machine.InStep A Ways (Machine.raiseFrom frame f frames st)
      (Machine.raiseFrom frame' f frames' { st with heap := copy }) := by
  have hleave : ∀ (x : ScopeId) (depth : Nat), (st.twin copy spellings).Spells x outer →
      ({ st with scope := x, depth } : State).InStep A Ways copy spellings outer frames frames' :=
    fun _ _ hx => ⟨hsound, hglobals, haddresses, hx, hframes⟩
  have hraised : outer = inner → Machine.InStep A Ways ⟨.complete (.raised f), frames, st⟩
      ⟨.complete (.raised f), frames', { st with heap := copy }⟩ := by
    rintro rfl
    exact State.InStep.raised ⟨hsound, hglobals, haddresses, hscope, hframes⟩ f
  cases hframe with
  | block houter => exact (hleave _ st.depth houter).raised f
  | activation result hcaller => exact (hleave _ _ hcaller).raised f
  | program hrest => exact (hleave _ 0 hglobals).raised f
  | _ => exact hraised rfl

end State.InStep

namespace Machine

variable {A : Addresses} {Ways : Respelling → Prop}

/-! ## Steps and runs -/

theorem InStep.step {m m' : Machine} (h : m.InStep A Ways m') (hfinds : m.Finds) :
    m.step.InStep A Ways m'.step := by
  cases h with
  | eval e hst => exact hst.evaluate e hfinds
  | exec hst hs => exact hst.execute hs
  | @complete st copy spellings E frames frames' c hst hc =>
      obtain ⟨hsound, hglobals, haddresses, hscope, hframes⟩ := hst
      cases hframes with
      | nil => exact .complete ⟨hsound, hglobals, haddresses, hscope, .nil⟩ hc
      | cons hframe hrest =>
          cases c with
          | normal v =>
              exact State.InStep.continueWith hsound hglobals haddresses hscope (hc v (.inl rfl))
                hframe hrest
          | returned v =>
              exact State.InStep.returnFrom hsound hglobals haddresses hscope (hc v (.inr rfl))
                hframe hrest
          | raised f =>
              exact State.InStep.raiseFrom f hsound hglobals haddresses hscope hframe hrest

theorem InStep.run : ∀ (limit : Nat) {m m' : Machine}, m.InStep A Ways m' →
    (∀ n < limit, (m.run n).Finds) → (m.run limit).InStep A Ways (m'.run limit)
  | 0, _, _, h, _ => h
  | limit + 1, m, m', h, hfinds => by
      -- what the first machine comes to later, it comes to from its next state
      rw [run_succ, run_succ]
      refine InStep.run limit (h.step (hfinds 0 (Nat.succ_pos _))) fun n hn => ?_
      rw [← run_succ]
      exact hfinds (n + 1) (Nat.succ_lt_succ hn)

end Machine

end Lox
