import Lox.Proofs.Control.Frames
import Lox.Proofs.Growth
import Lox.Proofs.Scopes.Calls

/-!
# From station to station

Every step takes a machine that keeps to its station to one that does, and its frames lead to the
same target as before. This needs nothing of the values that the program computes with: all functions
on the heap keep to the rules, so the body of any of them can be entered.
-/

namespace Lox

open Scoping (FunctionContext)

variable {Good : Use → Site → Prop}

/-! ## Parts of statements -/

namespace Expr.Orderly

variable {p : Option String}

theorem of_uses {e e' : Expr} (h : e.Orderly Good p) (huses : e'.uses ⊆ e.uses) :
    e'.Orderly Good p := by
  obtain ⟨site, hpends, hfits⟩ := h
  exact ⟨site, hpends, fun u hu => hfits u (huses hu)⟩

theorem all_of_uses {e : Expr} {es : List Expr} (h : e.Orderly Good p)
    (huses : Expr.usesAll es ⊆ e.uses) : Expr.AllOrderly Good p es := by
  obtain ⟨site, hpends, hfits⟩ := h
  exact ⟨site, hpends, fun u hu => hfits u (huses hu)⟩

end Expr.Orderly

namespace Stmt

variable {c : FunctionContext}

theorem AllOrderly.head {s : Stmt} {ss : List Stmt} (h : Stmt.AllOrderly Good c (s :: ss)) :
    s.Orderly Good c := by
  obtain ⟨hbranching, hreturning, site, hproper, huses, hnames⟩ := h
  exact ⟨hbranching.1, hreturning.1, site, hproper, fun p hp => huses p (List.mem_append_left _ hp),
    fun t ht => hnames t (List.mem_append_left _ ht)⟩

theorem AllOrderly.tail {s : Stmt} {ss : List Stmt} (h : Stmt.AllOrderly Good c (s :: ss)) :
    Stmt.AllOrderly Good c ss := by
  obtain ⟨hbranching, hreturning, site, hproper, huses, hnames⟩ := h
  have hfirst : ∀ t ∈ s.names, Plain t.lexeme := fun t ht => hnames t (List.mem_append_left _ ht)
  exact ⟨hbranching.2, hreturning.2, site.after s, hproper.after hfirst,
    fun p hp => huses p (List.mem_append_right _ hp),
    fun t ht => hnames t (List.mem_append_right _ ht)⟩

/-- A block begins with no names. -/
theorem Orderly.block {body : List Stmt} (h : (Stmt.block body).Orderly Good c) :
    Stmt.AllOrderly Good c body := by
  obtain ⟨hbranching, hreturning, site, hproper, huses, hnames⟩ := h
  exact ⟨hbranching, hreturning, (.block body, []) :: site, .block (List.forall_mem_nil _)
    hproper, huses, hnames⟩

/-- What is evaluated at the site of a statement finds all names ready. -/
theorem Orderly.expr {s : Stmt} {e : Expr} (h : s.Orderly Good c)
    (huses : ∀ site, e.usesAt site ⊆ s.uses site) : e.Orderly Good none := by
  obtain ⟨-, -, site, hproper, hfits, -⟩ := h
  exact ⟨site, hproper.pends,
    fun u hu => hfits (u, site) (huses site (List.mem_map_of_mem hu))⟩

/-- What is executed at the site of a statement. -/
theorem Orderly.branch {s s' : Stmt} (h : s.Orderly Good c)
    (hbranching : Scoping.declaredName? s' = none ∧ s'.Branching) (hreturning : s'.Returning c)
    (huses : ∀ site, s'.uses site ⊆ s.uses site) (hnames : s'.names ⊆ s.names) :
    s'.Branch Good c := by
  obtain ⟨-, -, site, hproper, hfits, hplain⟩ := h
  exact ⟨hbranching.1, hbranching.2, hreturning, site, hproper, fun p hp => hfits p (huses site hp),
    fun t ht => hplain t (hnames ht)⟩

theorem Orderly.branches {condition : Expr} {yes : Stmt} {no : Option Stmt}
    (h : (Stmt.conditional condition yes no).Orderly Good c) :
    condition.Orderly Good none ∧ yes.Branch Good c ∧ ∀ s, no = some s → s.Branch Good c := by
  have hbranching := h.branching
  have hreturning := h.returning
  cases no with
  | none =>
      refine ⟨h.expr fun _ => List.subset_append_left _ _,
        h.branch hbranching hreturning (fun _ => List.subset_append_right _ _) fun _ ht => ht,
        fun s hs => nomatch hs⟩
  | some no =>
      refine ⟨h.expr fun _ => List.subset_append_left _ _,
        h.branch hbranching.1 hreturning.1 (fun _ _ hp => ?_) (List.subset_append_left _ _),
        fun s hs => ?_⟩
      · exact List.mem_append_right _ (List.mem_append_left _ hp)
      · cases hs
        exact h.branch hbranching.2 hreturning.2
          (fun _ _ hp => List.mem_append_right _ (List.mem_append_right _ hp))
          (List.subset_append_right _ _)

theorem Orderly.loop {condition : Expr} {body : Stmt}
    (h : (Stmt.loop condition body).Orderly Good c) :
    condition.Orderly Good none ∧ body.Branch Good c :=
  ⟨h.expr fun _ => List.subset_append_left _ _,
    h.branch h.branching h.returning (fun _ => List.subset_append_right _ _) fun _ ht => ht⟩

theorem Orderly.function {declared : Function} (h : (Stmt.functionDecl declared).Orderly Good c) :
    declared.Orderly Good .function := by
  obtain ⟨hbranching, hreturning, site, hproper, huses, hnames⟩ := h
  have hname : Plain declared.name.lexeme := hnames _ declared.name_mem
  exact ⟨hbranching, hreturning, site.define declared.name.lexeme, .function (hproper.define hname),
    huses, hnames⟩

theorem Orderly.methods {name : Token} {superclass : Option Reference} {methods : List Function}
    (h : (Stmt.classDecl name superclass methods).Orderly Good c) :
    Function.AllOrderly Good methods := by
  obtain ⟨hbranching, hreturning, site, hproper, huses, hnames⟩ := h
  have hname : Plain name.lexeme := hnames name (List.mem_cons_self ..)
  exact ⟨hbranching, hreturning, site.define name.lexeme, superclass, methods, hproper.define hname,
    fun p hp => huses p (List.mem_append_right _ hp),
    fun t ht => hnames t (List.mem_cons_of_mem _ ht)⟩

end Stmt

namespace Function

theorem Orderly.body {c : FunctionContext} {f : Function} (h : f.Orderly Good c) :
    Stmt.AllOrderly Good c f.body := by
  obtain ⟨hbranching, hreturning, site, henclosing, hfits⟩ := h
  have hproper := henclosing.inFunction hfits.names
  have hbody := World.allFit_body hfits
  cases f with
  | mk name params body => exact ⟨hbranching, hreturning, _, hproper, hbody⟩

theorem AllOrderly.head {f : Function} {fs : List Function} (h : Function.AllOrderly Good (f :: fs)) :
    f.Orderly Good (Scoping.methodContext f) := by
  obtain ⟨hbranching, hreturning, site, superclass, methods, hproper, huses, hnames⟩ := h
  exact ⟨hbranching.1, hreturning.1, _, hproper.inMethod superclass methods f,
    fun p hp => huses p (List.mem_append_left _ hp),
    fun t ht => hnames t (List.mem_append_left _ ht)⟩

theorem AllOrderly.tail {f : Function} {fs : List Function} (h : Function.AllOrderly Good (f :: fs)) :
    Function.AllOrderly Good fs := by
  obtain ⟨hbranching, hreturning, site, superclass, methods, hproper, huses, hnames⟩ := h
  exact ⟨hbranching.2, hreturning.2, site, superclass, methods, hproper,
    fun p hp => huses p (List.mem_append_right _ hp),
    fun t ht => hnames t (List.mem_append_right _ ht)⟩

end Function

/-! ## Functions on the heap -/

/-- The table has functions of the heap under their names. -/
def Heap.Names (h : Heap) (table : Std.TreeMap String FunctionId) : Prop :=
  ∀ (name : String) f, table[name]? = some f → f.index < h.functions.size ∧
    (h.functionAt f).isInitializer = (name == Function.initializerName)

namespace Heap.Orderly

variable {h h' : Heap}

/-- Only functions and classes matter. -/
theorem same (ho : h.Orderly Good) (hfunctions : h'.functions = h.functions)
    (hclasses : h'.classes = h.classes) : h'.Orderly Good := by
  have hat : ∀ f, h'.functionAt f = h.functionAt f := by
    intro f
    rw [functionAt, functionAt, hfunctions]
  have hclass : ∀ c, h'.classAt c = h.classAt c := by
    intro c
    rw [classAt, classAt, hclasses]
  refine ⟨fun f => ?_, fun c name f hf => ?_⟩
  · rw [hat]
    exact ho.functions f
  · rw [hclass] at hf
    rw [hat, hfunctions]
    exact ho.methods c name f hf

theorem addFunction (ho : h.Orderly Good) {f : Closure} (hf : f.Orderly Good) :
    (h.addFunction f).2.Orderly Good := by
  have hgrows := Heap.Grows.addFunction h f
  refine ⟨fun g => ?_, fun c name g hg => ?_⟩
  · rw [functionAt_addFunction]
    split
    · exact hf
    · exact ho.functions g
  · obtain ⟨hlt, hinitializer⟩ := ho.methods c name g hg
    refine ⟨Nat.lt_of_lt_of_le hlt hgrows.functions_size, ?_⟩
    rw [hgrows.functionAt hlt]
    exact hinitializer

/-- What is bound to an object is the same function in another scope. -/
theorem bindMethod (ho : h.Orderly Good) (method : FunctionId) (o : ObjectId) :
    (h.bindMethod method o).2.Orderly Good := by
  have hmethod := ho.functions method
  have hscope : ((h.addInnerScope (h.functionAt method).scope).2.define
      (h.addInnerScope (h.functionAt method).scope).1 "this" (.object o)).Orderly Good :=
    ho.same rfl rfl
  exact hscope.addFunction hmethod

theorem addClass (ho : h.Orderly Good) {c : Class} (hmethods : h.Names c.methods) :
    (h.addClass c).2.Orderly Good := by
  refine ⟨ho.functions, fun d name f hf => ?_⟩
  rw [classAt_addClass] at hf
  split at hf
  · exact hmethods name f hf
  · exact ho.methods d name f hf

end Heap.Orderly

/-- A method initializes if its name says so. -/
theorem Function.AllOrderly.closure {scope : ScopeId} {declared : Function} {fs : List Function}
    (h : Function.AllOrderly Good (declared :: fs)) :
    (Closure.mk declared scope declared.isNamedInitializer).Orderly Good := by
  refine ⟨Scoping.methodContext declared, ?_, ?_, h.head⟩
  · unfold Scoping.methodContext
    split <;> exact nofun
  · unfold Scoping.methodContext
    split
    · next hnamed => exact ⟨fun _ => rfl, fun _ => hnamed⟩
    · next hnamed => exact ⟨fun hinit => absurd hinit hnamed, fun hcontext => nomatch hcontext⟩

theorem Heap.Orderly.addMethods {scope : ScopeId} {methods : List Function} {h : Heap}
    (ho : h.Orderly Good) (hmethods : Function.AllOrderly Good methods) :
    (Machine.addMethods scope methods h).2.Orderly Good ∧
      (Machine.addMethods scope methods h).2.Names (Machine.addMethods scope methods h).1 := by
  refine ⟨?_, fun name f hf => ?_⟩
  · rw [Machine.addMethods_eq]
    generalize (∅ : Std.TreeMap String FunctionId) = table
    induction methods generalizing table h with
    | nil => exact ho
    | cons declared methods ih => exact ih (ho.addFunction hmethods.closure) hmethods.tail _
  · obtain ⟨hlt, declared, -, rfl, hat⟩ := addMethods_entry hf
    exact ⟨hlt, congrArg Closure.isInitializer hat⟩

namespace Machine

variable {target : Station} {st : State} {frames : List Frame}

theorem declareClass_orderly (ho : st.heap.Orderly Good) (t : Token) (superclass : Option ClassId)
    {methods : List Function} (hmethods : Function.AllOrderly Good methods) :
    (declareClass st t superclass methods).heap.Orderly Good := by
  have hclass (scope : ScopeId) (h : Heap) (hh : h.Orderly Good) :
      (h.addDeclared st.scope t.lexeme superclass scope methods).Orderly Good := by
    obtain ⟨hadded, hnames⟩ := hh.addMethods hmethods
    exact (hadded.addClass hnames).same rfl rfl
  rw [heap_declareClass]
  cases superclass with
  | none => exact hclass _ _ (ho.same rfl rfl)
  | some parent => exact hclass _ _ (ho.same rfl rfl)

theorem Accesses.orderly {m : Machine} {r : Completion × State} (h : m.Accesses r)
    (ho : m.state.heap.Orderly Good) : r.2.heap.Orderly Good := by
  cases h with
  | field v => exact ho
  | @method f o _ => exact ho.bindMethod f o
  | fault t _ => exact ho

/-! ### Expressions do not return -/

theorem statement_ne (d p : Option String) : Position.statement d ≠ .expression p :=
  fun h => nomatch h

theorem Accesses.ne_returned {m : Machine} {r : Completion × State} (h : m.Accesses r) (v : Value) :
    r.1 ≠ .returned v := by
  cases h <;> exact nofun

theorem ofResult_ne_returned (r : Except Failure Value) (v : Value) :
    Completion.ofResult r ≠ .returned v := by
  cases r <;> exact nofun

theorem bindParams_same (scope : ScopeId) : ∀ (params : List Token) (args : List Value) (h : Heap),
    (bindParams scope params args h).functions = h.functions ∧
      (bindParams scope params args h).classes = h.classes
  | [], _, _ => ⟨rfl, rfl⟩
  | _ :: _, [], _ => ⟨rfl, rfl⟩
  | p :: params, v :: args, h => bindParams_same scope params args (h.define scope p.lexeme v)

/-! ## Steps -/

section

variable {c : FunctionContext} (ho : st.heap.Orderly Good)

include ho

theorem normal_flows {station : Station} (hframes : Leads Good target station frames) (v : Value) :
    Machine.Flows Good target ⟨.complete (.normal v), frames, st⟩ :=
  ⟨ho, station, .normal v station, hframes⟩

theorem raised_flows {station : Station} (hframes : Leads Good target station frames) (f : Failure) :
    Machine.Flows Good target ⟨.complete (.raised f), frames, st⟩ :=
  ⟨ho, station, .raised f station, hframes⟩

/-- Values and failures may come from an expression at any station. -/
theorem result_flows {station : Station} (hframes : Leads Good target station frames)
    {c : Completion} (hc : ∀ v, c ≠ .returned v) :
    Machine.Flows Good target ⟨.complete c, frames, st⟩ := by
  cases c with
  | normal v => exact normal_flows ho hframes v
  | returned v => exact absurd rfl (hc v)
  | raised f => exact raised_flows ho hframes f

theorem eval_flows {p : Option String} {e : Expr} (he : e.Orderly Good p)
    (hframes : Leads Good target ⟨c, .expression p⟩ frames) :
    Machine.Flows Good target ⟨.eval e, frames, st⟩ :=
  ⟨ho, _, .eval he, hframes⟩

theorem exec_flows {s : Stmt} (hs : s.Orderly Good c) (hframes : Leads Good target
      ⟨c, .statement ((Scoping.declaredName? s).map Token.lexeme)⟩ frames) :
    Machine.Flows Good target ⟨.exec s, frames, st⟩ :=
  ⟨ho, _, .exec hs, hframes⟩

theorem branch_flows {s : Stmt} (hs : s.Branch Good c)
    (hframes : Leads Good target ⟨c, .statement none⟩ frames) :
    Machine.Flows Good target ⟨.exec s, frames, st⟩ := by
  refine exec_flows ho hs.2 ?_
  rw [hs.1]
  exact hframes

theorem enter_flows {p : Option String} (hframes : Leads Good target ⟨c, .expression p⟩ frames)
    {f : Closure} (hf : f.Orderly Good) (result : CallResult) (args : List Value) :
    (enter f result args frames st).Flows Good target := by
  obtain ⟨context, hcontext, -, hdeclared⟩ := hf
  have hinner : (st.heap.addInnerScope f.scope).2.Orderly Good := ho.same rfl rfl
  obtain ⟨hfunctions, hclasses⟩ := bindParams_same (st.heap.addInnerScope f.scope).1
    f.declared.params args (st.heap.addInnerScope f.scope).2
  have hbody : Leads Good target ⟨context, .statement none⟩
      (.sequence f.declared.body :: .activation st.scope result :: frames) :=
    (hframes.push (.activation st.scope result hcontext)).push (.sequence hdeclared.body)
  exact normal_flows (hinner.same hfunctions hclasses) hbody .nil

theorem construct_flows {p : Option String} (hframes : Leads Good target ⟨c, .expression p⟩ frames)
    (class_ : ClassId) (args : List Value) :
    (construct class_ args frames st).Flows Good target := by
  have hobject : (st.heap.addObject ⟨class_, ∅⟩).2.Orderly Good := ho.same rfl rfl
  unfold construct
  dsimp only
  split
  · next init hinit =>
    have hbound := hobject.bindMethod init ⟨st.heap.objects.size⟩
    exact enter_flows hbound hframes (hbound.functions _) _ args
  · exact normal_flows hobject hframes _

theorem call_flows {p : Option String} (hframes : Leads Good target ⟨c, .expression p⟩ frames)
    (callee : Value) (paren : Token) (args : List Value) :
    (call callee paren args frames st).Flows Good target := by
  unfold call
  split
  · exact raised_flows ho hframes _
  · split
    · exact raised_flows ho hframes _
    · split
      · exact raised_flows ho hframes _
      · unfold invoke
        split
        · split
          · exact ⟨ho, _, .normal _ _, hframes⟩
          · exact ⟨ho, _, .raised _ _, hframes⟩
        · exact enter_flows ho hframes (ho.functions _) _ args
        · exact construct_flows ho hframes _ args
        · exact raised_flows ho hframes _

theorem nextArgument_flows {p : Option String} (hframes : Leads Good target ⟨c, .expression p⟩ frames)
    (callee : Value) (paren : Token) (evaluated : List Value) {rest : List Expr}
    (hrest : Expr.AllOrderly Good p rest) :
    (nextArgument callee paren evaluated rest frames st).Flows Good target := by
  cases rest with
  | nil => exact call_flows ho hframes callee paren evaluated.reverse
  | cons e es =>
      obtain ⟨site, hpends, hfits⟩ := hrest
      have he : e.Orderly Good p := ⟨site, hpends, fun u hu => hfits u (List.mem_append_left _ hu)⟩
      have hes : Expr.AllOrderly Good p es :=
        ⟨site, hpends, fun u hu => hfits u (List.mem_append_right _ hu)⟩
      exact eval_flows ho he (hframes.push (.argument callee paren evaluated hes))

theorem evaluate_flows {p : Option String} {e : Expr} (he : e.Orderly Good p)
    (hframes : Leads Good target ⟨c, .expression p⟩ frames) :
    (evaluate e frames st).Flows Good target := by
  cases e with
  | literal value => cases value <;> exact normal_flows ho hframes _
  | unary operator operand =>
      exact eval_flows ho (he.of_uses (List.Subset.refl _)) (hframes.push (.unary operator))
  | binary left operator right =>
      have hright : right.Orderly Good _ := he.of_uses (List.subset_append_right _ _)
      exact eval_flows ho (he.of_uses (List.subset_append_left _ _))
        (hframes.push (.binaryLeft operator hright))
  | logical left operator right =>
      have hright : right.Orderly Good _ := he.of_uses (List.subset_append_right _ _)
      exact eval_flows ho (he.of_uses (List.subset_append_left _ _))
        (hframes.push (.logical operator hright))
  | grouping inner => exact eval_flows ho (he.of_uses (List.Subset.refl _)) hframes
  | ident use =>
      simp only [evaluate]
      split
      · exact normal_flows ho hframes _
      · exact raised_flows ho hframes _
  | this use =>
      simp only [evaluate]
      split
      · exact normal_flows ho hframes _
      · exact raised_flows ho hframes _
  | assign use value =>
      have huse : Use.Orderly Good p ⟨.assign, use⟩ := by
        obtain ⟨site, hpends, hfits⟩ := he
        exact ⟨site, hpends, hfits _ (List.mem_append_right _ (List.mem_singleton.mpr rfl))⟩
      exact eval_flows ho (he.of_uses (List.subset_append_left _ _)) (hframes.push (.assign huse))
  | call callee paren arguments =>
      have harguments : Expr.AllOrderly Good _ arguments :=
        he.all_of_uses (List.subset_append_right _ _)
      exact eval_flows ho (he.of_uses (List.subset_append_left _ _))
        (hframes.push (.callee paren harguments))
  | get object name =>
      exact eval_flows ho (he.of_uses (List.Subset.refl _)) (hframes.push (.get name))
  | set object name value =>
      have hvalue : value.Orderly Good _ := he.of_uses (List.subset_append_left _ _)
      exact eval_flows ho (he.of_uses (List.subset_append_right _ _))
        (hframes.push (.setObject name hvalue))
  | super use method =>
      have haccess := superMethod_accesses use method frames st
      exact result_flows (haccess.orderly ho) hframes haccess.ne_returned

theorem execute_flows {s : Stmt} (hs : s.Orderly Good c)
    (hframes : Leads Good target
      ⟨c, .statement ((Scoping.declaredName? s).map Token.lexeme)⟩ frames) :
    (execute s frames st).Flows Good target := by
  cases s with
  | expression e =>
      exact eval_flows ho (hs.expr fun _ => List.Subset.refl _) hframes.expression
  | print e => exact eval_flows ho (hs.expr fun _ => List.Subset.refl _) (hframes.push .print)
  | variableDecl name value =>
      cases value with
      | none => exact ⟨ho.same rfl rfl, _, .normal _ _, hframes⟩
      | some e =>
          -- its own name is the one that may not be ready
          obtain ⟨-, -, site, hproper, hfits, -⟩ := hs
          have he : e.Orderly Good (some name.lexeme) :=
            ⟨_, hproper.pends_declare name.lexeme,
              fun u hu => hfits (u, _) (List.mem_map_of_mem hu)⟩
          exact eval_flows ho he (hframes.push (.define name))
  | block body =>
      have hinner : (st.heap.addInnerScope st.scope).2.Orderly Good := ho.same rfl rfl
      have hbody : Leads Good target ⟨c, .statement none⟩
          (.sequence body :: .block st.scope :: frames) :=
        (hframes.push (.block st.scope)).push (.sequence hs.block)
      exact normal_flows hinner hbody .nil
  | conditional condition yes no =>
      obtain ⟨hcondition, hyes, hno⟩ := hs.branches
      exact eval_flows ho hcondition (hframes.push (.branch hyes hno))
  | loop condition body =>
      obtain ⟨hcondition, hbody⟩ := hs.loop
      exact eval_flows ho hcondition (hframes.push (.loopTest hcondition hbody))
  | functionDecl declared =>
      have hclosure : (Closure.mk declared st.scope false).Orderly Good :=
        ⟨.function, nofun, ⟨nofun, nofun⟩, hs.function⟩
      exact ⟨(ho.addFunction hclosure).same rfl rfl, _, .normal _ _, hframes⟩
  | giveBack keyword value =>
      obtain ⟨hcontext, hvalue⟩ := hs.returning
      cases value with
      | none => exact ⟨ho, _, .returned hcontext (fun _ => rfl) (statement_ne none), hframes⟩
      | some e =>
          have hinitializer : c ≠ .initializer := fun hc => nomatch hvalue hc
          exact eval_flows ho (hs.expr fun _ => List.Subset.refl _)
            (hframes.push (.giveBack hcontext hinitializer))
  | classDecl name superclass methods =>
      cases superclass with
      | none => exact normal_flows (declareClass_orderly ho name none hs.methods) hframes .nil
      | some use =>
          have huse : (Expr.ident use).Orderly Good none := hs.expr fun site u hu => by
            rw [List.mem_singleton.mp hu]
            exact List.mem_cons_self ..
          exact eval_flows ho huse (hframes.push (.superclass name use hs.methods))

theorem program_flows {rest : List Stmt} (hrest : Stmt.AllOrderly Good .none rest)
    (hframes : Leads Good target ⟨.none, .program⟩ frames) (v : Value) :
    (continueWith (.program rest) v frames st).Flows Good target := by
  cases rest with
  | nil =>
      simp only [continueWith]
      split
      · exact normal_flows ho hframes _
      · exact raised_flows ho hframes _
  | cons s rest => exact exec_flows ho hrest.head (hframes.push (.program hrest.tail))

theorem continueWith_flows {frame : Frame} {inner outer : Station}
    (hjoins : frame.Joins Good inner outer) (hframes : Leads Good target outer frames) (v : Value) :
    (continueWith frame v frames st).Flows Good target := by
  cases hjoins with
  | unary operator => exact result_flows ho hframes (ofResult_ne_returned _)
  | binaryLeft operator hright => exact eval_flows ho hright (hframes.push (.binaryRight v operator))
  | binaryRight left operator => exact result_flows ho hframes (ofResult_ne_returned _)
  | logical operator hright =>
      simp only [continueWith]
      split
      · exact normal_flows ho hframes v
      · exact eval_flows ho hright hframes
  | @assign _ _ use huse =>
      rcases continueWith_assign use v frames st with ⟨x, hassign⟩ | hassign
      · rw [hassign]
        exact ⟨ho.same rfl rfl, _, .normal _ _, hframes⟩
      · rw [hassign]
        exact raised_flows ho hframes _
  | callee paren harguments => exact nextArgument_flows ho hframes v paren [] harguments
  | argument callee paren evaluated hrest =>
      exact nextArgument_flows ho hframes callee paren (v :: evaluated) hrest
  | get name =>
      cases v with
      | object o =>
          have haccess := property_accesses o name frames st
          exact result_flows (haccess.orderly ho) hframes haccess.ne_returned
      | _ => exact raised_flows ho hframes _
  | setObject name hvalue =>
      cases v with
      | object o => exact eval_flows ho hvalue (hframes.push (.setValue o name))
      | _ => exact raised_flows ho hframes _
  | setValue o name =>
      exact ⟨ho.same rfl rfl, _, .normal _ _, hframes⟩
  | print =>
      simp only [continueWith]
      split
      · exact ⟨ho, _, .normal _ _, hframes⟩
      · exact ⟨ho, _, .raised _ _, hframes⟩
  | define name => exact ⟨ho.same rfl rfl, _, .normal _ _, hframes⟩
  | branch hyes hno =>
      simp only [continueWith]
      split
      · exact branch_flows ho hyes hframes
      · split
        · exact branch_flows ho (hno _ rfl) hframes
        · exact normal_flows ho hframes _
  | loopTest hcondition hbody =>
      simp only [continueWith]
      split
      · exact branch_flows ho hbody (hframes.push (.loopBody hcondition hbody))
      · exact normal_flows ho hframes _
  | loopBody hcondition hbody =>
      exact eval_flows ho hcondition (hframes.push (.loopTest hcondition hbody))
  | giveBack hcontext hinitializer =>
      -- any value will do, as initializers do not wait for one
      exact ⟨ho, _, .returned hcontext (fun hc => absurd hc hinitializer) (statement_ne none),
        hframes⟩
  | superclass name use hmethods =>
      cases v with
      | classObject parent =>
          exact normal_flows (declareClass_orderly ho name (some parent) hmethods) hframes .nil
      | _ => exact raised_flows ho hframes _
  | @sequence _ _ rest hrest =>
      cases rest with
      | nil => exact normal_flows ho hframes _
      | cons s rest => exact exec_flows ho hrest.head (hframes.push (.sequence hrest.tail))
  | block outer => exact ⟨ho, _, .normal _ _, hframes⟩
  | activation caller result hcontext => exact ⟨ho, _, .normal _ _, hframes⟩
  | program hrest => exact program_flows ho hrest hframes v

/-- A `return` comes by no frame that waits for an expression, and not by a program. -/
theorem returnFrom_flows {frame : Frame} {inner outer : Station}
    (hjoins : frame.Joins Good inner outer) (hframes : Leads Good target outer frames) {v : Value}
    (hcontext : inner.context ≠ .none) (hvalue : inner.context = .initializer → v = .nil)
    (hposition : ∀ p, inner.position ≠ .expression p) :
    (returnFrom frame v frames st).Flows Good target := by
  have hreturned (st' : State) (hheap : st'.heap = st.heap)
      (hsame : outer.context = inner.context) (houter : ∀ p, outer.position ≠ .expression p) :
      Machine.Flows Good target ⟨.complete (.returned v), frames, st'⟩ := by
    rw [← hsame] at hcontext hvalue
    exact ⟨hheap ▸ ho, outer, .returned hcontext hvalue houter, hframes⟩
  cases hjoins with
  | loopBody => exact hreturned st rfl rfl fun _ h => nomatch h
  | sequence => exact hreturned st rfl rfl fun _ h => nomatch h
  | block outer => exact hreturned { st with scope := outer } rfl rfl fun _ h => nomatch h
  | activation caller result => exact ⟨ho, _, .normal _ _, hframes⟩
  | program => exact absurd rfl hcontext
  | _ => exact absurd rfl (hposition _)

theorem raiseFrom_flows {frame : Frame} {inner outer : Station}
    (hjoins : frame.Joins Good inner outer) (hframes : Leads Good target outer frames) (f : Failure) :
    (raiseFrom frame f frames st).Flows Good target := by
  cases hjoins with
  | _ => exact ⟨ho, _, .raised _ _, hframes⟩

end

/-- **Every step keeps to the rules of its place.** -/
theorem Flows.step {m : Machine} (h : m.Flows Good target) : m.step.Flows Good target := by
  obtain ⟨control, frames, st⟩ := m
  obtain ⟨ho, station, hcontrol, hframes⟩ := h
  cases hcontrol with
  | eval he => exact evaluate_flows ho he hframes
  | exec hs => exact execute_flows ho hs hframes
  | normal v =>
      cases hframes with
      | nil hsuits => exact ⟨ho, _, .normal v _, .nil hsuits⟩
      | cons _ hjoins hrest => exact continueWith_flows ho hjoins hrest v
  | returned hcontext hvalue hposition =>
      cases hframes with
      | nil hsuits => exact ⟨ho, _, .returned hcontext hvalue hposition, .nil hsuits⟩
      | cons hsuits hjoins hrest =>
          obtain ⟨hsame, hat | ⟨hexpression, -⟩⟩ := hsuits
          · rw [hsame] at hcontext hvalue
            rw [hat] at hposition
            exact returnFrom_flows ho hjoins hrest hcontext hvalue hposition
          · exact absurd hexpression (hposition none)
  | raised f =>
      cases hframes with
      | nil hsuits => exact ⟨ho, _, .raised f _, .nil hsuits⟩
      | cons _ hjoins hrest => exact raiseFrom_flows ho hjoins hrest f

theorem Flows.run {m : Machine} (h : m.Flows Good target) (limit : Nat) :
    (m.run limit).Flows Good target :=
  run_invariant (P := Flows Good target) (fun _ => Flows.step) limit h

end Machine

end Lox
