import Mathlib.Data.List.Forall2
import Lox.Proofs.Occurrences

/-!
# What the walk finds

The walk over a program keeps rows of names and two contexts. These mirror the scopes that stand around a
place, read off the program: a row has the names that its scope declares before the place, and only the
variable whose initial value is computed can be there unready. From this it follows that the walk finds what
the occurrences of the program say, one after the other: an address for each use that some scope around it
declares, and a fault for each rule that is broken. A fault changes nothing about what is found after it.
-/

namespace Lox

/-! ## What an occurrence says -/

/-- A statement that declares a name adds it to its scope. -/
theorem Enclosure.names_begin {s : Stmt} {name : Token} {e : Enclosure}
    (hs : Scoping.declaredName? s = some name) :
    names { e with before := s :: e.before } = name.lexeme :: e.names := by
  rw [names, List.filterMap_cons_some hs]
  rfl

theorem Enclosure.names_pass {s : Stmt} {e : Enclosure} (hs : Scoping.declaredName? s = none) :
    names { e with before := s :: e.before } = e.names := by
  rw [names, List.filterMap_cons_none hs]
  rfl

namespace Surroundings

theorem function?_beginning (A : Surroundings) (s : Stmt) :
    (A.beginning s).function? = A.function? := by
  cases A <;> rfl

theorem inherits?_beginning (A : Surroundings) (s : Stmt) :
    (A.beginning s).inherits? = A.inherits? := by
  cases A <;> rfl

/-- The number of scopes to go outwards to the first that declares the name. -/
def addressOf? (A : Surroundings) (name : String) : Option Nat :=
  A.findIdx? fun e => decide (name ∈ e.names)

theorem addressOf?_eq_some_iff {A : Surroundings} {name : String} {distance : Nat} :
    A.addressOf? name = some distance ↔ A.DeclaresAt name distance := by
  rw [addressOf?, List.findIdx?_eq_some_iff_getElem]
  constructor
  · rintro ⟨hlt, hdeclares, hfirst⟩
    refine ⟨⟨A[distance], List.getElem?_eq_getElem hlt, of_decide_eq_true hdeclares⟩,
      fun i hi e he => ?_⟩
    obtain ⟨hi', rfl⟩ := List.getElem?_eq_some_iff.mp he
    simpa using hfirst i hi
  · rintro ⟨⟨e, he, hdeclares⟩, hfirst⟩
    obtain ⟨hlt, rfl⟩ := List.getElem?_eq_some_iff.mp he
    refine ⟨hlt, decide_eq_true hdeclares, fun i hi => ?_⟩
    simpa using hfirst i hi _ (List.getElem?_eq_getElem (Nat.lt_trans hi hlt))

theorem addressOf?_eq_none_iff {A : Surroundings} {name : String} :
    A.addressOf? name = none ↔ ∀ e ∈ A, name ∉ e.names := by
  simp [addressOf?, List.findIdx?_eq_none_iff]

end Surroundings

/-- The address of a use, with its number. The receiver has none outside of classes, whatever else is
called by that word. -/
def Occurrence.address? (o : Occurrence) : Option (Nat × Nat) :=
  match o.node with
  | .use ⟨.this, use⟩ =>
    match o.around.inherits? with
    | none => none
    | some _ => (o.around.addressOf? use.name.lexeme).map (use.id, ·)
  | .use u => (o.around.addressOf? u.name).map (u.reference.id, ·)
  | _ => none

namespace Scoping

/-- What occurrences say, one after the other. -/
def Findings.ofAll (os : List Occurrence) : Findings :=
  ⟨os.filterMap Occurrence.address?, os.filterMap Occurrence.diagnostic?⟩

theorem Findings.ofAll_append (os os' : List Occurrence) : ofAll (os ++ os') = ofAll os ++ ofAll os' := by
  rw [ofAll, List.filterMap_append, List.filterMap_append]
  rfl

theorem Findings.ofAll_cons (o : Occurrence) (os : List Occurrence) :
    ofAll (o :: os) = ofAll [o] ++ ofAll os := ofAll_append [o] os

theorem Findings.ofAll_singleton (o : Occurrence) :
    ofAll [o] = ⟨o.address?.toList, o.diagnostic?.toList⟩ := by
  rw [ofAll, List.filterMap_cons, List.filterMap_cons]
  cases o.address? <;> cases o.diagnostic? <;> rfl

/-! ## Rows of names -/

/-- The scope has the names that are declared before the place. -/
def Frame.Mirrors (frame : Frame) (e : Enclosure) : Prop :=
  ∀ name, frame.has name = decide (name ∈ e.names)

theorem Frame.has_cons (name other : String) (ready : Bool) (frame : Frame) :
    Frame.has ((other, ready) :: frame) name = (decide (name = other) || frame.has name) := by
  by_cases h : name = other
  · rw [has, List.lookup_cons, h, beq_self_eq_true, decide_eq_true rfl]
    rfl
  · rw [has, lookup_cons_of_ne h, decide_eq_false h]
    rfl

/-- A name is in the scope but cannot be read yet. -/
def Scopes.unready (scopes : Scopes) (name : String) : Bool :=
  scopes.head?.any (·.lookup name == some false)

theorem Scopes.unready_define (scopes : Scopes) (h : ∀ name, scopes.unready name = false)
    (other name : String) : Scopes.unready (define scopes other) name = false := by
  cases scopes with
  | nil => rfl
  | cons frame outer =>
      by_cases hname : name = other
      · simp [unready, define, hname]
      · have hlookup := h name
        simp only [unready, define, List.head?_cons, Option.any_some, lookup_cons_of_ne hname]
          at hlookup ⊢
        exact hlookup

/-- A name is unready once it has been entered, unless the scope had it before. -/
theorem Scopes.unready_declare {scopes : Scopes} (h : ∀ name, scopes.unready name = false)
    (other name : String) : Scopes.unready (declare scopes other) name
      = (scopes.head?.any (fun frame => !frame.has other) && other == name) := by
  cases scopes with
  | nil => rfl
  | cons frame outer =>
      have hlookup := h name
      simp only [unready, declare, List.head?_cons, Option.any_some] at hlookup ⊢
      cases hhas : frame.has other with
      | true => simpa using hlookup
      | false =>
          by_cases hname : name = other
          · simp [hname]
          · have hname' : (other == name) = false := beq_false_of_ne (Ne.symm hname)
            simpa [lookup_cons_of_ne hname, hname'] using hlookup

namespace Frame.Mirrors

variable {frame : Frame} {e : Enclosure} {s : Stmt} {name : Token}

theorem declaring (h : frame.Mirrors e) (hs : declaredName? s = some name) (ready : Bool) :
    Frame.Mirrors ((name.lexeme, ready) :: frame) { e with before := s :: e.before } := by
  intro other
  rw [has_cons, h other, Enclosure.names_begin hs]
  simp

theorem passing (h : frame.Mirrors e) (hs : declaredName? s = none) :
    frame.Mirrors { e with before := s :: e.before } := by
  intro other
  rw [h other, Enclosure.names_pass hs]

/-- A name that is declared once more makes no difference. -/
theorem again (h : frame.Mirrors e) (hs : declaredName? s = some name)
    (hhas : frame.has name.lexeme = true) : frame.Mirrors { e with before := s :: e.before } := by
  intro other
  rw [h, decide_eq_true_iff] at hhas
  rw [h other, Enclosure.names_begin hs, decide_eq_decide, List.mem_cons]
  exact ⟨Or.inr, fun hother => hother.elim (fun heq => heq ▸ hhas) id⟩

end Frame.Mirrors

/-! ## Contexts -/

/-- The context that a function makes. -/
def FunctionContext.of : Option (Function × Bool) → FunctionContext
  | .none => .none
  | .some (_, false) => .function
  | .some (f, true) => methodContext f

/-- The context that a class makes. -/
def ClassContext.of : Option Bool → ClassContext
  | .none => .none
  | .some false => .withoutSuperclass
  | .some true => .withSuperclass

/-- What the walk keeps mirrors what stands around the place, and only the variable that is being
initialized is unready. -/
structure Mirrors (context : Context) (scopes : Scopes) (A : Surroundings)
    (pending : Option Pending) : Prop where
  rows : List.Forall₂ Frame.Mirrors scopes A
  unready : ∀ name, scopes.unready name
    = pending.any fun p => p.isFresh && p.name.lexeme == name
  function : context.function = .of A.function?
  inClass : context.inClass = .of A.inherits?

namespace Mirrors

variable {context : Context} {scopes : Scopes} {A : Surroundings} {pending : Option Pending}

theorem topLevel : Mirrors ⟨.none, .none⟩ [] [] none :=
  ⟨.nil, fun _ => rfl, rfl, rfl⟩

theorem head_has (h : Mirrors context scopes A pending) (name : String) :
    scopes.head?.any (·.has name) = decide (name ∈ A.names) := by
  cases h.rows with
  | nil => rfl
  | cons hrow _ => exact hrow name

theorem addressOf? (h : Mirrors context scopes A pending) (name : String) :
    Scoping.addressOf? scopes name = A.addressOf? name := by
  have hrows := h.rows
  clear h
  induction hrows with
  | nil => rfl
  | cons hrow _ ih =>
      rw [Scoping.addressOf?, Surroundings.addressOf?] at ih ⊢
      rw [List.findIdx?_cons, List.findIdx?_cons, hrow name, ih]

theorem head_not_has (h : Mirrors context scopes A pending) (name : String) :
    scopes.head?.any (fun frame => !frame.has name) = (!A.isEmpty && !A.names.contains name) := by
  cases h.rows with
  | nil => rfl
  | cons hrow _ =>
      rw [List.contains_eq_mem, List.head?_cons, Option.any_some, hrow name]
      rfl

/-- After a statement the scope has the name that it declares. -/
theorem after (h : Mirrors context scopes A none) (s : Stmt) :
    Mirrors context (Scoping.after scopes s) (A.beginning s) none where
  rows := by
    cases h.rows with
    | nil => cases hs : declaredName? s <;> simp [Scoping.after, hs, define, Surroundings.beginning]
    | cons hrow hrows =>
        cases hs : declaredName? s with
        | none =>
            rw [Scoping.after, hs]
            exact .cons (hrow.passing hs) hrows
        | some name =>
            rw [Scoping.after, hs]
            exact .cons (hrow.declaring hs true) hrows
  unready name := by
    rw [Scoping.after]
    cases declaredName? s with
    | none => exact h.unready name
    | some declared => exact Scopes.unready_define _ h.unready declared.lexeme name
  function := h.function.trans (congrArg _ (A.function?_beginning s).symm)
  inClass := h.inClass.trans (congrArg _ (A.inherits?_beginning s).symm)

/-- While the initial value of a variable is computed, only the variable can be unready. -/
theorem initializing (h : Mirrors context scopes A none) (name : Token) (value : Option Expr) :
    Mirrors context (Scoping.declare scopes name.lexeme) (A.beginning (.variableDecl name value))
      (some ⟨name, A⟩) where
  rows := by
    cases h.rows with
    | nil => exact .nil
    | @cons frame _ _ _ hrow hrows =>
        refine .cons ?_ hrows
        cases hhas : frame.has name.lexeme with
        | true => simpa only [if_true] using hrow.again rfl hhas
        | false => exact hrow.declaring rfl false
  unready other := by
    rw [Scopes.unready_declare h.unready, h.head_not_has]
    rfl
  function := h.function.trans (congrArg _ (A.function?_beginning _).symm)
  inClass := h.inClass.trans (congrArg _ (A.inherits?_beginning _).symm)

theorem inBlock (h : Mirrors context scopes A pending) :
    Mirrors context ([] :: scopes) A.inBlock none where
  rows := .cons (fun _ => rfl) h.rows
  unready _ := rfl
  function := h.function
  inClass := h.inClass

/-- The contexts in the body of a function, whose scope has some names of parameters. -/
theorem inFunction (h : Mirrors context scopes A none) (f : Function) (isMethod : Bool)
    {params : List Token} {frame : Frame}
    (hrow : frame.Mirrors ⟨.function f isMethod params, []⟩)
    (hready : ∀ name, Scopes.unready [frame] name = false) :
    Mirrors ⟨.of (some (f, isMethod)), context.inClass⟩ (frame :: scopes)
      (A.inFunction f isMethod params) none where
  rows := .cons hrow h.rows
  unready name := hready name
  function := rfl
  inClass := h.inClass

/-- The contexts around the methods of a class. -/
theorem inMethods (h : Mirrors context scopes A none) (superclass : Option Reference) :
    Mirrors ⟨context.function, if superclass.isSome then .withSuperclass else .withoutSuperclass⟩
      (methodScopes scopes superclass) (A.inClass superclass) none := by
  have hword : ∀ (word : String) (kind : Enclosure.Kind), kind.names = [word] →
      Frame.Mirrors [(word, true)] ⟨kind, []⟩ := by
    intro word kind hnames name
    rw [Frame.has_cons, Enclosure.names, hnames]
    simp [Frame.has]
  have hready : ∀ name, Scopes.unready [[("this", true)]] name = false :=
    fun name => Scopes.unready_define [[]] (fun _ => rfl) "this" name
  cases superclass with
  | none => exact ⟨.cons (hword _ _ rfl) h.rows, hready, h.function, rfl⟩
  | some use => exact ⟨.cons (hword _ _ rfl) (.cons (hword _ _ rfl) h.rows), hready, h.function, rfl⟩

end Mirrors

/-! ## What is found is what the occurrences say -/

theorem Findings.faultIf_eq {condition : Bool} {t : Token} {cause : ScopeFault} {o : Occurrence}
    (haddress : o.address? = none)
    (hbreach : o.breach? = if condition then some (t, cause) else none) :
    faultIf condition t cause = ofAll [o] := by
  rw [ofAll_singleton, haddress, Occurrence.diagnostic?, hbreach]
  cases condition <;> rfl

namespace Mirrors

variable {context : Context} {scopes : Scopes} {A : Surroundings} {pending : Option Pending}

theorem declaring (h : Mirrors context scopes A pending) (name : Token) :
    Scoping.declaring scopes name = .ofAll [⟨.declaration name, A, none⟩] := by
  refine Findings.faultIf_eq rfl ?_
  rw [h.head_has, Occurrence.breach?]
  simp only [decide_eq_true_eq]

theorem locating (h : Mirrors context scopes A pending) (use : Reference) :
    Scoping.locating scopes use
      = ⟨((A.addressOf? use.name.lexeme).map (use.id, ·)).toList, []⟩ := by
  rw [Scoping.locating, h.addressOf?]
  cases A.addressOf? use.name.lexeme <;> rfl

/-- A use that breaks no rule is located. -/
theorem assigning (h : Mirrors context scopes A pending) (use : Reference) :
    Scoping.locating scopes use = .ofAll [⟨.use ⟨.assign, use⟩, A, pending⟩] := by
  rw [h.locating, Findings.ofAll_singleton]
  rfl

theorem reading (h : Mirrors context scopes A pending) (use : Reference) :
    Scoping.reading scopes use = .ofAll [⟨.use ⟨.read, use⟩, A, pending⟩] := by
  rw [Scoping.reading, h.locating, ← Scopes.unready, h.unready, Findings.ofAll_singleton,
    Occurrence.diagnostic?, Occurrence.breach?]
  dsimp only
  cases pending.any fun p => p.isFresh && p.name.lexeme == use.name.lexeme <;> rfl

/-- The receiver outside of a class is at fault, and has no address. -/
theorem receiving (h : Mirrors context scopes A pending) (use : Reference) :
    ofExpr context.inClass scopes (.this use) = .ofAll [⟨.use ⟨.this, use⟩, A, pending⟩] := by
  rw [h.inClass, Findings.ofAll_singleton, Occurrence.address?, Occurrence.diagnostic?,
    Occurrence.breach?]
  dsimp only
  cases A.inherits? with
  | none => rfl
  | some inherits => cases inherits <;> exact h.locating use

/-- A superclass is located even where there is none. -/
theorem overriding (h : Mirrors context scopes A pending) (use : Reference) (method : Token) :
    ofExpr context.inClass scopes (.super use method)
      = .ofAll [⟨.use ⟨.super, use⟩, A, pending⟩] := by
  rw [h.inClass, Findings.ofAll_singleton, Occurrence.address?, Occurrence.diagnostic?,
    Occurrence.breach?]
  dsimp only
  cases A.inherits? with
  | none =>
      show Findings.fault _ _ ++ Scoping.locating scopes use = _
      rw [h.locating]
      rfl
  | some inherits =>
      cases inherits with
      | false =>
          show Findings.fault _ _ ++ Scoping.locating scopes use = _
          rw [h.locating]
          rfl
      | true => exact h.locating use

end Mirrors

theorem Findings.ofAll_uses_append (A : Surroundings) (pending : Option Pending) (us us' : List Use) :
    ofAll ((us ++ us').map fun u => ⟨.use u, A, pending⟩)
      = ofAll (us.map fun u => ⟨.use u, A, pending⟩)
        ++ ofAll (us'.map fun u => ⟨.use u, A, pending⟩) := by
  rw [List.map_append, ofAll_append]

section Expressions

variable {context : Context} {scopes : Scopes} {A : Surroundings} {pending : Option Pending}

mutual

theorem ofExpr_eq (h : Mirrors context scopes A pending) :
    ∀ e : Expr, ofExpr context.inClass scopes e = .ofAll (e.occurrences A pending)
  | .literal _ => rfl
  | .unary _ operand => ofExpr_eq h operand
  | .binary left _ right => by
      rw [ofExpr, ofExpr_eq h left, ofExpr_eq h right]
      exact (Findings.ofAll_uses_append A pending left.uses right.uses).symm
  | .logical left _ right => by
      rw [ofExpr, ofExpr_eq h left, ofExpr_eq h right]
      exact (Findings.ofAll_uses_append A pending left.uses right.uses).symm
  | .grouping inner => ofExpr_eq h inner
  | .ident use => h.reading use
  | .assign use value => by
      rw [ofExpr, ofExpr_eq h value, h.assigning use]
      exact (Findings.ofAll_uses_append A pending value.uses [⟨.assign, use⟩]).symm
  | .call callee _ arguments => by
      rw [ofExpr, ofExpr_eq h callee, ofExprs_eq h arguments]
      exact (Findings.ofAll_uses_append A pending callee.uses (Expr.usesAll arguments)).symm
  | .get object _ => ofExpr_eq h object
  | .set object _ value => by
      rw [ofExpr, ofExpr_eq h value, ofExpr_eq h object]
      exact (Findings.ofAll_uses_append A pending value.uses object.uses).symm
  | .this use => h.receiving use
  | .super use method => h.overriding use method

theorem ofExprs_eq (h : Mirrors context scopes A pending) :
    ∀ es : List Expr, ofExprs context.inClass scopes es
      = .ofAll ((Expr.usesAll es).map fun u => ⟨.use u, A, pending⟩)
  | [] => rfl
  | e :: es => by
      rw [ofExprs, ofExpr_eq h e, ofExprs_eq h es]
      exact (Findings.ofAll_uses_append A pending e.uses (Expr.usesAll es)).symm

end

theorem ofExpr?_eq (h : Mirrors context scopes A pending) (value : Option Expr) :
    ofExpr? context.inClass scopes value
      = .ofAll (value.elim [] (Expr.occurrences A pending)) := by
  cases value with
  | none => rfl
  | some e => exact ofExpr_eq h e

end Expressions

/-- Parameters are entered one by one, each after those before it. -/
theorem enterParams_eq (A : Surroundings) (f : Function) (isMethod : Bool) :
    ∀ {frame : Frame} {before : List Token} (ps : List Token),
      frame.Mirrors ⟨.function f isMethod before, []⟩ →
      (∀ name, Scopes.unready [frame] name = false) →
      (enterParams frame ps).2 = .ofAll (Function.paramOccurrences A f isMethod before ps) ∧
        (enterParams frame ps).1.Mirrors ⟨.function f isMethod (before ++ ps), []⟩ ∧
        ∀ name, Scopes.unready [(enterParams frame ps).1] name = false
  | frame, before, [], hrow, hready => ⟨rfl, (List.append_nil before).symm ▸ hrow, hready⟩
  | frame, before, p :: ps, hrow, hready => by
      have hfault : Findings.faultIf (frame.has p.lexeme) p .alreadyDeclared
          = .ofAll [⟨.declaration p, A.inFunction f isMethod before, none⟩] := by
        refine Findings.faultIf_eq rfl ?_
        rw [hrow]
        simp only [decide_eq_true_eq]
        rfl
      have hrow' : Frame.Mirrors ((p.lexeme, true) :: frame)
          ⟨.function f isMethod (before ++ [p]), []⟩ := by
        intro name
        rw [Frame.has_cons, hrow]
        simp [Enclosure.names, Enclosure.Kind.names, Bool.or_comm]
      have hready' := Scopes.unready_define [frame] hready p.lexeme
      obtain ⟨hfindings, hrest⟩ := enterParams_eq A f isMethod ps hrow' hready'
      rw [List.append_assoc] at hrest
      refine ⟨?_, hrest⟩
      show Findings.faultIf _ p .alreadyDeclared ++ (enterParams ((p.lexeme, true) :: frame) ps).2 = _
      rw [hfault, hfindings, ← Findings.ofAll_append]
      rfl

theorem ofSuperclass_eq {context : Context} {scopes : Scopes} {A : Surroundings}
    (h : Mirrors context scopes A none) (name : Token) (superclass : Option Reference) :
    ofSuperclass scopes name superclass = .ofAll (Stmt.superclassOccurrences A name superclass) := by
  cases superclass with
  | none => rfl
  | some use =>
      have hfault : Findings.faultIf (use.name.lexeme == name.lexeme) use.name .inheritsFromItself
          = .ofAll [⟨.superclass name use, A, none⟩] := by
        refine Findings.faultIf_eq rfl ?_
        simp only [beq_iff_eq]
        rfl
      rw [ofSuperclass, hfault, h.reading use, ← Findings.ofAll_append]
      rfl

theorem giveBack_eq {context : Context} {scopes : Scopes} {A : Surroundings}
    (h : Mirrors context scopes A none) (keyword : Token) (hasValue : Bool) :
    Findings.faultIf (context.function = .none) keyword .returnAtTopLevel
        ++ .faultIf (hasValue && context.function = .initializer) keyword .returnValueFromInitializer
      = .ofAll [⟨.giveBack keyword hasValue, A, none⟩] := by
  rw [h.function, Findings.ofAll_singleton, Occurrence.address?, Occurrence.diagnostic?,
    Occurrence.breach?]
  dsimp only
  cases A.function? with
  | none => cases hasValue <;> rfl
  | some around =>
      obtain ⟨f, isMethod⟩ := around
      cases isMethod with
      | false => cases hasValue <;> rfl
      | true =>
          rcases Bool.eq_false_or_eq_true f.isNamedInitializer with hinit | hinit <;>
            simp only [FunctionContext.of, methodContext, hinit] <;> cases hasValue <;> rfl

mutual

theorem ofStmt_eq : ∀ {context : Context} {scopes : Scopes} {A : Surroundings} (s : Stmt),
    Mirrors context scopes A none → ofStmt context scopes s = .ofAll (s.occurrences A)
  | _, _, _, .expression e, h => ofExpr_eq h e
  | _, _, _, .print e, h => ofExpr_eq h e
  | _, _, _, .variableDecl name value, h => by
      rw [ofStmt, h.declaring name, ofExpr?_eq (h.initializing name value) value,
        ← Findings.ofAll_append]
      rfl
  | _, _, _, .block body, h => ofStmts_eq body h.inBlock
  | _, _, _, .conditional condition yes none, h => by
      rw [ofStmt, ofExpr_eq h condition, ofStmt_eq yes h, ← Findings.ofAll_append]
      rfl
  | _, _, _, .conditional condition yes (some no), h => by
      rw [ofStmt, ofExpr_eq h condition, ofStmt_eq yes h, ofStmt_eq no h, ← Findings.ofAll_append,
        ← Findings.ofAll_append, List.append_assoc]
      rfl
  | _, _, _, .loop condition body, h => by
      rw [ofStmt, ofExpr_eq h condition, ofStmt_eq body h, ← Findings.ofAll_append]
      rfl
  | _, _, _, .functionDecl declared, h => by
      rw [ofStmt, h.declaring declared.name]
      have hbody := ofFunction_eq declared false (h.after (.functionDecl declared))
      rw [Scoping.after, declaredName?] at hbody
      exact (congrArg _ hbody).trans (Findings.ofAll_cons _ _).symm
  | _, _, _, .giveBack keyword value, h => by
      rw [ofStmt, giveBack_eq h, ofExpr?_eq h value, ← Findings.ofAll_append]
      rfl
  | context, scopes, A, .classDecl name superclass methods, h => by
      have hinner := h.after (.classDecl name superclass methods)
      rw [Scoping.after, declaredName?] at hinner
      have hmethods := ofMethods_eq methods (hinner.inMethods superclass)
      rw [ofStmt]
      dsimp only at hmethods ⊢
      rw [h.declaring name, ofSuperclass_eq hinner, hmethods, ← Findings.ofAll_append,
        ← Findings.ofAll_append, List.append_assoc]
      rfl

theorem ofStmts_eq : ∀ {context : Context} {scopes : Scopes} {A : Surroundings} (ss : List Stmt),
    Mirrors context scopes A none → ofStmts context scopes ss = .ofAll (Stmt.occurrencesAll A ss)
  | _, _, _, [], _ => rfl
  | _, _, _, s :: ss, h => by
      rw [ofStmts, ofStmt_eq s h, ofStmts_eq ss (h.after s), ← Findings.ofAll_append]
      rfl

theorem ofFunction_eq : ∀ {context : Context} {scopes : Scopes} {A : Surroundings} (f : Function)
    (isMethod : Bool), Mirrors context scopes A none →
      ofFunction ⟨.of (some (f, isMethod)), context.inClass⟩ scopes f
        = .ofAll (f.occurrences A isMethod)
  | _, _, A, .mk name params body, isMethod, h => by
      have hnone : Frame.Mirrors [] ⟨.function (.mk name params body) isMethod [], []⟩ := fun _ => rfl
      obtain ⟨hfindings, hrow, hready⟩ := enterParams_eq A _ isMethod params hnone fun _ => rfl
      have hbody := h.inFunction (.mk name params body) isMethod hrow hready
      rw [ofFunction, hfindings, ofStmts_eq body hbody, ← Findings.ofAll_append]
      rfl

theorem ofMethods_eq : ∀ {context : Context} {scopes : Scopes} {A : Surroundings}
    (fs : List Function), Mirrors context scopes A none →
      ofMethods context.inClass scopes fs = .ofAll (Function.occurrencesAll A fs)
  | _, _, _, [], _ => rfl
  | _, _, _, f :: fs, h => by
      have hfirst := ofFunction_eq f true h
      rw [FunctionContext.of] at hfirst
      rw [ofMethods, hfirst, ofMethods_eq fs h, ← Findings.ofAll_append]
      rfl

end

theorem ofProgram_eq (P : List Stmt) : ofProgram P = .ofAll (programOccurrences P) :=
  ofStmts_eq P .topLevel

end Scoping

/-- **The walk rejects exactly the programs that break a rule on scopes, and it tells of each rule broken
at its token, in the order in which they are come by.** -/
theorem Scoping.faults_are_breaches (P : List Stmt) :
    (ofProgram P).faults = (programOccurrences P).filterMap Occurrence.diagnostic? ∧
      ((ofProgram P).faults = [] ↔ ∀ o ∈ programOccurrences P, o.breach? = none) := by
  rw [ofProgram_eq]
  refine ⟨rfl, ?_⟩
  rw [Findings.ofAll, List.filterMap_eq_nil_iff]
  simp only [Occurrence.diagnostic?, Option.map_eq_none_iff]

end Lox
