import Lox.Program.Scoping
import Lox.Proofs.Numbering

/-!
# Where names are used

Every use of a name stands in a row of regions of the program: blocks, functions, and what is around
the methods of classes. With each region go the names that it has declared before the use. The
static walk is about the names only, and gives every use the position of the first region that has
the name.
-/

namespace Lox

/-- The parts of a program that scopes are for. The scope of `this` is that of a single method, as
it is made when the method is bound to an object. -/
inductive Region where
  | top
  | block (body : List Stmt)
  | call (declared : Function)
  | receiver (method : Function)
  | parent (methods : List Function)

/-- What a use of a name does. -/
inductive Use.Kind where
  | read
  | assign
  | this
  | super
  deriving DecidableEq

structure Use where
  kind : Use.Kind
  reference : Reference

def Use.name (u : Use) : String := u.reference.name.lexeme

/-- The regions around a place in a program, innermost first, with the names that each has. -/
abbrev Site := List (Region × Scoping.Frame)

namespace Site

def scopes (site : Site) : Scoping.Scopes := site.map Prod.snd

def regions (site : Site) : List Region := site.map Prod.fst

/-- Enters a name that cannot be read yet. -/
def declare (site : Site) (name : String) : Site :=
  match site with
  | [] => []
  | (region, frame) :: outer =>
    (region, if frame.has name then frame else (name, false) :: frame) :: outer

/-- Makes a name of the innermost region ready to be read. -/
def define (site : Site) (name : String) : Site :=
  match site with
  | [] => []
  | (region, frame) :: outer => (region, (name, true) :: frame) :: outer

/-- The site after a statement. -/
def after (site : Site) (s : Stmt) : Site :=
  match Scoping.declaredName? s with
  | some name => site.define name.lexeme
  | none => site

def afterAll (site : Site) : List Stmt → Site
  | [] => site
  | s :: ss => (site.after s).afterAll ss

/-- The site of the body of a function. -/
def inFunction (site : Site) (f : Function) : Site :=
  (.call f, (Scoping.enterParams [] f.params).1) :: site

/-- The site around a method, as a function. -/
def inReceiver (site : Site) (method : Function) : Site :=
  (.receiver method, [("this", true)]) :: site

/-- The site around all methods of a class. -/
def inClass (site : Site) (superclass : Option Reference) (methods : List Function) : Site :=
  match superclass with
  | some _ => (.parent methods, [("super", true)]) :: site
  | none => site

theorem regions_declare (site : Site) (name : String) :
    (site.declare name).regions = site.regions := by
  cases site <;> rfl

theorem regions_define (site : Site) (name : String) :
    (site.define name).regions = site.regions := by
  cases site <;> rfl

theorem regions_after (site : Site) (s : Stmt) : (site.after s).regions = site.regions := by
  unfold after
  cases Scoping.declaredName? s with
  | none => rfl
  | some name => exact site.regions_define name.lexeme

theorem regions_afterAll : ∀ (site : Site) (ss : List Stmt),
    (site.afterAll ss).regions = site.regions
  | _, [] => rfl
  | site, s :: ss => by rw [afterAll, regions_afterAll (site.after s) ss, regions_after]

theorem scopes_declare (site : Site) (name : String) :
    (site.declare name).scopes = Scoping.declare site.scopes name := by
  cases site <;> rfl

theorem scopes_define (site : Site) (name : String) :
    (site.define name).scopes = Scoping.define site.scopes name := by
  cases site <;> rfl

theorem scopes_after (site : Site) (s : Stmt) :
    (site.after s).scopes = Scoping.after site.scopes s := by
  unfold after Scoping.after
  cases Scoping.declaredName? s with
  | none => rfl
  | some name => exact site.scopes_define name.lexeme

theorem scopes_inMethods (site : Site) (superclass : Option Reference) (methods : List Function)
    (method : Function) : ((site.inClass superclass methods).inReceiver method).scopes
      = Scoping.methodScopes site.scopes superclass := by
  cases superclass <;> rfl

end Site

/-! ## All uses -/

mutual

/-- All uses of names in an expression, which all stand at one site. -/
def Expr.uses : Expr → List Use
  | .literal _ => []
  | .unary _ operand => operand.uses
  | .binary left _ right => left.uses ++ right.uses
  | .logical left _ right => left.uses ++ right.uses
  | .grouping inner => inner.uses
  | .ident use => [⟨.read, use⟩]
  | .assign use value => value.uses ++ [⟨.assign, use⟩]
  | .call callee _ arguments => callee.uses ++ Expr.usesAll arguments
  | .get object _ => object.uses
  | .set object _ value => value.uses ++ object.uses
  | .this use => [⟨.this, use⟩]
  | .super use _ => [⟨.super, use⟩]

def Expr.usesAll : List Expr → List Use
  | [] => []
  | e :: es => e.uses ++ Expr.usesAll es

end

theorem Expr.usesAll_append : ∀ es es' : List Expr,
    Expr.usesAll (es ++ es') = Expr.usesAll es ++ Expr.usesAll es'
  | [], _ => rfl
  | e :: es, es' => by
      rw [List.cons_append, Expr.usesAll, usesAll_append es es', Expr.usesAll, List.append_assoc]

/-- The uses in an expression, with their site. -/
def Expr.usesAt (site : Site) (e : Expr) : List (Use × Site) := e.uses.map fun u => (u, site)

mutual

/-- All uses of names in a statement, each with its site. A superclass is named before the class is
there. -/
def Stmt.uses (site : Site) : Stmt → List (Use × Site)
  | .expression e => e.usesAt site
  | .print e => e.usesAt site
  | .variableDecl name value => value.elim [] (Expr.usesAt (site.declare name.lexeme))
  | .block body => Stmt.usesAll ((.block body, []) :: site) body
  | .conditional condition yes none => condition.usesAt site ++ Stmt.uses site yes
  | .conditional condition yes (some no) =>
    condition.usesAt site ++ (Stmt.uses site yes ++ Stmt.uses site no)
  | .loop condition body => condition.usesAt site ++ Stmt.uses site body
  | .functionDecl declared => Function.uses (site.define declared.name.lexeme) declared
  | .giveBack _ value => value.elim [] (Expr.usesAt site)
  | .classDecl name superclass methods =>
    superclass.toList.map (fun use => (⟨.read, use⟩, site))
      ++ Function.usesAll ((site.define name.lexeme).inClass superclass methods) methods

def Stmt.usesAll (site : Site) : List Stmt → List (Use × Site)
  | [] => []
  | s :: ss => Stmt.uses site s ++ Stmt.usesAll (site.after s) ss

/-- All uses of names in a function that is declared at a site. -/
def Function.uses (site : Site) : Function → List (Use × Site)
  | .mk name params body => Stmt.usesAll (site.inFunction (.mk name params body)) body

/-- All uses of names in the methods of a class. -/
def Function.usesAll (site : Site) : List Function → List (Use × Site)
  | [] => []
  | f :: fs => Function.uses (site.inReceiver f) f ++ Function.usesAll site fs

end

/-! ## Their references -/

mutual

theorem Expr.references_uses : ∀ e : Expr, e.uses.map Use.reference = e.references
  | .literal _ => rfl
  | .unary _ operand => operand.references_uses
  | .binary left _ right => by
      rw [Expr.uses, List.map_append, left.references_uses, right.references_uses, Expr.references]
  | .logical left _ right => by
      rw [Expr.uses, List.map_append, left.references_uses, right.references_uses, Expr.references]
  | .grouping inner => inner.references_uses
  | .ident _ => rfl
  | .assign _ value => by
      rw [Expr.uses, List.map_append, value.references_uses, Expr.references]
      rfl
  | .call callee _ arguments => by
      rw [Expr.uses, List.map_append, callee.references_uses, Expr.references_usesAll arguments,
        Expr.references]
  | .get object _ => object.references_uses
  | .set object _ value => by
      rw [Expr.uses, List.map_append, value.references_uses, object.references_uses,
        Expr.references]
  | .this _ => rfl
  | .super _ _ => rfl

theorem Expr.references_usesAll : ∀ es : List Expr,
    (Expr.usesAll es).map Use.reference = Expr.referencesAll es
  | [] => rfl
  | e :: es => by
      rw [Expr.usesAll, List.map_append, e.references_uses, Expr.references_usesAll es,
        Expr.referencesAll]

end

/-- The reference of a use at a site. -/
def Use.placedReference (p : Use × Site) : Reference := p.1.reference

theorem Expr.references_usesAt (site : Site) (e : Expr) :
    (e.usesAt site).map Use.placedReference = e.references := by
  rw [Expr.usesAt, List.map_map, ← e.references_uses]
  rfl

mutual

theorem Stmt.references_uses : ∀ (site : Site) (s : Stmt),
    (s.uses site).map Use.placedReference = s.references
  | site, .expression e => e.references_usesAt site
  | site, .print e => e.references_usesAt site
  | site, .variableDecl name value => by
      cases value with
      | none => rfl
      | some e => exact e.references_usesAt (site.declare name.lexeme)
  | site, .block body => Stmt.references_usesAll _ body
  | site, .conditional condition yes none => by
      rw [Stmt.uses, List.map_append, condition.references_usesAt, Stmt.references_uses site yes,
        Stmt.references]
  | site, .conditional condition yes (some no) => by
      rw [Stmt.uses, List.map_append, List.map_append, condition.references_usesAt,
        Stmt.references_uses site yes, Stmt.references_uses site no, Stmt.references]
  | site, .loop condition body => by
      rw [Stmt.uses, List.map_append, condition.references_usesAt, Stmt.references_uses site body,
        Stmt.references]
  | site, .functionDecl declared => Function.references_uses _ declared
  | site, .giveBack _ value => by
      cases value with
      | none => rfl
      | some e => exact e.references_usesAt site
  | site, .classDecl name superclass methods => by
      rw [Stmt.uses, List.map_append, Function.references_usesAll, Stmt.references]
      cases superclass <;> rfl

theorem Stmt.references_usesAll : ∀ (site : Site) (ss : List Stmt),
    (Stmt.usesAll site ss).map Use.placedReference = Stmt.referencesAll ss
  | _, [] => rfl
  | site, s :: ss => by
      rw [Stmt.usesAll, List.map_append, Stmt.references_uses site s,
        Stmt.references_usesAll (site.after s) ss, Stmt.referencesAll]

theorem Function.references_uses : ∀ (site : Site) (f : Function),
    (f.uses site).map Use.placedReference = f.references
  | _, .mk _ _ body => Stmt.references_usesAll _ body

theorem Function.references_usesAll : ∀ (site : Site) (fs : List Function),
    (Function.usesAll site fs).map Use.placedReference = Function.referencesAll fs
  | _, [] => rfl
  | site, f :: fs => by
      rw [Function.usesAll, List.map_append, Function.references_uses (site.inReceiver f) f,
        Function.references_usesAll site fs, Function.referencesAll]

end

/-! ## What the walk finds -/

theorem Scoping.lookup_cons_of_ne {frame : Frame} {name other : String} (h : other ≠ name) (b : Bool) :
    List.lookup other ((name, b) :: frame) = List.lookup other frame := by
  rw [List.lookup_cons, beq_false_of_ne h]

theorem Scoping.has_cons {frame : Frame} {name : String} (h : frame.has name) (other : String)
    (b : Bool) : Frame.has ((other, b) :: frame) name := by
  unfold Frame.has at h ⊢
  by_cases hname : name = other
  · rw [List.lookup_cons, hname, beq_self_eq_true]
    rfl
  · rwa [lookup_cons_of_ne hname]

/-- The entry of the table of addresses for a use, if there is one. -/
def Use.entry? (p : Use × Site) : Option (Nat × Nat) :=
  (Scoping.addressOf? p.2.scopes p.1.name).map fun distance => (p.1.reference.id, distance)

/-- The name can be read at the site. -/
def Site.Ready (site : Site) (name : String) : Prop :=
  ∀ entry ∈ site.head?, entry.2.lookup name ≠ some false

/-- Some region of the site has the name. -/
def Site.Has (site : Site) (name : String) : Prop := (Scoping.addressOf? site.scopes name).isSome

/-- What `this` and `super` stand for is there wherever they are used. -/
structure Use.Located (p : Use × Site) : Prop where
  this : p.1.kind = .this → p.2.Has "this"
  super : p.1.kind = .super → p.2.Has "super"

namespace Site

theorem has_cons_iff {site : Site} {entry : Region × Scoping.Frame} {name : String} :
    Site.Has (entry :: site) name ↔ entry.2.has name = true ∨ site.Has name := by
  unfold Has Scoping.addressOf?
  rw [List.findIdx?_isSome, List.findIdx?_isSome]
  exact Bool.or_eq_true_iff

/-- A name that some region has is still there further in. -/
theorem Has.cons {site : Site} {name : String} (h : site.Has name) (entry : Region × Scoping.Frame) :
    Site.Has (entry :: site) name :=
  has_cons_iff.mpr (.inr h)

/-- Another name does no harm. -/
theorem Has.define {site : Site} {name : String} (h : site.Has name) (other : String) :
    (site.define other).Has name := by
  cases site with
  | nil => exact h
  | cons entry outer =>
      rcases has_cons_iff.mp h with hframe | houter
      · exact has_cons_iff.mpr (.inl (Scoping.has_cons hframe other true))
      · exact has_cons_iff.mpr (.inr houter)

theorem Has.declare {site : Site} {name : String} (h : site.Has name) (other : String) :
    (site.declare other).Has name := by
  cases site with
  | nil => exact h
  | cons entry outer =>
      rcases has_cons_iff.mp h with hframe | houter
      · refine has_cons_iff.mpr (.inl ?_)
        dsimp only
        split
        · exact hframe
        · exact Scoping.has_cons hframe other false
      · exact has_cons_iff.mpr (.inr houter)

end Site

namespace Scoping

/-- What the context says about classes shows in the regions. -/
structure ClassContext.Suits (context : ClassContext) (site : Site) : Prop where
  this : context ≠ .none → site.Has "this"
  super : context = .withSuperclass → site.Has "super"

namespace ClassContext.Suits

variable {context : ClassContext} {site : Site}

theorem cons (h : context.Suits site) (entry : Region × Frame) : context.Suits (entry :: site) :=
  ⟨fun hc => (h.this hc).cons entry, fun hc => (h.super hc).cons entry⟩

theorem define (h : context.Suits site) (name : String) : context.Suits (site.define name) :=
  ⟨fun hc => (h.this hc).define name, fun hc => (h.super hc).define name⟩

theorem declare (h : context.Suits site) (name : String) : context.Suits (site.declare name) :=
  ⟨fun hc => (h.this hc).declare name, fun hc => (h.super hc).declare name⟩

theorem after (h : context.Suits site) (s : Stmt) : context.Suits (site.after s) := by
  unfold Site.after
  cases declaredName? s with
  | none => exact h
  | some name => exact h.define name.lexeme

/-- The context inside a class. -/
theorem inMethod (site : Site) (superclass : Option Reference) (methods : List Function)
    (method : Function) :
    (if superclass.isSome then ClassContext.withSuperclass else .withoutSuperclass).Suits
      ((site.inClass superclass methods).inReceiver method) := by
  cases superclass with
  | none => exact ⟨fun _ => rfl, fun h => nomatch h⟩
  | some use => exact ⟨fun _ => rfl, fun _ => rfl⟩

end ClassContext.Suits

/-- What a walk without faults has found out about the uses that it has come by. -/
structure Accepts (found : Findings) (uses : List (Use × Site)) : Prop where
  addresses : found.addresses = uses.filterMap Use.entry?
  ready : ∀ p ∈ uses, p.1.kind = .read → p.2.Ready p.1.name
  located : ∀ p ∈ uses, Use.Located p

namespace Accepts

variable {found found' : Findings} {uses uses' : List (Use × Site)}

theorem nothing : Accepts .nothing [] :=
  ⟨rfl, fun _ h => (nomatch h), fun _ h => nomatch h⟩

theorem append (h : Accepts found uses) (h' : Accepts found' uses') :
    Accepts (found ++ found') (uses ++ uses') where
  addresses := by
    rw [Findings.append_addresses, h.addresses, h'.addresses, List.filterMap_append]
  ready p hp := by
    rcases List.mem_append.mp hp with hp | hp
    · exact h.ready p hp
    · exact h'.ready p hp
  located p hp := by
    rcases List.mem_append.mp hp with hp | hp
    · exact h.located p hp
    · exact h'.located p hp

/-- A fault that was not found adds nothing. -/
theorem of_faultIf {condition : Bool} {t : Token} {cause : ScopeFault}
    (h : (Findings.faultIf condition t cause).faults = []) :
    condition = false ∧ Findings.faultIf condition t cause = .nothing := by
  cases condition with
  | true => exact nomatch h
  | false => exact ⟨rfl, rfl⟩

end Accepts

theorem nothing_append (found : Findings) : Findings.nothing ++ found = found := rfl

/-- Without faults in the whole there are none in the parts. -/
theorem faults_of_append {a b : Findings} (h : (a ++ b).faults = []) :
    a.faults = [] ∧ b.faults = [] := by
  rw [Findings.append_faults] at h
  exact List.append_eq_nil_iff.mp h

theorem locating_accepts {k : Use.Kind} (hk : k ≠ .read) {site : Site} {use : Reference}
    (hlocated : Use.Located (⟨k, use⟩, site)) :
    Accepts (locating site.scopes use) [(⟨k, use⟩, site)] where
  addresses := by
    unfold locating
    cases haddress : addressOf? site.scopes use.name.lexeme with
    | none => simp [Findings.nothing, Use.entry?, Use.name, haddress]
    | some distance => simp [Use.entry?, Use.name, haddress]
  ready p hp hread := by
    rw [List.mem_singleton.mp hp] at hread
    exact absurd hread hk
  located p hp := by
    rw [List.mem_singleton.mp hp]
    exact hlocated

/-- Names that stand for themselves are located wherever they are. -/
theorem assigning_accepts (site : Site) (use : Reference) :
    Accepts (locating site.scopes use) [(⟨.assign, use⟩, site)] :=
  locating_accepts (by decide) ⟨fun h => (nomatch h), fun h => nomatch h⟩

theorem reading_accepts {site : Site} {use : Reference}
    (h : (reading site.scopes use).faults = []) :
    Accepts (reading site.scopes use) [(⟨.read, use⟩, site)] := by
  unfold reading at h ⊢
  obtain ⟨hcondition, hnothing⟩ := Accepts.of_faultIf (faults_of_append h).1
  have hlocating := assigning_accepts site use
  rw [hnothing, nothing_append]
  refine ⟨hlocating.addresses, fun p hp _ entry hentry hlookup => ?_, fun p hp => ?_⟩
  · rw [List.mem_singleton.mp hp] at hentry hlookup
    cases site with
    | nil => exact nomatch hentry
    | cons first outer =>
        cases hentry
        simp only [Use.name] at hlookup
        simp [Site.scopes, hlookup] at hcondition
  · rw [List.mem_singleton.mp hp]
    exact ⟨fun h => (nomatch h), fun h => nomatch h⟩

mutual

theorem ofExpr_accepts {context : ClassContext} {site : Site} (hsuits : context.Suits site) :
    ∀ e : Expr, (ofExpr context site.scopes e).faults = [] →
      Accepts (ofExpr context site.scopes e) (e.usesAt site)
  | .literal _, _ => .nothing
  | .unary _ operand, h => ofExpr_accepts hsuits operand h
  | .binary left _ right, h => by
      have h' := faults_of_append h
      rw [Expr.usesAt, Expr.uses, List.map_append]
      exact (ofExpr_accepts hsuits left h'.1).append (ofExpr_accepts hsuits right h'.2)
  | .logical left _ right, h => by
      have h' := faults_of_append h
      rw [Expr.usesAt, Expr.uses, List.map_append]
      exact (ofExpr_accepts hsuits left h'.1).append (ofExpr_accepts hsuits right h'.2)
  | .grouping inner, h => ofExpr_accepts hsuits inner h
  | .ident _, h => reading_accepts h
  | .assign use value, h => by
      have h' := faults_of_append h
      rw [Expr.usesAt, Expr.uses, List.map_append]
      exact (ofExpr_accepts hsuits value h'.1).append (assigning_accepts site use)
  | .call callee _ arguments, h => by
      have h' := faults_of_append h
      rw [Expr.usesAt, Expr.uses, List.map_append]
      exact (ofExpr_accepts hsuits callee h'.1).append (ofExprs_accepts hsuits arguments h'.2)
  | .get object _, h => ofExpr_accepts hsuits object h
  | .set object _ value, h => by
      have h' := faults_of_append h
      rw [Expr.usesAt, Expr.uses, List.map_append]
      exact (ofExpr_accepts hsuits value h'.1).append (ofExpr_accepts hsuits object h'.2)
  | .this use, h => by
      have hthis : context ≠ .none → Use.Located (⟨.this, use⟩, site) :=
        fun hc => ⟨fun _ => hsuits.this hc, fun h => nomatch h⟩
      cases context with
      | none => exact nomatch h
      | withoutSuperclass => exact locating_accepts (by decide) (hthis (by decide))
      | withSuperclass => exact locating_accepts (by decide) (hthis (by decide))
  | .super use _, h => by
      cases context with
      | none => exact nomatch h
      | withoutSuperclass => exact nomatch h
      | withSuperclass =>
          exact locating_accepts (by decide) ⟨fun h => (nomatch h), fun _ => hsuits.super rfl⟩

theorem ofExprs_accepts {context : ClassContext} {site : Site} (hsuits : context.Suits site) :
    ∀ es : List Expr, (ofExprs context site.scopes es).faults = [] →
      Accepts (ofExprs context site.scopes es) ((Expr.usesAll es).map fun u => (u, site))
  | [], _ => .nothing
  | e :: es, h => by
      have h' := faults_of_append h
      rw [Expr.usesAll, List.map_append]
      exact (ofExpr_accepts hsuits e h'.1).append (ofExprs_accepts hsuits es h'.2)

end

theorem ofExpr?_accepts {context : ClassContext} {site : Site} (hsuits : context.Suits site)
    {value : Option Expr} (h : (ofExpr? context site.scopes value).faults = []) :
    Accepts (ofExpr? context site.scopes value) (value.elim [] (Expr.usesAt site)) := by
  cases value with
  | none => exact .nothing
  | some e => exact ofExpr_accepts hsuits e h

/-- A name of its own does not change what another name means. -/
theorem addressOf?_define {scopes : Scopes} {name other : String} (h : other ≠ name) :
    addressOf? (define scopes name) other = addressOf? scopes other := by
  cases scopes with
  | nil => rfl
  | cons frame outer =>
      have hhas : Frame.has ((name, true) :: frame) other = Frame.has frame other := by
        rw [Frame.has, lookup_cons_of_ne h, Frame.has]
      simp only [define, addressOf?, List.findIdx?_cons, hhas]

/-- A class is not its own superclass, so it makes no difference that its name is there already when
its superclass is looked up. -/
theorem ofSuperclass_accepts {site : Site} {name : Token} {superclass : Option Reference}
    (h : (ofSuperclass (site.define name.lexeme).scopes name superclass).faults = []) :
    Accepts (ofSuperclass (site.define name.lexeme).scopes name superclass)
      (superclass.toList.map fun use => (⟨.read, use⟩, site)) := by
  cases superclass with
  | none => exact .nothing
  | some use =>
      have h' := faults_of_append h
      obtain ⟨hcondition, hnothing⟩ := Accepts.of_faultIf h'.1
      have hne : use.name.lexeme ≠ name.lexeme := by simpa using hcondition
      have hreading := reading_accepts h'.2
      show Accepts (Findings.faultIf _ _ _ ++ reading _ use) _
      rw [hnothing, nothing_append]
      refine ⟨?_, fun p hp _ => ?_, fun p hp => ?_⟩
      · rw [hreading.addresses]
        simp only [Option.toList_some, List.map_cons, List.map_nil, List.filterMap_cons,
          Use.entry?, Use.name, Site.scopes_define, addressOf?_define hne]
      · rw [List.mem_singleton.mp hp]
        have hready := hreading.ready _ (List.mem_singleton_self _) rfl
        cases site with
        | nil => exact fun entry hentry => nomatch hentry
        | cons first outer =>
            rintro entry ⟨⟩
            have hlookup := hready _ rfl
            simp only [Use.name, lookup_cons_of_ne hne] at hlookup
            exact hlookup
      · rw [List.mem_singleton.mp hp]
        exact ⟨fun h => (nomatch h), fun h => nomatch h⟩

/-- Parameters without a fault are entered without a finding. -/
theorem enterParams_nothing : ∀ {frame : Frame} {ps : List Token},
    (enterParams frame ps).2.faults = [] → (enterParams frame ps).2 = .nothing
  | _, [], _ => rfl
  | frame, p :: ps, h => by
      have h' := faults_of_append h
      show Findings.faultIf _ _ _ ++ (enterParams ((p.lexeme, true) :: frame) ps).2 = _
      rw [(Accepts.of_faultIf h'.1).2, enterParams_nothing h'.2]
      rfl

mutual

theorem ofStmt_accepts : ∀ {context : Context} {site : Site} (s : Stmt),
    context.inClass.Suits site → (ofStmt context site.scopes s).faults = [] →
      Accepts (ofStmt context site.scopes s) (s.uses site)
  | _, _, .expression e, hsuits, h => ofExpr_accepts hsuits e h
  | _, _, .print e, hsuits, h => ofExpr_accepts hsuits e h
  | context, site, .variableDecl name value, hsuits, h => by
      rw [ofStmt, ← Site.scopes_declare] at h ⊢
      have h' := faults_of_append h
      rw [declaring, (Accepts.of_faultIf h'.1).2, nothing_append]
      exact ofExpr?_accepts (hsuits.declare name.lexeme) h'.2
  | context, site, .block body, hsuits, h => by
      have h' : (ofStmts context (Site.scopes ((.block body, []) :: site)) body).faults = [] := h
      exact ofStmts_accepts body (hsuits.cons _) h'
  | _, site, .conditional condition yes none, hsuits, h => by
      have h' := faults_of_append h
      exact (ofExpr_accepts hsuits condition h'.1).append (ofStmt_accepts yes hsuits h'.2)
  | _, site, .conditional condition yes (some no), hsuits, h => by
      have h' := faults_of_append h
      have h'' := faults_of_append h'.1
      rw [Stmt.uses, ← List.append_assoc]
      exact ((ofExpr_accepts hsuits condition h''.1).append (ofStmt_accepts yes hsuits h''.2)).append
        (ofStmt_accepts no hsuits h'.2)
  | _, site, .loop condition body, hsuits, h => by
      have h' := faults_of_append h
      exact (ofExpr_accepts hsuits condition h'.1).append (ofStmt_accepts body hsuits h'.2)
  | context, site, .functionDecl declared, hsuits, h => by
      rw [ofStmt, ← Site.scopes_define] at h ⊢
      have h' := faults_of_append h
      rw [declaring, (Accepts.of_faultIf h'.1).2, nothing_append]
      exact ofFunction_accepts declared (hsuits.define declared.name.lexeme) h'.2
  | context, site, .giveBack keyword value, hsuits, h => by
      have h' := faults_of_append h
      have h'' := faults_of_append h'.1
      rw [ofStmt, (Accepts.of_faultIf h''.1).2, (Accepts.of_faultIf h''.2).2, nothing_append,
        nothing_append]
      exact ofExpr?_accepts hsuits h'.2
  | context, site, .classDecl name superclass methods, _, h => by
      simp only [ofStmt, ← Site.scopes_define] at h ⊢
      have h' := faults_of_append h
      have h'' := faults_of_append h'.1
      rw [declaring, (Accepts.of_faultIf h''.1).2, nothing_append]
      exact (ofSuperclass_accepts h''.2).append (ofMethods_accepts methods methods h'.2)

theorem ofStmts_accepts : ∀ {context : Context} {site : Site} (ss : List Stmt),
    context.inClass.Suits site → (ofStmts context site.scopes ss).faults = [] →
      Accepts (ofStmts context site.scopes ss) (Stmt.usesAll site ss)
  | _, _, [], _, _ => .nothing
  | context, site, s :: ss, hsuits, h => by
      rw [ofStmts, ← Site.scopes_after] at h ⊢
      have h' := faults_of_append h
      exact (ofStmt_accepts s hsuits h'.1).append (ofStmts_accepts ss (hsuits.after s) h'.2)

theorem ofFunction_accepts : ∀ {context : Context} {site : Site} (f : Function),
    context.inClass.Suits site → (ofFunction context site.scopes f).faults = [] →
      Accepts (ofFunction context site.scopes f) (f.uses site)
  | context, site, .mk name params body, hsuits, h => by
      have h' := faults_of_append h
      have hparams : (enterParams [] params).2 = .nothing := enterParams_nothing h'.1
      have hbody : (ofStmts context (site.inFunction (.mk name params body)).scopes body).faults
          = [] := h'.2
      show Accepts ((enterParams [] params).2 ++ _) _
      rw [hparams, nothing_append]
      exact ofStmts_accepts body (hsuits.cons _) hbody

theorem ofMethods_accepts : ∀ {site : Site} {superclass : Option Reference}
    (all methods : List Function),
    let inClass := if superclass.isSome then ClassContext.withSuperclass else .withoutSuperclass
    (ofMethods inClass (methodScopes site.scopes superclass) methods).faults = [] →
      Accepts (ofMethods inClass (methodScopes site.scopes superclass) methods)
        (Function.usesAll (site.inClass superclass all) methods)
  | _, _, _, [], _ => .nothing
  | site, superclass, all, f :: fs, h => by
      have h' := faults_of_append h
      have hscopes := site.scopes_inMethods superclass all f
      have hfirst := h'.1
      rw [← hscopes] at hfirst
      have haccepts := ofFunction_accepts f (.inMethod site superclass all f) hfirst
      rw [hscopes] at haccepts
      exact haccepts.append (ofMethods_accepts all fs h'.2)

end

theorem ofProgram_accepts {P : List Stmt} (h : (ofProgram P).faults = []) :
    Accepts (ofProgram P) (Stmt.usesAll [] P) := by
  have hsuits : ClassContext.none.Suits [] :=
    ⟨fun hc => absurd rfl hc, fun hc => nomatch hc⟩
  have hstmts : (ofStmts ⟨.none, .none⟩ (Site.scopes []) P).faults = [] := h
  exact ofStmts_accepts P hsuits hstmts

end Scoping

end Lox
