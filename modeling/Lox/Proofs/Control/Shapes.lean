import Lox.Proofs.Scopes.Worlds

/-!
# What stands where in a program

Two rules are about where statements may stand. Nothing is declared right under an `if` or a `while`:
the grammar has no such phrase. And a `return` stands in a function, and has no value in an
initializer: the static walk reports all others.
-/

namespace Lox

open Scoping (FunctionContext)

/-! ## Branches and returns -/

mutual

/-- No branch and no body of a loop declares anything. -/
def Stmt.Branching : Stmt → Prop
  | .block body => Stmt.AllBranching body
  | .conditional _ yes none => Scoping.declaredName? yes = none ∧ yes.Branching
  | .conditional _ yes (some no) =>
    (Scoping.declaredName? yes = none ∧ yes.Branching) ∧
      Scoping.declaredName? no = none ∧ no.Branching
  | .loop _ body => Scoping.declaredName? body = none ∧ body.Branching
  | .functionDecl declared => declared.Branching
  | .classDecl _ _ methods => Function.AllBranching methods
  | _ => True

def Stmt.AllBranching : List Stmt → Prop
  | [] => True
  | s :: ss => s.Branching ∧ Stmt.AllBranching ss

def Function.Branching : Function → Prop
  | .mk _ _ body => Stmt.AllBranching body

def Function.AllBranching : List Function → Prop
  | [] => True
  | f :: fs => f.Branching ∧ Function.AllBranching fs

end

mutual

/-- Every `return` stands in a function, and gives no value back from an initializer. -/
def Stmt.Returning (context : FunctionContext) : Stmt → Prop
  | .block body => Stmt.AllReturning context body
  | .conditional _ yes none => yes.Returning context
  | .conditional _ yes (some no) => yes.Returning context ∧ no.Returning context
  | .loop _ body => body.Returning context
  | .functionDecl declared => declared.Returning .function
  | .giveBack _ value => context ≠ .none ∧ (context = .initializer → value = none)
  | .classDecl _ _ methods => Function.AllReturning methods
  | _ => True

def Stmt.AllReturning (context : FunctionContext) : List Stmt → Prop
  | [] => True
  | s :: ss => s.Returning context ∧ Stmt.AllReturning context ss

def Function.Returning (context : FunctionContext) : Function → Prop
  | .mk _ _ body => Stmt.AllReturning context body

def Function.AllReturning : List Function → Prop
  | [] => True
  | f :: fs => f.Returning (Scoping.methodContext f) ∧ Function.AllReturning fs

end

/-! ## What the grammar derives -/

namespace Grammar

theorem Variable.branching {k k' : Nat} {ts : List Token} {s : Stmt} (h : Variable k ts s k') :
    s.Branching := by
  cases h with
  | mk => exact trivial

theorem ExpressionStatement.branching {k k' : Nat} {ts : List Token} {s : Stmt}
    (h : ExpressionStatement k ts s k') : Scoping.declaredName? s = none ∧ s.Branching := by
  cases h with
  | mk => exact ⟨rfl, trivial⟩

/-- The clauses of a counting loop stand in blocks of their own. -/
theorem countingLoop_branching {k k' : Nat} {ts : List Token} {start : Option Stmt}
    {condition increment : Option Expr} {body : Stmt} (hstart : Start k ts start k')
    (hbody : Scoping.declaredName? body = none ∧ body.Branching) :
    Scoping.declaredName? (countingLoop start condition increment body) = none ∧
      (countingLoop start condition increment body).Branching := by
  have hinner : Scoping.declaredName? (withIncrement body increment) = none ∧
      (withIncrement body increment).Branching := by
    cases increment with
    | none => exact hbody
    | some e => exact ⟨rfl, hbody.2, trivial, trivial⟩
  cases hstart with
  | absent => exact ⟨rfl, hinner⟩
  | varDecl h => exact ⟨rfl, h.branching, hinner, trivial⟩
  | expression h => exact ⟨rfl, h.branching.2, hinner, trivial⟩

mutual

theorem Statement.branching : ∀ {isOpen : Bool} {k k' : Nat} {ts : List Token} {s : Stmt},
    Statement isOpen k ts s k' → Scoping.declaredName? s = none ∧ s.Branching
  | _, _, _, _, _, .expression h => h.branching
  | _, _, _, _, _, .print _ _ _ => ⟨rfl, trivial⟩
  | _, _, _, _, _, .giveBack _ _ _ => ⟨rfl, trivial⟩
  | _, _, _, _, _, .block _ h _ => ⟨rfl, h.branching⟩
  | _, _, _, _, _, .ifThen _ _ _ _ h => ⟨rfl, h.branching⟩
  | _, _, _, _, _, .ifElse _ _ _ _ h _ h' => ⟨rfl, h.branching, h'.branching⟩
  | _, _, _, _, _, .whileLoop _ _ _ _ h => ⟨rfl, h.branching⟩
  | _, _, _, _, _, .forLoop _ _ hstart _ _ _ _ h => countingLoop_branching hstart h.branching

theorem Declaration.branching : ∀ {k k' : Nat} {ts : List Token} {s : Stmt},
    Declaration k ts s k' → s.Branching
  | _, _, _, _, .classDecl _ _ _ _ h _ => h.branching
  | _, _, _, _, .functionDecl _ h => h.branching
  | _, _, _, _, .varDecl h => h.branching
  | _, _, _, _, .statement h => h.branching.2

theorem Declarations.branching : ∀ {k k' : Nat} {ts : List Token} {ss : List Stmt},
    Declarations k ts ss k' → Stmt.AllBranching ss
  | _, _, _, _, .nil => trivial
  | _, _, _, _, .cons h h' => ⟨h.branching, h'.branching⟩

theorem Callable.branching : ∀ {k k' : Nat} {ts : List Token} {f : Function},
    Callable k ts f k' → f.Branching
  | _, _, _, _, .mk _ _ _ _ _ _ h _ => h.branching

theorem Callables.branching : ∀ {k k' : Nat} {ts : List Token} {fs : List Function},
    Callables k ts fs k' → Function.AllBranching fs
  | _, _, _, _, .nil => trivial
  | _, _, _, _, .cons h h' => ⟨h.branching, h'.branching⟩

end

end Grammar

/-! ## What the walk accepts -/

namespace Scoping

mutual

theorem ofStmt_returning : ∀ {context : Context} {scopes : Scopes} (s : Stmt),
    (ofStmt context scopes s).faults = [] → s.Returning context.function
  | _, _, .expression _, _ => trivial
  | _, _, .print _, _ => trivial
  | _, _, .variableDecl _ _, _ => trivial
  | _, _, .block body, h => ofStmts_returning body h
  | _, _, .conditional _ yes none, h => ofStmt_returning yes (faults_of_append h).2
  | _, _, .conditional _ yes (some no), h =>
      have h' := faults_of_append h
      ⟨ofStmt_returning yes (faults_of_append h'.1).2, ofStmt_returning no h'.2⟩
  | _, _, .loop _ body, h => ofStmt_returning body (faults_of_append h).2
  | _, _, .functionDecl declared, h => ofFunction_returning declared (faults_of_append h).2
  | context, _, .giveBack _ value, h => by
      have h' := faults_of_append (faults_of_append h).1
      have hplace := (Accepts.of_faultIf h'.1).1
      have hvalue := (Accepts.of_faultIf h'.2).1
      refine ⟨of_decide_eq_false hplace, fun hinitializer => ?_⟩
      cases value with
      | none => rfl
      | some e => simp [hinitializer] at hvalue
  | _, _, .classDecl _ _ methods, h => ofMethods_returning methods (faults_of_append h).2

theorem ofStmts_returning : ∀ {context : Context} {scopes : Scopes} (ss : List Stmt),
    (ofStmts context scopes ss).faults = [] → Stmt.AllReturning context.function ss
  | _, _, [], _ => trivial
  | _, _, s :: ss, h =>
      have h' := faults_of_append h
      ⟨ofStmt_returning s h'.1, ofStmts_returning ss h'.2⟩

theorem ofFunction_returning : ∀ {context : Context} {scopes : Scopes} (f : Function),
    (ofFunction context scopes f).faults = [] → f.Returning context.function
  | _, _, .mk _ _ body, h => ofStmts_returning body (faults_of_append h).2

theorem ofMethods_returning : ∀ {inClass : ClassContext} {scopes : Scopes} (fs : List Function),
    (ofMethods inClass scopes fs).faults = [] → Function.AllReturning fs
  | _, _, [], _ => trivial
  | _, _, f :: fs, h =>
      have h' := faults_of_append h
      ⟨ofFunction_returning f h'.1, ofMethods_returning fs h'.2⟩

end

end Scoping

/-! ## Names that are not ready -/

/-- No name but this one may be in the site and not be ready, and it belongs to the innermost region.
-/
def Site.Pends (site : Site) (pending : Option String) : Prop :=
  ∀ (i : Nat) entry name, site[i]? = some entry → entry.2.lookup name = some false →
    i = 0 ∧ pending = some name

theorem Proper.pends {site : Site} (h : Proper site) : site.Pends none := by
  intro i entry name hentry hlookup
  exact nomatch h.ready entry (List.mem_of_getElem? hentry) name false hlookup

theorem Proper.pends_declare {site : Site} (h : Proper site) (name : String) :
    (site.declare name).Pends (some name) := by
  intro i entry other hentry hlookup
  cases site with
  | nil => exact nomatch hentry
  | cons first outer =>
      obtain ⟨region, frame⟩ := first
      have hready : ∀ entry ∈ (region, frame) :: outer, entry.2.lookup other ≠ some false :=
        fun entry hentry hfalse => nomatch h.ready entry hentry other false hfalse
      cases i with
      | succ i =>
          have hmem : entry ∈ outer := List.mem_of_getElem? hentry
          exact absurd hlookup (hready entry (List.mem_cons_of_mem _ hmem))
      | zero =>
          cases hentry
          have hfirst := hready (region, frame) (List.mem_cons_self ..)
          dsimp only at hlookup hfirst
          split at hlookup
          · exact absurd hlookup hfirst
          · by_cases hother : other = name
            · exact ⟨rfl, congrArg some hother.symm⟩
            · rw [Scoping.lookup_cons_of_ne hother] at hlookup
              exact absurd hlookup hfirst

/-! ## Code in its place -/

section

variable (Good : Use → Site → Prop)

/-- The use is a good one, where at most this name is not ready. -/
def Use.Orderly (pending : Option String) (u : Use) : Prop :=
  ∃ site : Site, site.Pends pending ∧ Good u site

/-- The expression stands where at most this name is not ready. -/
def Expr.Orderly (pending : Option String) (e : Expr) : Prop :=
  ∃ site : Site, site.Pends pending ∧ e.Fits Good site

def Expr.AllOrderly (pending : Option String) (es : List Expr) : Prop :=
  ∃ site : Site, site.Pends pending ∧ Expr.AllFit Good site es

/-- The statement keeps to the rules of a place in a function of this kind. -/
structure Stmt.Orderly (context : FunctionContext) (s : Stmt) : Prop where
  branching : s.Branching
  returning : s.Returning context
  site : ∃ site : Site, Proper site ∧ s.Fits Good site

structure Stmt.AllOrderly (context : FunctionContext) (ss : List Stmt) : Prop where
  branching : Stmt.AllBranching ss
  returning : Stmt.AllReturning context ss
  site : ∃ site : Site, Proper site ∧ Stmt.AllFit Good site ss

/-- The body of the function keeps to the rules of such a function. -/
structure Function.Orderly (context : FunctionContext) (f : Function) : Prop where
  branching : f.Branching
  returning : f.Returning context
  site : ∃ site : Site, Enclosing site ∧ f.Fits Good site

/-- The methods keep to the rules of methods. -/
structure Function.AllOrderly (fs : List Function) : Prop where
  branching : Function.AllBranching fs
  returning : Function.AllReturning fs
  site : ∃ (site : Site) (superclass : Option Reference) (methods : List Function),
    Proper site ∧ Function.AllFit Good (site.inClass superclass methods) fs

end

end Lox
