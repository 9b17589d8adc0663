import Lox.Program.Scoping
import Lox.Proofs.Renaming

/-!
# Scopes under a renaming

Names and scopes have nothing to do with numbers and lines. So in a renamed program the same
addresses are found under the new numbers, and the same faults on the new lines.
-/

namespace Lox

variable (r : Renaming)

def Diagnostic.renamed (d : Diagnostic) : Diagnostic := { d with line := r.lines d.line }

namespace Scoping

def Findings.renamed (found : Findings) : Findings where
  addresses := found.addresses.map fun entry => (r.ids entry.1, entry.2)
  faults := found.faults.map (Diagnostic.renamed r)

namespace Findings

@[simp] theorem renamed_nothing : nothing.renamed r = nothing := rfl

@[simp] theorem renamed_append (a b : Findings) :
    (a ++ b).renamed r = a.renamed r ++ b.renamed r := by
  show Findings.mk _ _ = Findings.mk _ _
  rw [append_addresses, append_faults, List.map_append, List.map_append]
  rfl

@[simp] theorem renamed_fault (t : Token) (cause : ScopeFault) :
    (fault t cause).renamed r = fault (t.renamed r) cause := rfl

@[simp] theorem renamed_faultIf (condition : Bool) (t : Token) (cause : ScopeFault) :
    (faultIf condition t cause).renamed r = faultIf condition (t.renamed r) cause := by
  cases condition <;> rfl

end Findings

@[simp] theorem declaring_renamed (scopes : Scopes) (name : Token) :
    declaring scopes (name.renamed r) = (declaring scopes name).renamed r :=
  (Findings.renamed_faultIf r _ name _).symm

@[simp] theorem locating_renamed (scopes : Scopes) (use : Reference) :
    locating scopes (use.renamed r) = (locating scopes use).renamed r := by
  unfold locating
  rw [Reference.renamed_name, Token.renamed_lexeme]
  cases addressOf? scopes use.name.lexeme <;> rfl

@[simp] theorem reading_renamed (scopes : Scopes) (use : Reference) :
    reading scopes (use.renamed r) = (reading scopes use).renamed r := by
  rw [reading, reading, Findings.renamed_append, Findings.renamed_faultIf, locating_renamed]
  rfl

mutual

theorem ofExpr_renamed (context : ClassContext) (scopes : Scopes) : ∀ e : Expr,
    ofExpr context scopes (e.renamed r) = (ofExpr context scopes e).renamed r
  | .literal _ => rfl
  | .unary _ operand => ofExpr_renamed context scopes operand
  | .binary left _ right => by
      rw [Expr.renamed, ofExpr, ofExpr, ofExpr_renamed context scopes left,
        ofExpr_renamed context scopes right, Findings.renamed_append]
  | .logical left _ right => by
      rw [Expr.renamed, ofExpr, ofExpr, ofExpr_renamed context scopes left,
        ofExpr_renamed context scopes right, Findings.renamed_append]
  | .grouping inner => ofExpr_renamed context scopes inner
  | .ident use => reading_renamed r scopes use
  | .assign use value => by
      rw [Expr.renamed, ofExpr, ofExpr, ofExpr_renamed context scopes value, locating_renamed,
        Findings.renamed_append]
  | .call callee _ arguments => by
      rw [Expr.renamed, ofExpr, ofExpr, ofExpr_renamed context scopes callee,
        ofExprs_renamed context scopes arguments, Findings.renamed_append]
  | .get object _ => ofExpr_renamed context scopes object
  | .set object _ value => by
      rw [Expr.renamed, ofExpr, ofExpr, ofExpr_renamed context scopes object,
        ofExpr_renamed context scopes value, Findings.renamed_append]
  | .this use => by
      cases context with
      | none => rfl
      | withoutSuperclass => exact locating_renamed r scopes use
      | withSuperclass => exact locating_renamed r scopes use
  | .super use _ => by
      simp only [Expr.renamed, ofExpr, locating_renamed, Findings.renamed_append]
      cases context <;> rfl

theorem ofExprs_renamed (context : ClassContext) (scopes : Scopes) : ∀ es : List Expr,
    ofExprs context scopes (Expr.renamedAll r es) = (ofExprs context scopes es).renamed r
  | [] => rfl
  | e :: es => by
      rw [Expr.renamedAll, ofExprs, ofExprs, ofExpr_renamed context scopes e,
        ofExprs_renamed context scopes es, Findings.renamed_append]

end

@[simp] theorem ofExpr?_renamed (context : ClassContext) (scopes : Scopes) (value : Option Expr) :
    ofExpr? context scopes (value.map (Expr.renamed r))
      = (ofExpr? context scopes value).renamed r := by
  cases value with
  | none => rfl
  | some e => exact ofExpr_renamed r context scopes e

@[simp] theorem after_renamed (scopes : Scopes) (s : Stmt) :
    after scopes (s.renamed r) = after scopes s := by
  cases s with
  | functionDecl declared => cases declared; rfl
  | conditional condition yes no => cases no <;> rfl
  | _ => rfl

theorem enterParams_renamed : ∀ (frame : Frame) (ps : List Token),
    enterParams frame (ps.map (Token.renamed r))
      = ((enterParams frame ps).1, (enterParams frame ps).2.renamed r)
  | _, [] => rfl
  | frame, p :: ps => by
      simp only [List.map_cons, enterParams, Token.renamed_lexeme,
        enterParams_renamed ((p.lexeme, true) :: frame) ps, Findings.renamed_append,
        Findings.renamed_faultIf]

@[simp] theorem methodContext_renamed (f : Function) :
    methodContext (f.renamed r) = methodContext f := by
  rw [methodContext, Function.renamed_isNamedInitializer, methodContext]

@[simp] theorem methodScopes_renamed (scopes : Scopes) (superclass : Option Reference) :
    methodScopes scopes (superclass.map (Reference.renamed r)) = methodScopes scopes superclass := by
  cases superclass <;> rfl

@[simp] theorem ofSuperclass_renamed (scopes : Scopes) (name : Token)
    (superclass : Option Reference) :
    ofSuperclass scopes (name.renamed r) (superclass.map (Reference.renamed r))
      = (ofSuperclass scopes name superclass).renamed r := by
  cases superclass with
  | none => rfl
  | some use =>
      show _ ++ reading scopes (use.renamed r) = Findings.renamed r (_ ++ reading scopes use)
      rw [Findings.renamed_append, Findings.renamed_faultIf, reading_renamed]
      rfl

mutual

theorem ofStmt_renamed : ∀ (context : Context) (scopes : Scopes) (s : Stmt),
    ofStmt context scopes (s.renamed r) = (ofStmt context scopes s).renamed r
  | context, scopes, .expression e => ofExpr_renamed r context.inClass scopes e
  | context, scopes, .print e => ofExpr_renamed r context.inClass scopes e
  | context, scopes, .variableDecl name value => by
      simp only [Stmt.renamed, ofStmt, declaring_renamed, Token.renamed_lexeme, ofExpr?_renamed,
        Findings.renamed_append]
  | context, scopes, .block body => ofStmts_renamed context ([] :: scopes) body
  | context, scopes, .conditional condition yes none => by
      simp only [Stmt.renamed, ofStmt, ofExpr_renamed, ofStmt_renamed context scopes yes,
        Findings.renamed_append]
  | context, scopes, .conditional condition yes (some no) => by
      simp only [Stmt.renamed, ofStmt, ofExpr_renamed, ofStmt_renamed context scopes yes,
        ofStmt_renamed context scopes no, Findings.renamed_append]
  | context, scopes, .loop condition body => by
      simp only [Stmt.renamed, ofStmt, ofExpr_renamed, ofStmt_renamed context scopes body,
        Findings.renamed_append]
  | context, scopes, .functionDecl declared => by
      simp only [Stmt.renamed, ofStmt, Function.renamed_name, declaring_renamed,
        Token.renamed_lexeme, ofFunction_renamed _ _ declared, Findings.renamed_append]
  | context, scopes, .giveBack keyword value => by
      simp only [Stmt.renamed, ofStmt, ofExpr?_renamed, Findings.renamed_append,
        Findings.renamed_faultIf, Option.isSome_map]
  | context, scopes, .classDecl name superclass methods => by
      simp only [Stmt.renamed, ofStmt, declaring_renamed, Token.renamed_lexeme,
        ofSuperclass_renamed, methodScopes_renamed, Option.isSome_map,
        ofMethods_renamed _ _ methods, Findings.renamed_append]

theorem ofStmts_renamed : ∀ (context : Context) (scopes : Scopes) (ss : List Stmt),
    ofStmts context scopes (Stmt.renamedAll r ss) = (ofStmts context scopes ss).renamed r
  | _, _, [] => rfl
  | context, scopes, s :: ss => by
      rw [Stmt.renamedAll, ofStmts, ofStmts, ofStmt_renamed context scopes s, after_renamed,
        ofStmts_renamed context (after scopes s) ss, Findings.renamed_append]

theorem ofFunction_renamed : ∀ (context : Context) (scopes : Scopes) (f : Function),
    ofFunction context scopes (f.renamed r) = (ofFunction context scopes f).renamed r
  | context, scopes, .mk name params body => by
      rw [Function.renamed, ofFunction, ofFunction, enterParams_renamed,
        ofStmts_renamed context _ body, Findings.renamed_append]

theorem ofMethods_renamed : ∀ (inClass : ClassContext) (scopes : Scopes) (fs : List Function),
    ofMethods inClass scopes (Function.renamedAll r fs) = (ofMethods inClass scopes fs).renamed r
  | _, _, [] => rfl
  | inClass, scopes, f :: fs => by
      rw [Function.renamedAll, ofMethods, ofMethods, methodContext_renamed,
        ofFunction_renamed _ scopes f, ofMethods_renamed inClass scopes fs,
        Findings.renamed_append]

end

/-- What is found in a renamed program is what is found in the program, renamed. -/
theorem ofProgram_renamed (P : List Stmt) :
    ofProgram (P.map (Stmt.renamed r)) = (ofProgram P).renamed r := by
  rw [ofProgram, ← Stmt.renamedAll_eq_map, ofStmts_renamed]
  rfl

end Scoping

end Lox
