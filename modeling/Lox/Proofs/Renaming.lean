import Lox.Program

/-!
# Other numbers and other lines

What a program does depends neither on the numbers that tell its references apart nor on the lines
that its tokens stand on, which only show in messages. A renaming gives other numbers and other
lines, and each stage of running a program is shown to commute with it.
-/

namespace Lox

/-- New numbers for references and new lines for tokens. -/
structure Renaming where
  ids : Nat → Nat
  lines : Nat → Nat

namespace Renaming

/-- Changes nothing. -/
def none : Renaming := ⟨id, id⟩

/-- Moves all numbers up. -/
def shift (offset : Nat) (lines : Nat → Nat) : Renaming := ⟨(· + offset), lines⟩

/-- Makes room for `offset` numbers from `start` on. -/
def shiftFrom (start offset : Nat) : Renaming :=
  ⟨fun i => if i < start then i else i + offset, id⟩

/-- Takes all numbers away. -/
def erasing : Renaming := ⟨fun _ => 0, id⟩

/-- Moves lines only. -/
def moving (lines : Nat → Nat) : Renaming := ⟨id, lines⟩

/-- One renaming after the other. -/
def andThen (r r' : Renaming) : Renaming := ⟨fun i => r'.ids (r.ids i), fun l => r'.lines (r.lines l)⟩

end Renaming

variable (r r' : Renaming)

def Token.renamed (t : Token) : Token := { t with line := r.lines t.line }

def Reference.renamed (use : Reference) : Reference := ⟨r.ids use.id, use.name.renamed r⟩

mutual

def Expr.renamed : Expr → Expr
  | .literal value => .literal value
  | .unary operator operand => .unary (operator.renamed r) (operand.renamed)
  | .binary left operator right => .binary left.renamed (operator.renamed r) right.renamed
  | .logical left operator right => .logical left.renamed (operator.renamed r) right.renamed
  | .grouping inner => .grouping inner.renamed
  | .ident use => .ident (use.renamed r)
  | .assign use value => .assign (use.renamed r) value.renamed
  | .call callee paren arguments =>
    .call callee.renamed (paren.renamed r) (Expr.renamedAll arguments)
  | .get object name => .get object.renamed (name.renamed r)
  | .set object name value => .set object.renamed (name.renamed r) value.renamed
  | .this use => .this (use.renamed r)
  | .super use method => .super (use.renamed r) (method.renamed r)

def Expr.renamedAll : List Expr → List Expr
  | [] => []
  | e :: es => e.renamed :: Expr.renamedAll es

end

mutual

def Stmt.renamed : Stmt → Stmt
  | .expression e => .expression (e.renamed r)
  | .print e => .print (e.renamed r)
  | .variableDecl name value => .variableDecl (name.renamed r) (value.map (Expr.renamed r))
  | .block body => .block (Stmt.renamedAll body)
  | .conditional condition yes none => .conditional (condition.renamed r) yes.renamed none
  | .conditional condition yes (some no) =>
    .conditional (condition.renamed r) yes.renamed (some no.renamed)
  | .loop condition body => .loop (condition.renamed r) body.renamed
  | .functionDecl declared => .functionDecl declared.renamed
  | .giveBack keyword value => .giveBack (keyword.renamed r) (value.map (Expr.renamed r))
  | .classDecl name superclass methods =>
    .classDecl (name.renamed r) (superclass.map (Reference.renamed r)) (Function.renamedAll methods)

def Stmt.renamedAll : List Stmt → List Stmt
  | [] => []
  | s :: ss => s.renamed :: Stmt.renamedAll ss

def Function.renamed : Function → Function
  | .mk name params body =>
    .mk (name.renamed r) (params.map (Token.renamed r)) (Stmt.renamedAll body)

def Function.renamedAll : List Function → List Function
  | [] => []
  | f :: fs => f.renamed :: Function.renamedAll fs

end

/-! ## What stays -/

@[simp] theorem Token.renamed_kind (t : Token) : (t.renamed r).kind = t.kind := rfl

@[simp] theorem Token.renamed_lexeme (t : Token) : (t.renamed r).lexeme = t.lexeme := rfl

@[simp] theorem Token.renamed_line (t : Token) : (t.renamed r).line = r.lines t.line := rfl

@[simp] theorem Reference.renamed_id (use : Reference) : (use.renamed r).id = r.ids use.id := rfl

@[simp] theorem Reference.renamed_name (use : Reference) :
    (use.renamed r).name = use.name.renamed r := rfl

theorem Expr.renamedAll_eq_map : ∀ es : List Expr, Expr.renamedAll r es = es.map (Expr.renamed r)
  | [] => rfl
  | e :: es => by rw [Expr.renamedAll, renamedAll_eq_map es, List.map_cons]

theorem Stmt.renamedAll_eq_map : ∀ ss : List Stmt, Stmt.renamedAll r ss = ss.map (Stmt.renamed r)
  | [] => rfl
  | s :: ss => by rw [Stmt.renamedAll, renamedAll_eq_map ss, List.map_cons]

theorem Function.renamedAll_eq_map : ∀ fs : List Function,
    Function.renamedAll r fs = fs.map (Function.renamed r)
  | [] => rfl
  | f :: fs => by rw [Function.renamedAll, renamedAll_eq_map fs, List.map_cons]

@[simp] theorem Function.renamed_name (f : Function) : (f.renamed r).name = f.name.renamed r := by
  cases f; rfl

@[simp] theorem Function.renamed_params (f : Function) :
    (f.renamed r).params = f.params.map (Token.renamed r) := by
  cases f; rfl

@[simp] theorem Function.renamed_body (f : Function) :
    (f.renamed r).body = f.body.map (Stmt.renamed r) := by
  cases f; exact Stmt.renamedAll_eq_map r _

@[simp] theorem Function.renamed_arity (f : Function) : (f.renamed r).arity = f.arity := by
  simp [Function.arity]

@[simp] theorem Function.renamed_isNamedInitializer (f : Function) :
    (f.renamed r).isNamedInitializer = f.isNamedInitializer := by
  simp [Function.isNamedInitializer]

theorem Stmt.renamed_conditional (condition : Expr) (yes : Stmt) (no : Option Stmt) :
    (Stmt.conditional condition yes no).renamed r
      = .conditional (condition.renamed r) (yes.renamed r) (no.map (Stmt.renamed r)) := by
  cases no <;> rfl

/-! ## One renaming after the other -/

mutual

theorem Expr.renamed_renamed : ∀ e : Expr,
    (e.renamed r).renamed r' = e.renamed (r.andThen r')
  | .literal _ => rfl
  | .unary _ operand => congrArg (Expr.unary _) operand.renamed_renamed
  | .binary left _ right => by
      rw [Expr.renamed, Expr.renamed, left.renamed_renamed, right.renamed_renamed]
      rfl
  | .logical left _ right => by
      rw [Expr.renamed, Expr.renamed, left.renamed_renamed, right.renamed_renamed]
      rfl
  | .grouping inner => congrArg Expr.grouping inner.renamed_renamed
  | .ident _ => rfl
  | .assign _ value => congrArg (Expr.assign _) value.renamed_renamed
  | .call callee _ arguments => by
      rw [Expr.renamed, Expr.renamed, callee.renamed_renamed,
        Expr.renamedAll_renamedAll arguments]
      rfl
  | .get object _ => congrArg (Expr.get · _) object.renamed_renamed
  | .set object _ value => by
      rw [Expr.renamed, Expr.renamed, object.renamed_renamed, value.renamed_renamed]
      rfl
  | .this _ => rfl
  | .super _ _ => rfl

theorem Expr.renamedAll_renamedAll : ∀ es : List Expr,
    Expr.renamedAll r' (Expr.renamedAll r es) = Expr.renamedAll (r.andThen r') es
  | [] => rfl
  | e :: es => by
      rw [Expr.renamedAll, Expr.renamedAll, e.renamed_renamed, Expr.renamedAll_renamedAll es]
      rfl

end

theorem Expr.map_renamed_renamed (value : Option Expr) :
    (value.map (Expr.renamed r)).map (Expr.renamed r') = value.map (Expr.renamed (r.andThen r')) := by
  cases value with
  | none => rfl
  | some e => exact congrArg some (e.renamed_renamed r r')

mutual

theorem Stmt.renamed_renamed : ∀ s : Stmt,
    (s.renamed r).renamed r' = s.renamed (r.andThen r')
  | .expression e => congrArg Stmt.expression (e.renamed_renamed r r')
  | .print e => congrArg Stmt.print (e.renamed_renamed r r')
  | .variableDecl _ value =>
      congrArg (Stmt.variableDecl _) (Expr.map_renamed_renamed r r' value)
  | .block body => congrArg Stmt.block (Stmt.renamedAll_renamedAll body)
  | .conditional condition yes none => by
      rw [Stmt.renamed, Stmt.renamed, Stmt.renamed, condition.renamed_renamed,
        yes.renamed_renamed]
  | .conditional condition yes (some no) => by
      rw [Stmt.renamed, Stmt.renamed, Stmt.renamed, condition.renamed_renamed,
        yes.renamed_renamed, no.renamed_renamed]
  | .loop condition body => by
      rw [Stmt.renamed, Stmt.renamed, Stmt.renamed, condition.renamed_renamed,
        body.renamed_renamed]
  | .functionDecl declared => congrArg Stmt.functionDecl declared.renamed_renamed
  | .giveBack _ value => congrArg (Stmt.giveBack _) (Expr.map_renamed_renamed r r' value)
  | .classDecl name superclass methods => by
      rw [Stmt.renamed, Stmt.renamed, Stmt.renamed, Function.renamedAll_renamedAll methods]
      cases superclass <;> rfl

theorem Stmt.renamedAll_renamedAll : ∀ ss : List Stmt,
    Stmt.renamedAll r' (Stmt.renamedAll r ss) = Stmt.renamedAll (r.andThen r') ss
  | [] => rfl
  | s :: ss => by
      rw [Stmt.renamedAll, Stmt.renamedAll, s.renamed_renamed, Stmt.renamedAll_renamedAll ss]
      rfl

theorem Function.renamed_renamed : ∀ f : Function,
    (f.renamed r).renamed r' = f.renamed (r.andThen r')
  | .mk name params body => by
      rw [Function.renamed, Function.renamed, Function.renamed, Stmt.renamedAll_renamedAll body,
        List.map_map]
      rfl

theorem Function.renamedAll_renamedAll : ∀ fs : List Function,
    Function.renamedAll r' (Function.renamedAll r fs) = Function.renamedAll (r.andThen r') fs
  | [] => rfl
  | f :: fs => by
      rw [Function.renamedAll, Function.renamedAll, f.renamed_renamed,
        Function.renamedAll_renamedAll fs]
      rfl

end

/-! ## The renaming that changes nothing -/

mutual

theorem Expr.renamed_none : ∀ e : Expr, e.renamed .none = e
  | .literal _ => rfl
  | .unary _ operand => congrArg (Expr.unary _) operand.renamed_none
  | .binary left _ right => by rw [Expr.renamed, left.renamed_none, right.renamed_none]; rfl
  | .logical left _ right => by rw [Expr.renamed, left.renamed_none, right.renamed_none]; rfl
  | .grouping inner => congrArg Expr.grouping inner.renamed_none
  | .ident _ => rfl
  | .assign _ value => congrArg (Expr.assign _) value.renamed_none
  | .call callee _ arguments => by
      rw [Expr.renamed, callee.renamed_none, Expr.renamedAll_none arguments]
      rfl
  | .get object _ => congrArg (Expr.get · _) object.renamed_none
  | .set object _ value => by rw [Expr.renamed, object.renamed_none, value.renamed_none]; rfl
  | .this _ => rfl
  | .super _ _ => rfl

theorem Expr.renamedAll_none : ∀ es : List Expr, Expr.renamedAll .none es = es
  | [] => rfl
  | e :: es => by rw [Expr.renamedAll, e.renamed_none, Expr.renamedAll_none es]

end

theorem Expr.map_renamed_none (value : Option Expr) : value.map (Expr.renamed .none) = value := by
  cases value with
  | none => rfl
  | some e => exact congrArg some e.renamed_none

mutual

theorem Stmt.renamed_none : ∀ s : Stmt, s.renamed .none = s
  | .expression e => congrArg Stmt.expression e.renamed_none
  | .print e => congrArg Stmt.print e.renamed_none
  | .variableDecl _ value => congrArg (Stmt.variableDecl _) (Expr.map_renamed_none value)
  | .block body => congrArg Stmt.block (Stmt.renamedAll_none body)
  | .conditional condition yes none => by
      rw [Stmt.renamed, condition.renamed_none, yes.renamed_none]
  | .conditional condition yes (some no) => by
      rw [Stmt.renamed, condition.renamed_none, yes.renamed_none, no.renamed_none]
  | .loop condition body => by rw [Stmt.renamed, condition.renamed_none, body.renamed_none]
  | .functionDecl declared => congrArg Stmt.functionDecl declared.renamed_none
  | .giveBack _ value => congrArg (Stmt.giveBack _) (Expr.map_renamed_none value)
  | .classDecl name superclass methods => by
      rw [Stmt.renamed, Function.renamedAll_none methods]
      cases superclass <;> rfl

theorem Stmt.renamedAll_none : ∀ ss : List Stmt, Stmt.renamedAll .none ss = ss
  | [] => rfl
  | s :: ss => by rw [Stmt.renamedAll, s.renamed_none, Stmt.renamedAll_none ss]

theorem Function.renamed_none : ∀ f : Function, f.renamed .none = f
  | .mk name params body => by
      rw [Function.renamed, Stmt.renamedAll_none body, show Token.renamed .none = id from rfl,
        List.map_id]
      rfl

theorem Function.renamedAll_none : ∀ fs : List Function, Function.renamedAll .none fs = fs
  | [] => rfl
  | f :: fs => by rw [Function.renamedAll, f.renamed_none, Function.renamedAll_none fs]

end

end Lox
