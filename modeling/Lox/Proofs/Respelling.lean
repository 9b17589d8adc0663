import Lox.Machine
import Lox.Proofs.Scopes.Names

/-!
# Other names for local variables

The names of a scope can be spelled in another way, as long as different names stay different. A
respelled program spells every scope in a way of its own: a declaration is spelled as its scope is,
and a use as the scope is that its address leads to. The top level is spelled as before, and so are
`this` and `super`, and functions and classes, whose names show when they are printed.
-/

namespace Lox

/-- Another way to spell names. -/
structure Respelling where
  spell : String → String
  injective : ∀ m n, spell m = spell n → m = n
  this : spell "this" = "this"
  super : spell "super" = "super"

namespace Respelling

/-- Spells all names as before. -/
def same : Respelling := ⟨id, fun _ _ h => h, rfl, rfl⟩

@[simp] theorem same_spell (name : String) : same.spell name = name := rfl

/-- The names `a` and `b`, each in the place of the other. -/
def swap (a b name : String) : String :=
  if name = a then b else if name = b then a else name

@[simp] theorem swap_left (a b : String) : swap a b a = b := if_pos rfl

theorem swap_of_ne {a b name : String} (ha : name ≠ a) (hb : name ≠ b) : swap a b name = name := by
  rw [swap, if_neg ha, if_neg hb]

theorem swap_right (a b : String) : swap a b b = a := by
  unfold swap
  split
  · next h => exact h
  · rw [if_pos rfl]

/-- Names that are swapped twice are as before. -/
theorem swap_swap (a b name : String) : swap a b (swap a b name) = name := by
  by_cases ha : name = a
  · rw [ha, swap_left, swap_right]
  · by_cases hb : name = b
    · rw [hb, swap_right, swap_left]
    · rw [swap_of_ne ha hb, swap_of_ne ha hb]

theorem swap_plain {a b name : String} (ha : Plain a) (hb : Plain b) (h : ¬ Plain name) :
    swap a b name = name :=
  swap_of_ne (fun heq => h (heq ▸ ha)) (fun heq => h (heq ▸ hb))

/-- Two plain names are exchanged. -/
def exchange {a b : String} (ha : Plain a) (hb : Plain b) : Respelling where
  spell := swap a b
  injective m n h := by rw [← swap_swap a b m, h, swap_swap]
  this := swap_plain ha hb fun h => h.1 rfl
  super := swap_plain ha hb fun h => h.2 rfl

/-- How the scope is spelled that an address leads to. The scopes around are spelled in these ways,
innermost first, and the top level as before. -/
def reached (spellings : List Respelling) : Option Nat → Respelling
  | some distance => (spellings[distance]?).getD same
  | none => same

/-- How the innermost scope is spelled. -/
def nearest (spellings : List Respelling) : Respelling := reached spellings (some 0)

@[simp] theorem nearest_nil : nearest [] = same := rfl

@[simp] theorem nearest_cons (ρ : Respelling) (spellings : List Respelling) :
    nearest (ρ :: spellings) = ρ := rfl

theorem reached_cons (ρ : Respelling) (spellings : List Respelling) (address : Option Nat) :
    reached (ρ :: spellings) (address.map (· + 1)) = reached spellings address := by
  cases address <;> rfl

/-- Nothing is spelled in another way. -/
def AllSame (spellings : List Respelling) : Prop := ∀ ρ ∈ spellings, ρ = same

theorem AllSame.cons {spellings : List Respelling} (h : AllSame spellings) :
    AllSame (same :: spellings) :=
  List.forall_mem_cons.mpr ⟨rfl, h⟩

theorem AllSame.reached {spellings : List Respelling} (h : AllSame spellings)
    (address : Option Nat) : reached spellings address = same := by
  cases address with
  | none => rfl
  | some distance =>
      show (spellings[distance]?).getD same = same
      cases hat : spellings[distance]? with
      | none => rfl
      | some ρ => exact h ρ (List.mem_of_getElem? hat)

theorem AllSame.nearest {spellings : List Respelling} (h : AllSame spellings) :
    nearest spellings = same :=
  h.reached (some 0)

end Respelling

open Respelling (nearest reached same)

/-! ## Expressions -/

def Token.respelled (ρ : Respelling) (t : Token) : Token := { t with lexeme := ρ.spell t.lexeme }

@[simp] theorem Token.respelled_same (t : Token) : t.respelled same = t := rfl

theorem Token.respelled_of_eq {ρ : Respelling} {t : Token} (h : ρ.spell t.lexeme = t.lexeme) :
    t.respelled ρ = t := by
  rw [respelled, h]

mutual

/-- Replaces the references of an expression. -/
def Expr.mapUses (f : Reference → Reference) : Expr → Expr
  | .literal value => .literal value
  | .unary operator operand => .unary operator (operand.mapUses f)
  | .binary left operator right => .binary (left.mapUses f) operator (right.mapUses f)
  | .logical left operator right => .logical (left.mapUses f) operator (right.mapUses f)
  | .grouping inner => .grouping (inner.mapUses f)
  | .ident use => .ident (f use)
  | .assign use value => .assign (f use) (value.mapUses f)
  | .call callee paren arguments => .call (callee.mapUses f) paren (Expr.mapUsesAll f arguments)
  | .get object name => .get (object.mapUses f) name
  | .set object name value => .set (object.mapUses f) name (value.mapUses f)
  | .this use => .this (f use)
  | .super use method => .super (f use) method

def Expr.mapUsesAll (f : Reference → Reference) : List Expr → List Expr
  | [] => []
  | e :: es => e.mapUses f :: Expr.mapUsesAll f es

end

theorem Expr.mapUsesAll_eq_map (f : Reference → Reference) : ∀ es : List Expr,
    Expr.mapUsesAll f es = es.map (Expr.mapUses f) := by
  intro es
  induction es with
  | nil => rfl
  | cons e es ih => rw [Expr.mapUsesAll, ih, List.map_cons]

section

variable {f g : Reference → Reference}

mutual

/-- Only what happens to the references of the expression matters. -/
theorem Expr.mapUses_congr : ∀ e : Expr, (∀ use ∈ e.references, f use = g use) →
    e.mapUses f = e.mapUses g
  | .literal _, _ => rfl
  | .unary operator operand, h => congrArg (Expr.unary operator) (operand.mapUses_congr h)
  | .binary left operator right, h => by
      have h' := List.forall_mem_append.mp h
      rw [Expr.mapUses, Expr.mapUses, left.mapUses_congr h'.1, right.mapUses_congr h'.2]
  | .logical left operator right, h => by
      have h' := List.forall_mem_append.mp h
      rw [Expr.mapUses, Expr.mapUses, left.mapUses_congr h'.1, right.mapUses_congr h'.2]
  | .grouping inner, h => congrArg Expr.grouping (inner.mapUses_congr h)
  | .ident use, h => congrArg Expr.ident (h use (List.mem_singleton_self use))
  | .assign use value, h => by
      have h' := List.forall_mem_append.mp h
      rw [Expr.mapUses, Expr.mapUses, value.mapUses_congr h'.1,
        h'.2 use (List.mem_singleton_self use)]
  | .call callee paren arguments, h => by
      have h' := List.forall_mem_append.mp h
      rw [Expr.mapUses, Expr.mapUses, callee.mapUses_congr h'.1,
        Expr.mapUsesAll_congr arguments h'.2]
  | .get object name, h => congrArg (Expr.get · name) (object.mapUses_congr h)
  | .set object name value, h => by
      have h' := List.forall_mem_append.mp h
      rw [Expr.mapUses, Expr.mapUses, value.mapUses_congr h'.1, object.mapUses_congr h'.2]
  | .this use, h => congrArg Expr.this (h use (List.mem_singleton_self use))
  | .super use method, h => congrArg (Expr.super · method) (h use (List.mem_singleton_self use))

theorem Expr.mapUsesAll_congr : ∀ es : List Expr, (∀ use ∈ Expr.referencesAll es, f use = g use) →
    Expr.mapUsesAll f es = Expr.mapUsesAll g es
  | [], _ => rfl
  | e :: es, h => by
      have h' := List.forall_mem_append.mp h
      rw [Expr.mapUsesAll, Expr.mapUsesAll, e.mapUses_congr h'.1, Expr.mapUsesAll_congr es h'.2]

end

end

mutual

theorem Expr.mapUses_id : ∀ e : Expr, e.mapUses id = e
  | .literal _ => rfl
  | .unary operator operand => congrArg (Expr.unary operator) operand.mapUses_id
  | .binary left operator right => by rw [Expr.mapUses, left.mapUses_id, right.mapUses_id]
  | .logical left operator right => by rw [Expr.mapUses, left.mapUses_id, right.mapUses_id]
  | .grouping inner => congrArg Expr.grouping inner.mapUses_id
  | .ident _ => rfl
  | .assign use value => congrArg (Expr.assign use) value.mapUses_id
  | .call callee paren arguments => by
      rw [Expr.mapUses, callee.mapUses_id, Expr.mapUsesAll_id arguments]
  | .get object name => congrArg (Expr.get · name) object.mapUses_id
  | .set object name value => by rw [Expr.mapUses, object.mapUses_id, value.mapUses_id]
  | .this _ => rfl
  | .super _ _ => rfl

theorem Expr.mapUsesAll_id : ∀ es : List Expr, Expr.mapUsesAll id es = es
  | [] => rfl
  | e :: es => by rw [Expr.mapUsesAll, e.mapUses_id, Expr.mapUsesAll_id es]

end

section

variable (A : Addresses)

/-- A use is spelled as the scope is that its address leads to. -/
def Reference.respelled (spellings : List Respelling) (use : Reference) : Reference :=
  { use with name := use.name.respelled (reached spellings A[use.id]?) }

def Expr.respelled (spellings : List Respelling) (e : Expr) : Expr :=
  e.mapUses (Reference.respelled A spellings)

/-! ## Statements -/

variable (Ways : Respelling → Prop)

mutual

/-- The second statement is the first one, respelled in scopes that are spelled in these ways. Each
scope inside the statement is spelled in one of the ways that there are. -/
inductive Stmt.Respells : List Respelling → Stmt → Stmt → Prop where
  | expression {E : List Respelling} (e : Expr) :
      Stmt.Respells E (.expression e) (.expression (e.respelled A E))
  | print {E : List Respelling} (e : Expr) :
      Stmt.Respells E (.print e) (.print (e.respelled A E))
  | variableDecl {E : List Respelling} (name : Token) (value : Option Expr) :
      Stmt.Respells E (.variableDecl name value)
        (.variableDecl (name.respelled (nearest E)) (value.map (Expr.respelled A E)))
  | block {E : List Respelling} {ρ : Respelling} {body body' : List Stmt} :
      Ways ρ → Stmt.AllRespell (ρ :: E) body body' → Stmt.Respells E (.block body) (.block body')
  | ifThen {E : List Respelling} (condition : Expr) {yes yes' : Stmt} :
      Stmt.Respells E yes yes' →
      Stmt.Respells E (.conditional condition yes none)
        (.conditional (condition.respelled A E) yes' none)
  | ifElse {E : List Respelling} (condition : Expr) {yes yes' no no' : Stmt} :
      Stmt.Respells E yes yes' → Stmt.Respells E no no' →
      Stmt.Respells E (.conditional condition yes (some no))
        (.conditional (condition.respelled A E) yes' (some no'))
  | loop {E : List Respelling} (condition : Expr) {body body' : Stmt} :
      Stmt.Respells E body body' →
      Stmt.Respells E (.loop condition body) (.loop (condition.respelled A E) body')
  | functionDecl {E : List Respelling} {f f' : Function} :
      (nearest E).spell f.name.lexeme = f.name.lexeme → Function.Respells E f f' →
      Stmt.Respells E (.functionDecl f) (.functionDecl f')
  | giveBack {E : List Respelling} (keyword : Token) (value : Option Expr) :
      Stmt.Respells E (.giveBack keyword value) (.giveBack keyword (value.map (Expr.respelled A E)))
  | plainClass {E : List Respelling} {name : Token} {methods methods' : List Function} :
      (nearest E).spell name.lexeme = name.lexeme → Function.AllRespell E methods methods' →
      Stmt.Respells E (.classDecl name none methods) (.classDecl name none methods')
  | subclass {E : List Respelling} {name : Token} (superclass : Reference)
      {methods methods' : List Function} :
      (nearest E).spell name.lexeme = name.lexeme →
      Function.AllRespell (same :: E) methods methods' →
      Stmt.Respells E (.classDecl name (some superclass) methods)
        (.classDecl name (some (superclass.respelled A E)) methods')

inductive Stmt.AllRespell : List Respelling → List Stmt → List Stmt → Prop where
  | nil {E : List Respelling} : Stmt.AllRespell E [] []
  | cons {E : List Respelling} {s s' : Stmt} {ss ss' : List Stmt} :
      Stmt.Respells E s s' → Stmt.AllRespell E ss ss' → Stmt.AllRespell E (s :: ss) (s' :: ss')

/-- The parameters of a function are spelled as its body is. -/
inductive Function.Respells : List Respelling → Function → Function → Prop where
  | mk {E : List Respelling} {ρ : Respelling} (name : Token) (params : List Token)
      {body body' : List Stmt} :
      Ways ρ → Stmt.AllRespell (ρ :: E) body body' →
      Function.Respells E (.mk name params body) (.mk name (params.map (Token.respelled ρ)) body')

/-- The scope of `this` is around every method. -/
inductive Function.AllRespell : List Respelling → List Function → List Function → Prop where
  | nil {E : List Respelling} : Function.AllRespell E [] []
  | cons {E : List Respelling} {f f' : Function} {fs fs' : List Function} :
      Function.Respells (same :: E) f f' → Function.AllRespell E fs fs' →
      Function.AllRespell E (f :: fs) (f' :: fs')

end

end

variable {A : Addresses} {Ways : Respelling → Prop} {E : List Respelling}

/-! ## What stays -/

@[simp] theorem Reference.respelled_id (use : Reference) : (use.respelled A E).id = use.id := rfl

theorem Reference.respelled_lexeme {use : Reference} {address : Option Nat}
    (h : A[use.id]? = address) :
    (use.respelled A E).name.lexeme = (reached E address).spell use.name.lexeme := by
  rw [← h]
  rfl

/-- A use of the top level is spelled as before. -/
theorem Reference.respelled_of_none {use : Reference} (h : A[use.id]? = none) :
    use.respelled A E = use := by
  unfold respelled
  rw [h]
  rfl

namespace Function.Respells

variable {f f' : Function} (h : Function.Respells A Ways E f f')

include h

theorem name : f'.name = f.name := by
  cases h
  rfl

theorem arity : f'.arity = f.arity := by
  cases h
  exact List.length_map _

theorem isNamedInitializer : f'.isNamedInitializer = f.isNamedInitializer := by
  rw [Function.isNamedInitializer, h.name, Function.isNamedInitializer]

end Function.Respells

/-- Parameters and body of a function are spelled in the same way. -/
theorem Function.Respells.call {f f' : Function} (h : Function.Respells A Ways E f f') :
    ∃ ρ : Respelling, f'.params = f.params.map (Token.respelled ρ) ∧
      Stmt.AllRespell A Ways (ρ :: E) f.body f'.body := by
  cases h with
  | mk name params _ hbody => exact ⟨_, rfl, hbody⟩

/-- A function whose scope is spelled as before. -/
theorem Function.respells_body (hways : Ways same) (name : Token) (params : List Token)
    {body body' : List Stmt} (hbody : Stmt.AllRespell A Ways (same :: E) body body') :
    Function.Respells A Ways E (.mk name params body) (.mk name params body') := by
  have hfunction := Function.Respells.mk name params hways hbody
  rwa [show Token.respelled same = id from rfl, List.map_id] at hfunction

/-- A declaration is spelled as the scope it stands in. -/
theorem Stmt.Respells.declaredName? {s s' : Stmt} (h : s.Respells A Ways E s') :
    Scoping.declaredName? s' = (Scoping.declaredName? s).map (Token.respelled (nearest E)) := by
  cases h with
  | functionDecl hname hf =>
      have hsame := Token.respelled_of_eq hname
      simp only [Scoping.declaredName?, Option.map_some, hf.name, hsame]
  | plainClass hname hmethods =>
      simp only [Scoping.declaredName?, Option.map_some, Token.respelled_of_eq hname]
  | subclass superclass hname hmethods =>
      simp only [Scoping.declaredName?, Option.map_some, Token.respelled_of_eq hname]
  | _ => rfl

/-! ## Where all scopes are spelled as before -/

namespace Respelling.AllSame

variable (h : AllSame E)

include h

theorem reference (use : Reference) : use.respelled A E = use := by
  rw [Reference.respelled, h.reached, Token.respelled_same]

theorem expr (e : Expr) : e.respelled A E = e :=
  (e.mapUses_congr fun use _ => h.reference use).trans e.mapUses_id

theorem fixed (name : String) : (Respelling.nearest E).spell name = name := by
  rw [h.nearest, Respelling.same_spell]

theorem value (value : Option Expr) : value.map (Expr.respelled A E) = value := by
  cases value with
  | none => rfl
  | some e => exact congrArg some (h.expr e)

end Respelling.AllSame

mutual

/-- A statement is a respelling of itself. -/
theorem Stmt.respells_refl (hways : Ways same) : ∀ {E : List Respelling},
    Respelling.AllSame E → ∀ s : Stmt, s.Respells A Ways E s
  | E, h, .expression e => by
      have hsame : (Stmt.expression e).Respells A Ways E (.expression (e.respelled A E)) :=
        .expression e
      rwa [h.expr] at hsame
  | E, h, .print e => by
      have hsame : (Stmt.print e).Respells A Ways E (.print (e.respelled A E)) := .print e
      rwa [h.expr] at hsame
  | E, h, .variableDecl name value => by
      have hsame : (Stmt.variableDecl name value).Respells A Ways E
          (.variableDecl (name.respelled (nearest E)) (value.map (Expr.respelled A E))) :=
        .variableDecl name value
      rwa [h.value, h.nearest, Token.respelled_same] at hsame
  | _, h, .block body => .block hways (Stmt.allRespell_refl hways h.cons body)
  | _, h, .conditional condition yes none => by
      have hsame := Stmt.Respells.ifThen condition (Stmt.respells_refl hways h yes)
      rwa [h.expr] at hsame
  | _, h, .conditional condition yes (some no) => by
      have hsame := Stmt.Respells.ifElse condition (Stmt.respells_refl hways h yes)
        (Stmt.respells_refl hways h no)
      rwa [h.expr] at hsame
  | _, h, .loop condition body => by
      have hsame := Stmt.Respells.loop condition (Stmt.respells_refl hways h body)
      rwa [h.expr] at hsame
  | _, h, .functionDecl declared =>
      .functionDecl (h.fixed _) (Function.respells_refl hways h declared)
  | E, h, .giveBack keyword value => by
      have hsame : (Stmt.giveBack keyword value).Respells A Ways E
          (.giveBack keyword (value.map (Expr.respelled A E))) := .giveBack keyword value
      rwa [h.value] at hsame
  | _, h, .classDecl _ none methods =>
      .plainClass (h.fixed _) (Function.allRespell_refl hways h methods)
  | _, h, .classDecl name (some superclass) methods => by
      have hsame := Stmt.Respells.subclass superclass (h.fixed name.lexeme)
        (Function.allRespell_refl hways h.cons methods)
      rwa [h.reference] at hsame

theorem Stmt.allRespell_refl (hways : Ways same) : ∀ {E : List Respelling},
    Respelling.AllSame E → ∀ ss : List Stmt, Stmt.AllRespell A Ways E ss ss
  | _, _, [] => .nil
  | _, h, s :: ss => .cons (Stmt.respells_refl hways h s) (Stmt.allRespell_refl hways h ss)

theorem Function.respells_refl (hways : Ways same) : ∀ {E : List Respelling},
    Respelling.AllSame E → ∀ f : Function, Function.Respells A Ways E f f
  | _, h, .mk name params body =>
      Function.respells_body hways name params (Stmt.allRespell_refl hways h.cons body)

theorem Function.allRespell_refl (hways : Ways same) : ∀ {E : List Respelling},
    Respelling.AllSame E → ∀ fs : List Function, Function.AllRespell A Ways E fs fs
  | _, _, [] => .nil
  | _, h, f :: fs =>
      .cons (Function.respells_refl hways h.cons f) (Function.allRespell_refl hways h fs)

end

end Lox
