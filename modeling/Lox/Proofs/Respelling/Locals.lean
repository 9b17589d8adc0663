import Lox.Proofs.Control.Shapes
import Lox.Proofs.Respelling.Sessions

/-!
# Other names for single variables

One local variable of a program gets a new name, where it is declared and where it is used. The uses
are those that the static walk has found in its scope: the address of a use is the number of scopes
that stand between the two. So the scope of the variable is respelled, and no other one.
-/

namespace Lox

open Respelling (nearest reached same AllSame)
open Scoping (declaredName?)

/-! ## Renaming -/

/-- A token with the new name in the place of the old one. -/
def Token.replaced (a b : String) (t : Token) : Token :=
  if t.lexeme = a then { t with lexeme := b } else t

section

variable (found : List (Nat × Nat)) (a b : String)

/-- A use that stands `depth` scopes inside the scope of the variable. It is one of the variable if
its address leads there. -/
def Reference.replaced (depth : Nat) (use : Reference) : Reference :=
  if (use.id, depth) ∈ found then { use with name := use.name.replaced a b } else use

def Expr.replaced (depth : Nat) (e : Expr) : Expr :=
  e.mapUses (Reference.replaced found a b depth)

mutual

/-- Renames the variable in a statement that stands `depth` scopes inside the scope of it. -/
def Stmt.replaced (depth : Nat) : Stmt → Stmt
  | .expression e => .expression (e.replaced found a b depth)
  | .print e => .print (e.replaced found a b depth)
  | .variableDecl name value =>
    .variableDecl (if depth = 0 then name.replaced a b else name)
      (value.map (Expr.replaced found a b depth))
  | .block body => .block (Stmt.replacedAll (depth + 1) body)
  | .conditional condition yes none =>
    .conditional (condition.replaced found a b depth) (yes.replaced depth) none
  | .conditional condition yes (some no) =>
    .conditional (condition.replaced found a b depth) (yes.replaced depth)
      (some (no.replaced depth))
  | .loop condition body => .loop (condition.replaced found a b depth) (body.replaced depth)
  | .functionDecl declared => .functionDecl (declared.replaced depth)
  | .giveBack keyword value => .giveBack keyword (value.map (Expr.replaced found a b depth))
  | .classDecl name none methods => .classDecl name none (Function.replacedAll depth methods)
  | .classDecl name (some superclass) methods =>
    .classDecl name (some (superclass.replaced found a b depth))
      (Function.replacedAll (depth + 1) methods)

def Stmt.replacedAll (depth : Nat) : List Stmt → List Stmt
  | [] => []
  | s :: ss => s.replaced depth :: Stmt.replacedAll depth ss

def Function.replaced (depth : Nat) : Function → Function
  | .mk name params body => .mk name params (Stmt.replacedAll (depth + 1) body)

/-- The scope of `this` is around every method. -/
def Function.replacedAll (depth : Nat) : List Function → List Function
  | [] => []
  | f :: fs => f.replaced (depth + 1) :: Function.replacedAll depth fs

end

/-- A variable of this name is declared in the scope of these statements. -/
def Stmt.Declare (ss : List Stmt) : Prop :=
  ∃ name value, Stmt.variableDecl name value ∈ ss ∧ name.lexeme = a

mutual

/-- The second statement is the first one with another name for one of the variables that are local
to it. -/
inductive Stmt.Renames : Stmt → Stmt → Prop where
  | here {body : List Stmt} :
      Stmt.Declare a body → Stmt.Renames (.block body) (.block (Stmt.replacedAll found a b 0 body))
  | block {body body' : List Stmt} :
      Stmt.OneRenames body body' → Stmt.Renames (.block body) (.block body')
  | yes (condition : Expr) {yes yes' : Stmt} (no : Option Stmt) :
      Stmt.Renames yes yes' →
      Stmt.Renames (.conditional condition yes no) (.conditional condition yes' no)
  | no (condition : Expr) (yes : Stmt) {no no' : Stmt} :
      Stmt.Renames no no' →
      Stmt.Renames (.conditional condition yes (some no)) (.conditional condition yes (some no'))
  | loop (condition : Expr) {body body' : Stmt} :
      Stmt.Renames body body' → Stmt.Renames (.loop condition body) (.loop condition body')
  | functionDecl {f f' : Function} :
      Function.Renames f f' → Stmt.Renames (.functionDecl f) (.functionDecl f')
  | classDecl (name : Token) (superclass : Option Reference) {methods methods' : List Function} :
      Function.OneRenames methods methods' →
      Stmt.Renames (.classDecl name superclass methods) (.classDecl name superclass methods')

/-- One of the statements has another name for a variable that is local to it. -/
inductive Stmt.OneRenames : List Stmt → List Stmt → Prop where
  | head {s s' : Stmt} (ss : List Stmt) :
      Stmt.Renames s s' → Stmt.OneRenames (s :: ss) (s' :: ss)
  | tail (s : Stmt) {ss ss' : List Stmt} :
      Stmt.OneRenames ss ss' → Stmt.OneRenames (s :: ss) (s :: ss')

/-- Parameters share the scope of the body. -/
inductive Function.Renames : Function → Function → Prop where
  | here (name : Token) {params : List Token} {body : List Stmt} :
      (∃ p ∈ params, p.lexeme = a) ∨ Stmt.Declare a body →
      Function.Renames (.mk name params body)
        (.mk name (params.map (Token.replaced a b)) (Stmt.replacedAll found a b 0 body))
  | body (name : Token) (params : List Token) {body body' : List Stmt} :
      Stmt.OneRenames body body' →
      Function.Renames (.mk name params body) (.mk name params body')

inductive Function.OneRenames : List Function → List Function → Prop where
  | head {f f' : Function} (fs : List Function) :
      Function.Renames f f' → Function.OneRenames (f :: fs) (f' :: fs)
  | tail (f : Function) {fs fs' : List Function} :
      Function.OneRenames fs fs' → Function.OneRenames (f :: fs) (f :: fs')

end

end

/-! ## One scope is respelled -/

namespace Respelling

/-- The scopes around a place, `depth` of which are inside the one that is spelled in this way. -/
def inside (ρ : Respelling) (E : List Respelling) (depth : Nat) : List Respelling :=
  List.replicate depth same ++ ρ :: E

variable {E : List Respelling}

theorem reached_inside (hE : AllSame E) (ρ : Respelling) : ∀ (depth : Nat) (address : Option Nat),
    reached (inside ρ E depth) address = if address = some depth then ρ else same
  | _, none => rfl
  | 0, some 0 => rfl
  | 0, some (d + 1) => hE.reached (some d)
  | _ + 1, some 0 => rfl
  | depth + 1, some (d + 1) => by
      have ih := reached_inside hE ρ depth (some d)
      simp only [Option.some.injEq, Nat.add_right_cancel_iff] at ih ⊢
      exact ih

end Respelling

open Respelling (inside)

section

variable {A : Addresses} {found : List (Nat × Nat)} {a b : String} {E : List Respelling}
  (ha : Plain a) (hb : Plain b)

/-- What the walk has found about a use is in the table, and the use does not have the new name. -/
structure Reference.Known (A : Addresses) (found : List (Nat × Nat)) (b : String)
    (use : Reference) : Prop where
  address : ∀ d, (use.id, d) ∈ found ↔ A[use.id]? = some d
  old : use.name.lexeme ≠ b

theorem Token.respelled_exchange {t : Token} (h : t.lexeme ≠ b) :
    t.respelled (.exchange ha hb) = t.replaced a b := by
  unfold Token.replaced
  split
  · next heq =>
    have hswap : Respelling.swap a b t.lexeme = b := heq ▸ Respelling.swap_left a b
    exact congrArg (fun lexeme => { t with lexeme }) hswap
  · next hne => exact Token.respelled_of_eq (Respelling.swap_of_ne hne h)

theorem Reference.respelled_inside (hE : AllSame E) {use : Reference} (h : use.Known A found b)
    (depth : Nat) :
    use.respelled A (inside (.exchange ha hb) E depth) = use.replaced found a b depth := by
  unfold Reference.respelled Reference.replaced
  rw [Respelling.reached_inside hE]
  by_cases hhere : A[use.id]? = some depth
  · rw [if_pos hhere, if_pos ((h.address depth).mpr hhere), Token.respelled_exchange ha hb h.old]
  · rw [if_neg hhere, if_neg fun hfound => hhere ((h.address depth).mp hfound),
      Token.respelled_same]

theorem Expr.respelled_inside (hE : AllSame E) {e : Expr}
    (h : ∀ use ∈ e.references, use.Known A found b) (depth : Nat) :
    e.respelled A (inside (.exchange ha hb) E depth) = e.replaced found a b depth :=
  e.mapUses_congr fun use huse => Reference.respelled_inside ha hb hE (h use huse) depth

theorem Expr.respelled_value (hE : AllSame E) {value : Option Expr}
    (h : ∀ use ∈ value.elim [] Expr.references, use.Known A found b) (depth : Nat) :
    value.map (Expr.respelled A (inside (.exchange ha hb) E depth))
      = value.map (Expr.replaced found a b depth) := by
  cases value with
  | none => rfl
  | some e => exact congrArg some (Expr.respelled_inside ha hb hE h depth)

/-- If the statement declares the name, then it is a variable. -/
def Stmt.Varies (a : String) (s : Stmt) : Prop :=
  ∀ t, declaredName? s = some t → t.lexeme = a → ∃ value, s = .variableDecl t value

theorem Stmt.Varies.ne {s : Stmt} (h : s.Varies a) {t : Token} (ht : declaredName? s = some t)
    (hs : ∀ value, s ≠ .variableDecl t value) : t.lexeme ≠ a := by
  intro hname
  obtain ⟨value, hvalue⟩ := h t ht hname
  exact hs value hvalue

/-- Names of functions and of classes stay. -/
theorem Respelling.inside_fixed {name : String} {depth : Nat} (hold : depth = 0 → name ≠ a)
    (hnew : name ≠ b) : (nearest (inside (.exchange ha hb) E depth)).spell name = name := by
  cases depth with
  | zero => exact swap_of_ne (hold rfl) hnew
  | succ depth => rfl

mutual

theorem Stmt.respells_replaced (hE : AllSame E) : ∀ {d : Nat} (s : Stmt),
    (∀ use ∈ s.references, use.Known A found b) → (∀ t ∈ s.names, t.lexeme ≠ b) → s.Branching →
    (d = 0 → s.Varies a) →
    s.Respells A (Respelling.Between a b) (inside (.exchange ha hb) E d) (s.replaced found a b d)
  | d, .expression e, huses, _, _, _ => by
      rw [Stmt.replaced, ← Expr.respelled_inside ha hb hE huses]
      exact .expression e
  | d, .print e, huses, _, _, _ => by
      rw [Stmt.replaced, ← Expr.respelled_inside ha hb hE huses]
      exact .print e
  | d, .variableDecl name value, huses, hnames, _, _ => by
      have hname : name.lexeme ≠ b := hnames name (List.mem_cons_self ..)
      have hspelled : (if d = 0 then name.replaced a b else name)
          = name.respelled (nearest (inside (.exchange ha hb) E d)) := by
        cases d with
        | zero => exact (Token.respelled_exchange ha hb hname).symm
        | succ d => rfl
      rw [Stmt.replaced, ← Expr.respelled_value ha hb hE huses, hspelled]
      exact .variableDecl name value
  | d, .block body, huses, hnames, hbranching, _ =>
      .block .same (Stmt.allRespell_replaced hE (d := d + 1) body huses hnames hbranching
        fun hd => nomatch hd)
  | d, .conditional condition yes none, huses, hnames, hbranching, _ => by
      have huses' := List.forall_mem_append.mp huses
      have hyes := Stmt.respells_replaced hE (d := d) yes huses'.2 hnames hbranching.2
        fun _ t ht => nomatch hbranching.1.symm.trans ht
      rw [Stmt.replaced, ← Expr.respelled_inside ha hb hE huses'.1]
      exact .ifThen condition hyes
  | d, .conditional condition yes (some no), huses, hnames, hbranching, _ => by
      have huses' := List.forall_mem_append.mp huses
      have hbranches := List.forall_mem_append.mp huses'.2
      have hnames' := List.forall_mem_append.mp hnames
      have hyes := Stmt.respells_replaced hE (d := d) yes hbranches.1 hnames'.1
        hbranching.1.2 fun _ t ht => nomatch hbranching.1.1.symm.trans ht
      have hno := Stmt.respells_replaced hE (d := d) no hbranches.2 hnames'.2
        hbranching.2.2 fun _ t ht => nomatch hbranching.2.1.symm.trans ht
      rw [Stmt.replaced, ← Expr.respelled_inside ha hb hE huses'.1]
      exact .ifElse condition hyes hno
  | d, .loop condition body, huses, hnames, hbranching, _ => by
      have huses' := List.forall_mem_append.mp huses
      have hbody := Stmt.respells_replaced hE (d := d) body huses'.2 hnames hbranching.2
        fun _ t ht => nomatch hbranching.1.symm.trans ht
      rw [Stmt.replaced, ← Expr.respelled_inside ha hb hE huses'.1]
      exact .loop condition hbody
  | d, .functionDecl declared, huses, hnames, hbranching, hvaries => by
      have hold : d = 0 → declared.name.lexeme ≠ a := fun hd => (hvaries hd).ne rfl nofun
      have hnew : declared.name.lexeme ≠ b := hnames _ (Stmt.declaredName_mem rfl)
      exact .functionDecl (Respelling.inside_fixed ha hb hold hnew)
        (Function.respells_replaced hE declared huses hnames hbranching)
  | d, .giveBack keyword value, huses, _, _, _ => by
      rw [Stmt.replaced, ← Expr.respelled_value ha hb hE huses]
      exact .giveBack keyword value
  | d, .classDecl name none methods, huses, hnames, hbranching, hvaries => by
      have hnames' := List.forall_mem_cons.mp hnames
      have hold : d = 0 → name.lexeme ≠ a := fun hd => (hvaries hd).ne rfl nofun
      exact .plainClass (Respelling.inside_fixed ha hb hold hnames'.1)
        (Function.allRespell_replaced hE methods huses hnames'.2 hbranching)
  | d, .classDecl name (some superclass) methods, huses, hnames, hbranching, hvaries => by
      have huses' := List.forall_mem_cons.mp huses
      have hnames' := List.forall_mem_cons.mp hnames
      have hold : d = 0 → name.lexeme ≠ a := fun hd => (hvaries hd).ne rfl nofun
      rw [Stmt.replaced, ← Reference.respelled_inside ha hb hE huses'.1]
      exact .subclass superclass (Respelling.inside_fixed ha hb hold hnames'.1)
        (Function.allRespell_replaced hE (d := d + 1) methods huses'.2 hnames'.2 hbranching)

theorem Stmt.allRespell_replaced (hE : AllSame E) : ∀ {d : Nat} (ss : List Stmt),
    (∀ use ∈ Stmt.referencesAll ss, use.Known A found b) →
    (∀ t ∈ Stmt.namesAll ss, t.lexeme ≠ b) → Stmt.AllBranching ss →
    (d = 0 → ∀ s ∈ ss, s.Varies a) →
    Stmt.AllRespell A (Respelling.Between a b) (inside (.exchange ha hb) E d) ss
      (Stmt.replacedAll found a b d ss)
  | _, [], _, _, _, _ => .nil
  | _, s :: ss, huses, hnames, hbranching, hvaries => by
      have huses' := List.forall_mem_append.mp huses
      have hnames' := List.forall_mem_append.mp hnames
      exact .cons
        (Stmt.respells_replaced hE s huses'.1 hnames'.1 hbranching.1
          fun hd => hvaries hd s (List.mem_cons_self ..))
        (Stmt.allRespell_replaced hE ss huses'.2 hnames'.2 hbranching.2
          fun hd s' hs' => hvaries hd s' (List.mem_cons_of_mem _ hs'))

theorem Function.respells_replaced (hE : AllSame E) : ∀ {d : Nat} (f : Function),
    (∀ use ∈ f.references, use.Known A found b) → (∀ t ∈ f.names, t.lexeme ≠ b) → f.Branching →
    f.Respells A (Respelling.Between a b) (inside (.exchange ha hb) E d) (f.replaced found a b d)
  | d, .mk name params body, huses, hnames, hbranching => by
      have hnames' := List.forall_mem_append.mp (List.forall_mem_cons.mp hnames).2
      have hbody := Stmt.allRespell_replaced hE (d := d + 1) body huses hnames'.2 hbranching
        fun hd => nomatch hd
      exact Function.respells_body .same name params hbody

theorem Function.allRespell_replaced (hE : AllSame E) : ∀ {d : Nat} (fs : List Function),
    (∀ use ∈ Function.referencesAll fs, use.Known A found b) →
    (∀ t ∈ Function.namesAll fs, t.lexeme ≠ b) → Function.AllBranching fs →
    Function.AllRespell A (Respelling.Between a b) (inside (.exchange ha hb) E d) fs
      (Function.replacedAll found a b d fs)
  | _, [], _, _, _ => .nil
  | d, f :: fs, huses, hnames, hbranching => by
      have huses' := List.forall_mem_append.mp huses
      have hnames' := List.forall_mem_append.mp hnames
      exact .cons
        (Function.respells_replaced hE (d := d + 1) f huses'.1 hnames'.1 hbranching.1)
        (Function.allRespell_replaced hE fs huses'.2 hnames'.2 hbranching.2)

end

/-! ## One declaration of a name -/

namespace Scoping

/-- A name that is declared without a fault is new to its scope. -/
theorem not_has_of_declares {context : Context} {frame : Frame} {outer : Scopes} {s : Stmt}
    {t : Token} (hfaults : (ofStmt context (frame :: outer) s).faults = [])
    (ht : declaredName? s = some t) : frame.has t.lexeme = false := by
  have hdeclaring : (declaring (frame :: outer) t).faults = [] := by
    cases s with
    | variableDecl name value =>
        cases ht
        exact (faults_of_append hfaults).1
    | functionDecl declared =>
        cases ht
        exact (faults_of_append hfaults).1
    | classDecl name superclass methods =>
        cases ht
        exact (faults_of_append (faults_of_append hfaults).1).1
    | _ => exact nomatch ht
  exact (Accepts.of_faultIf hdeclaring).1

/-- A statement adds at most a name to its scope. -/
theorem exists_after (frame : Frame) (outer : Scopes) (s : Stmt) :
    ∃ frame', after (frame :: outer) s = frame' :: outer ∧
      (∀ name, frame.has name → frame'.has name) ∧
      ∀ t, declaredName? s = some t → frame'.has t.lexeme := by
  unfold after
  cases declaredName? s with
  | none => exact ⟨frame, rfl, fun _ h => h, nofun⟩
  | some t =>
      refine ⟨(t.lexeme, true) :: frame, rfl, fun name h => has_cons h t.lexeme true, ?_⟩
      rintro _ ⟨⟩
      simp [Frame.has]

/-- A name that the scope has is not declared again. -/
theorem not_declared_of_has {context : Context} {outer : Scopes} :
    ∀ {ss : List Stmt} {frame : Frame}, frame.has a →
      (ofStmts context (frame :: outer) ss).faults = [] →
      ∀ s ∈ ss, ∀ t, declaredName? s = some t → t.lexeme ≠ a
  | [], _, _, _, _, hs => nomatch hs
  | s :: ss, frame, hhas, hfaults, s', hs' => by
      obtain ⟨hfirst, hrest⟩ := faults_of_append hfaults
      rcases List.mem_cons.mp hs' with rfl | hs'
      · intro t ht hname
        have hnot := not_has_of_declares hfirst ht
        rw [hname, hhas] at hnot
        exact nomatch hnot
      · obtain ⟨frame', hafter, hkeeps, -⟩ := exists_after frame outer s
        rw [hafter] at hrest
        exact not_declared_of_has (hkeeps a hhas) hrest s' hs'

/-- If a variable has the name, then nothing else in its scope has it. -/
theorem varies_of_declare {context : Context} {outer : Scopes} :
    ∀ {ss : List Stmt} {frame : Frame}, Stmt.Declare a ss →
      (ofStmts context (frame :: outer) ss).faults = [] → ∀ s ∈ ss, s.Varies a
  | [], _, _, _, _, hs => nomatch hs
  | s :: ss, frame, ⟨name, value, hmem, hname⟩, hfaults, s', hs' => by
      have hrest := (faults_of_append hfaults).2
      obtain ⟨frame', hafter, -, hhas⟩ := exists_after frame outer s
      rw [hafter] at hrest
      rcases List.mem_cons.mp hmem with rfl | hlater
      · -- the variable comes first
        rcases List.mem_cons.mp hs' with rfl | hs'
        · rintro _ ⟨⟩ _
          exact ⟨value, rfl⟩
        · have hhas' : frame'.has a := hname ▸ hhas name rfl
          intro t ht ht'
          exact absurd ht' (not_declared_of_has hhas' hrest s' hs' t ht)
      · rcases List.mem_cons.mp hs' with rfl | hs'
        · intro t ht ht'
          have hhas' : frame'.has a := ht' ▸ hhas t ht
          have hvariable : declaredName? (.variableDecl name value) = some name := rfl
          exact absurd hname (not_declared_of_has hhas' hrest _ hlater name hvariable)
        · exact varies_of_declare ⟨name, value, hlater, hname⟩ hrest s' hs'

/-- The scope of a function has its parameters. -/
theorem has_enterParams : ∀ {params : List Token} {frame : Frame},
    frame.has a ∨ (∃ p ∈ params, p.lexeme = a) → (enterParams frame params).1.has a
  | [], _, h => by
      rcases h with h | ⟨p, hp, -⟩
      · exact h
      · exact nomatch hp
  | p :: params, frame, h => by
      have hmore : Frame.has ((p.lexeme, true) :: frame) a ∨ ∃ q ∈ params, q.lexeme = a := by
        rcases h with h | ⟨q, hq, hname⟩
        · exact .inl (has_cons h p.lexeme true)
        · rcases List.mem_cons.mp hq with rfl | hq
          · exact .inl (by simp [Frame.has, hname])
          · exact .inr ⟨q, hq, hname⟩
      have hrest := has_enterParams hmore
      exact hrest

/-- In the scope of a function, too, nothing else has the name of a variable. -/
theorem varies_of_function {context : Context} {scopes : Scopes} {name : Token}
    {params : List Token} {body : List Stmt}
    (hlocal : (∃ p ∈ params, p.lexeme = a) ∨ Stmt.Declare a body)
    (hfaults : (ofFunction context scopes (.mk name params body)).faults = []) :
    ∀ s ∈ body, s.Varies a := by
  have hbody := (faults_of_append hfaults).2
  rcases hlocal with hparam | hdeclare
  · intro s hs t ht hname
    exact absurd hname (not_declared_of_has (has_enterParams (.inr hparam)) hbody s hs t ht)
  · exact varies_of_declare hdeclare hbody

end Scoping

/-! ## Programs -/

theorem Stmt.mem_namesAll : ∀ {ss : List Stmt} {s : Stmt} {t : Token}, s ∈ ss → t ∈ s.names →
    t ∈ Stmt.namesAll ss
  | _ :: _, _, _, hs, ht => by
      rcases List.mem_cons.mp hs with rfl | hs
      · exact List.mem_append_left _ ht
      · exact List.mem_append_right _ (Stmt.mem_namesAll hs ht)

theorem Stmt.plain_of_declare {ss : List Stmt} (h : Stmt.Declare a ss)
    (hnames : ∀ t ∈ Stmt.namesAll ss, Plain t.lexeme) : Plain a := by
  obtain ⟨name, value, hmem, hname⟩ := h
  exact hname ▸ hnames name (Stmt.mem_namesAll hmem (List.mem_cons_self ..))

mutual

/-- Renaming a variable respells its scope. -/
theorem Stmt.Renames.respells (hb : Plain b) : ∀ {E : List Respelling} {s s' : Stmt},
    s.Renames found a b s' → AllSame E → (∀ use ∈ s.references, use.Known A found b) →
    (∀ t ∈ s.names, Plain t.lexeme ∧ t.lexeme ≠ b) → s.Branching →
    (∃ context scopes, (Scoping.ofStmt context scopes s).faults = []) →
    s.Respells A (Respelling.Between a b) E s'
  | E, .block body, _, h, hE, huses, hnames, hbranching, ⟨_, _, hfaults⟩ => by
      cases h with
      | here hdeclare =>
          -- this scope is the one that is respelled
          have ha := Stmt.plain_of_declare hdeclare fun t ht => (hnames t ht).1
          have hnew : ∀ t ∈ Stmt.namesAll body, t.lexeme ≠ b := fun t ht => (hnames t ht).2
          exact .block (ρ := .exchange ha hb) (.inr rfl)
            (Stmt.allRespell_replaced ha hb hE (d := 0) body huses hnew hbranching
              fun _ => Scoping.varies_of_declare hdeclare hfaults)
      | block hbody =>
          exact .block .same (hbody.respells hb hE.cons huses hnames hbranching ⟨_, _, hfaults⟩)
  | E, .conditional condition yes none, _, h, hE, huses, hnames, hbranching, ⟨_, _, hfaults⟩ => by
      cases h with
      | yes _ _ hyes =>
          have hrenamed := hyes.respells hb hE (List.forall_mem_append.mp huses).2 hnames
            hbranching.2 ⟨_, _, (Scoping.faults_of_append hfaults).2⟩
          have hwhole := Stmt.Respells.ifThen condition hrenamed
          rwa [hE.expr] at hwhole
  | E, .conditional condition yes (some no), _, h, hE, huses, hnames, hbranching,
      ⟨_, _, hfaults⟩ => by
      have hbranches := List.forall_mem_append.mp (List.forall_mem_append.mp huses).2
      have hnames' := List.forall_mem_append.mp hnames
      cases h with
      | yes _ _ hyes =>
          have hhead := (Scoping.faults_of_append hfaults).1
          have hrenamed := hyes.respells hb hE hbranches.1 hnames'.1 hbranching.1.2
            ⟨_, _, (Scoping.faults_of_append hhead).2⟩
          have hwhole := Stmt.Respells.ifElse condition hrenamed (Stmt.respells_refl .same hE no)
          rwa [hE.expr] at hwhole
      | no _ _ hno =>
          have hrenamed := hno.respells hb hE hbranches.2 hnames'.2 hbranching.2.2
            ⟨_, _, (Scoping.faults_of_append hfaults).2⟩
          have hwhole := Stmt.Respells.ifElse condition (Stmt.respells_refl .same hE yes) hrenamed
          rwa [hE.expr] at hwhole
  | E, .loop condition body, _, h, hE, huses, hnames, hbranching, ⟨_, _, hfaults⟩ => by
      cases h with
      | loop _ hbody =>
          have hrenamed := hbody.respells hb hE (List.forall_mem_append.mp huses).2 hnames
            hbranching.2 ⟨_, _, (Scoping.faults_of_append hfaults).2⟩
          have hwhole := Stmt.Respells.loop condition hrenamed
          rwa [hE.expr] at hwhole
  | E, .functionDecl declared, _, h, hE, huses, hnames, hbranching, ⟨_, _, hfaults⟩ => by
      cases h with
      | functionDecl hf =>
          exact .functionDecl (hE.fixed _) (hf.respells hb hE huses hnames hbranching
            ⟨_, _, (Scoping.faults_of_append hfaults).2⟩)
  | E, .classDecl name none methods, _, h, hE, huses, hnames, hbranching, ⟨_, _, hfaults⟩ => by
      have hnames' := List.forall_mem_cons.mp hnames
      cases h with
      | classDecl _ _ hmethods =>
          exact .plainClass (hE.fixed _) (hmethods.respells hb hE huses hnames'.2 hbranching
            ⟨_, _, (Scoping.faults_of_append hfaults).2⟩)
  | E, .classDecl name (some superclass) methods, _, h, hE, huses, hnames, hbranching,
      ⟨_, _, hfaults⟩ => by
      have huses' := List.forall_mem_cons.mp huses
      have hnames' := List.forall_mem_cons.mp hnames
      cases h with
      | classDecl _ _ hmethods =>
          have hrenamed := hmethods.respells hb hE.cons huses'.2 hnames'.2 hbranching
            ⟨_, _, (Scoping.faults_of_append hfaults).2⟩
          have hwhole := Stmt.Respells.subclass superclass (hE.fixed name.lexeme) hrenamed
          rwa [hE.reference] at hwhole
termination_by structural _ s => s

theorem Stmt.OneRenames.respells (hb : Plain b) : ∀ {E : List Respelling} {ss ss' : List Stmt},
    Stmt.OneRenames found a b ss ss' → AllSame E →
    (∀ use ∈ Stmt.referencesAll ss, use.Known A found b) →
    (∀ t ∈ Stmt.namesAll ss, Plain t.lexeme ∧ t.lexeme ≠ b) → Stmt.AllBranching ss →
    (∃ context scopes, (Scoping.ofStmts context scopes ss).faults = []) →
    Stmt.AllRespell A (Respelling.Between a b) E ss ss'
  | E, s :: ss, _, h, hE, huses, hnames, hbranching, ⟨_, _, hfaults⟩ => by
      have huses' := List.forall_mem_append.mp huses
      have hnames' := List.forall_mem_append.mp hnames
      have hfaults' := Scoping.faults_of_append hfaults
      cases h with
      | head _ hs =>
          exact .cons (hs.respells hb hE huses'.1 hnames'.1 hbranching.1 ⟨_, _, hfaults'.1⟩)
            (Stmt.allRespell_refl .same hE ss)
      | tail _ hss =>
          exact .cons (Stmt.respells_refl .same hE s)
            (hss.respells hb hE huses'.2 hnames'.2 hbranching.2 ⟨_, _, hfaults'.2⟩)
termination_by structural _ ss => ss

theorem Function.Renames.respells (hb : Plain b) : ∀ {E : List Respelling} {f f' : Function},
    f.Renames found a b f' → AllSame E → (∀ use ∈ f.references, use.Known A found b) →
    (∀ t ∈ f.names, Plain t.lexeme ∧ t.lexeme ≠ b) → f.Branching →
    (∃ context scopes, (Scoping.ofFunction context scopes f).faults = []) →
    f.Respells A (Respelling.Between a b) E f'
  | E, .mk name params body, _, h, hE, huses, hnames, hbranching, ⟨_, _, hfaults⟩ => by
      have hnames' := List.forall_mem_append.mp (List.forall_mem_cons.mp hnames).2
      cases h with
      | here _ hlocal =>
          have ha : Plain a := by
            rcases hlocal with ⟨p, hp, hname⟩ | hdeclare
            · exact hname ▸ (hnames'.1 p hp).1
            · exact Stmt.plain_of_declare hdeclare fun t ht => (hnames'.2 t ht).1
          have hnew : ∀ t ∈ Stmt.namesAll body, t.lexeme ≠ b := fun t ht => (hnames'.2 t ht).2
          have hparams : params.map (Token.respelled (.exchange ha hb))
              = params.map (Token.replaced a b) :=
            List.map_congr_left fun p hp => Token.respelled_exchange ha hb (hnames'.1 p hp).2
          have hbody := Stmt.allRespell_replaced ha hb hE (d := 0) body huses hnew hbranching
            fun _ => Scoping.varies_of_function hlocal hfaults
          have hfunction := Function.Respells.mk name params
            (.inr rfl : Respelling.Between a b (.exchange ha hb)) hbody
          rwa [hparams] at hfunction
      | body _ _ hbody =>
          have hrenamed := hbody.respells hb hE.cons huses hnames'.2 hbranching
            ⟨_, _, (Scoping.faults_of_append hfaults).2⟩
          exact Function.respells_body .same name params hrenamed
termination_by structural _ f => f

theorem Function.OneRenames.respells (hb : Plain b) : ∀ {E : List Respelling}
    {fs fs' : List Function}, Function.OneRenames found a b fs fs' → AllSame E →
    (∀ use ∈ Function.referencesAll fs, use.Known A found b) →
    (∀ t ∈ Function.namesAll fs, Plain t.lexeme ∧ t.lexeme ≠ b) → Function.AllBranching fs →
    (∃ inClass scopes, (Scoping.ofMethods inClass scopes fs).faults = []) →
    Function.AllRespell A (Respelling.Between a b) E fs fs'
  | E, f :: fs, _, h, hE, huses, hnames, hbranching, ⟨_, _, hfaults⟩ => by
      have huses' := List.forall_mem_append.mp huses
      have hnames' := List.forall_mem_append.mp hnames
      have hfaults' := Scoping.faults_of_append hfaults
      cases h with
      | head _ hf =>
          exact .cons (hf.respells hb hE.cons huses'.1 hnames'.1 hbranching.1 ⟨_, _, hfaults'.1⟩)
            (Function.allRespell_refl .same hE fs)
      | tail _ hfs =>
          exact .cons (Function.respells_refl .same hE.cons f)
            (hfs.respells hb hE huses'.2 hnames'.2 hbranching.2 ⟨_, _, hfaults'.2⟩)
termination_by structural _ fs => fs

end

end

/-! ## Sessions -/

namespace Session

variable {s : Session} {source : String} {P : List Stmt}

/-- What a session answers to a program, apart from what it keeps for later ones. -/
theorem conclude_shows {s s' : Session} (c : Completion) {st st' : State}
    (h : st'.output = st.output) :
    ((s'.conclude c st').2, (s'.conclude c st').1.state.output)
      = ((s.conclude c st).2, (s.conclude c st).1.state.output) := by
  cases c <;> simp only [conclude, h]

/-- **The name of a local variable does not show.** A session reads a program without faults, and
one variable that a `var` in some scope or a parameter declares gets a new name, where it is
declared and in all uses that the walk has found to be of it. No declaration and no use in the
program has the new name. Then the walk finds the same in the renamed program, and no fault. After
any number of steps both programs have printed the same, and both have ended in the same way or
neither has. So if the session reads the renamed program from a source, it answers as to the
program. All this holds whatever the clock shows, as long as it shows the same to both. -/
theorem local_names_do_not_show {P' : List Stmt} {a b : String} (hs : s.Reached) (clock : Clock)
    (hread : (s.parse source).1 = .ok P) (hfaults : (Scoping.ofProgram P).faults = [])
    (hb : Plain b) (hnames : ∀ t ∈ Stmt.namesAll P, t.lexeme ≠ b)
    (huses : ∀ use ∈ Stmt.referencesAll P, use.name.lexeme ≠ b)
    (hrenames : Stmt.OneRenames (Scoping.ofProgram P).addresses a b P P') :
    Scoping.ofProgram P' = Scoping.ofProgram P ∧
    (∀ n,
      let st := (s.timed clock).state.noteAddresses (Scoping.ofProgram P).addresses
      let m := (Machine.ofProgram P st).run n
      let m' := (Machine.ofProgram P' st).run n
      m'.result? = m.result? ∧ m'.state.output = m.state.output) ∧
    ∀ source', (s.parse source').1 = .ok P' → ∀ limit,
      ((s.timed clock).run limit source').map (fun answer => (answer.2, answer.1.state.output))
        = ((s.timed clock).run limit source).map
            fun answer => (answer.2, answer.1.state.output) := by
  -- reading does not look at the clock
  change ((s.timed clock).parse source).1 = .ok P at hread
  change _ ∧ _ ∧ ∀ source', ((s.timed clock).parse source').1 = .ok P' → _
  replace hs := hs.timed clock
  generalize s.timed clock = s at hs hread ⊢
  obtain ⟨M, hsettled⟩ := hs.settled
  have hplaces := places_noted hsettled hread hfaults
  have hplain := (Source.read_spelled hread).2
  have hold : ∀ p ∈ Stmt.usesAll [] P, p.1.name ≠ b := by
    intro p hp
    refine huses p.1.reference ?_
    rw [← Stmt.references_usesAll []]
    exact List.mem_map_of_mem hp
  have hknown : ∀ use ∈ Stmt.referencesAll P,
      use.Known (s.noted source P).state.addresses (Scoping.ofProgram P).addresses b := by
    intro use huse
    refine ⟨fun d => ?_, huses use huse⟩
    rw [← Stmt.references_usesAll []] at huse
    obtain ⟨p, hp, rfl⟩ := List.mem_map.mp huse
    exact ((hplaces p hp).recorded d).trans (by rw [← (hplaces p hp).address]; rfl)
  have htop : AllSame [] := fun _ hρ => nomatch hρ
  have hrespells := hrenames.respells hb htop hknown
    (fun t ht => ⟨hplain t ht, hnames t ht⟩) (Source.read_derives hread).branching
    ⟨_, _, hfaults⟩
  have hfound : Scoping.ofProgram P' = Scoping.ofProgram P :=
    Scoping.ofProgram_respelled hb hrespells
      (fun p hp => ⟨(hplaces p hp).address, hold p hp⟩) hnames hfaults
  have hruns : ∀ n,
      let st := s.state.noteAddresses (Scoping.ofProgram P).addresses
      let m := (Machine.ofProgram P st).run n
      let m' := (Machine.ofProgram P' st).run n
      m'.result? = m.result? ∧ m'.state.output = m.state.output :=
    fun n => (hs.run_respelled hread hfaults .same hrespells n).result
  refine ⟨hfound, hruns, fun source' hread' limit => ?_⟩
  have hload : s.load source = (s.noted source P, .ok _) := (Loads.loaded hread hfaults).load
  have hload' : s.load source' = (s.noted source' P', .ok _) :=
    (Loads.loaded hread' (hfound ▸ hfaults)).load
  have hstate : (s.noted source' P').state = (s.noted source P).state :=
    congrArg (fun found : Scoping.Findings => s.state.noteAddresses found.addresses) hfound
  obtain ⟨hresult, houtput⟩ := hruns limit
  have hended : ((Machine.ofProgram P' (s.noted source P).state).run limit).result?
      = ((Machine.ofProgram P (s.noted source P).state).run limit).result? := hresult
  rw [run_of_ok hload, run_of_ok hload', hstate, hended, Option.map_map, Option.map_map]
  exact Option.map_congr fun c _ => conclude_shows c houtput

/-- The program `{ var x = true; fun f() { x = !x; print x; } { var a = f; a(); nil(); } }`, with
this name in the place of `x`. -/
def shadowed (x : String) : List Stmt :=
  let name (text : String) : Token := ⟨.identifier, text, 1⟩
  let paren : Token := ⟨.symbol .rightParen, ")", 1⟩
  [.block [.variableDecl (name x) (some (.literal (.bool true))),
    .functionDecl (.mk (name "f") [] [
      .expression (.assign ⟨2, name x⟩ (.unary ⟨.symbol .bang, "!", 1⟩ (.ident ⟨1, name x⟩))),
      .print (.ident ⟨3, name x⟩)]),
    .block [.variableDecl (name "a") (some (.ident ⟨4, name "f"⟩)),
      .expression (.call (.ident ⟨5, name "a"⟩) paren []),
      .expression (.call (.literal .nil) paren [])]]]

/-- Another `a` shadows the variable where the closure that assigns to it is called. -/
theorem local_names_do_not_show_shadowed :
    ∃ source source', ((fresh .unlimited ⟨0⟩).parse source).1 = .ok (shadowed "a") ∧
      ((fresh .unlimited ⟨0⟩).parse source').1 = .ok (shadowed "b") ∧
      Stmt.OneRenames (Scoping.ofProgram (shadowed "a")).addresses "a" "b" (shadowed "a")
        (shadowed "b") ∧
      Scoping.ofProgram (shadowed "b") = Scoping.ofProgram (shadowed "a") ∧
      ((fresh .unlimited ⟨0⟩).run 50 source').map (fun answer => (answer.2, answer.1.state.output))
        = some (.error (.runtime (.fault .notCallable 1)), ⟨"false\n", 1, none, false⟩) := by
  obtain ⟨source, source', hread, hread', hrun⟩ : ∃ source source',
      ((fresh .unlimited ⟨0⟩).parse source).1 = .ok (shadowed "a") ∧
      ((fresh .unlimited ⟨0⟩).parse source').1 = .ok (shadowed "b") ∧
      ((fresh .unlimited ⟨0⟩).run 50 source).map (fun answer => (answer.2, answer.1.state.output))
        = some (.error (.runtime (.fault .notCallable 1)), ⟨"false\n", 1, none, false⟩) := by
    refine ⟨
      "\x7b var a = true; fun f() \x7b a = !a; print a; \x7d \x7b var a = f; a(); nil(); \x7d \x7d",
      "\x7b var b = true; fun f() \x7b b = !b; print b; \x7d \x7b var a = f; a(); nil(); \x7d \x7d",
      ?_, ?_, ?_⟩ <;> cbv
  have hrenames : Stmt.OneRenames (Scoping.ofProgram (shadowed "a")).addresses "a" "b"
      (shadowed "a") (shadowed "b") :=
    .head [] (.here ⟨_, _, List.mem_cons_self .., rfl⟩)
  obtain ⟨hfound, -, hanswers⟩ := local_names_do_not_show (.fresh .unlimited ⟨0⟩) ⟨0⟩ hread rfl
    (by unfold Plain; decide) (by decide) (by decide) hrenames
  exact ⟨_, _, hread, hread', hrenames, hfound, (hanswers _ hread' 50).trans hrun⟩

end Session

end Lox
