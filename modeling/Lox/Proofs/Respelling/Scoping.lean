import Lox.Proofs.Respelling

/-!
# Scopes under another spelling

If one name is exchanged for a name that occurs nowhere, in some of the scopes, then the static walk
finds the same addresses as before. No use is captured: where it is spelled in the new way, the
scopes further in do not have the new name, and where it is spelled in the old way, the scopes
further in that were respelled do not have the old name any more.
-/

namespace Lox

open Respelling (nearest reached same)

/-! ## Exchanging a name for a new one -/

/-- Either nothing is spelled in another way, or the two names are exchanged. -/
def Respelling.Between (a b : String) (ρ : Respelling) : Prop :=
  ρ.spell = id ∨ ρ.spell = Respelling.swap a b

namespace Respelling.Between

variable {a b : String} {ρ τ : Respelling}

theorem same : same.Between a b := .inl rfl

/-- What two scopes spell in the same way was the same name, or the new one is among them. -/
theorem pull (hρ : ρ.Between a b) (hτ : τ.Between a b) {name : String} (hname : name ≠ b) :
    ∃ other, ρ.spell other = τ.spell name ∧ (other = name ∨ other = b) := by
  have hswap : swap a b name = name ∨ swap a b name = b := by
    by_cases ha : name = a
    · exact .inr (ha ▸ swap_left a b)
    · exact .inl (swap_of_ne ha hname)
  rcases hρ with hρ | hρ <;> rcases hτ with hτ | hτ <;> rw [hρ, hτ]
  · exact ⟨name, rfl, .inl rfl⟩
  · exact ⟨swap a b name, rfl, hswap⟩
  · exact ⟨swap a b name, swap_swap a b name, hswap⟩
  · exact ⟨name, rfl, .inl rfl⟩

/-- A name that is spelled as before is not taken by another one. -/
theorem ne_of_fixed (hρ : ρ.Between a b) (hτ : τ.Between a b) {name other : String}
    (hname : name ≠ b) (hother : other ≠ b) (hfixed : ρ.spell other = other) (hne : name ≠ other) :
    τ.spell name ≠ other := by
  intro heq
  obtain ⟨m, hm, hm'⟩ := hρ.pull hτ hname
  have hsame : m = other := ρ.injective _ _ (hm.trans (heq.trans hfixed.symm))
  rcases hm' with rfl | rfl
  · exact hne hsame
  · exact hother hsame.symm

end Respelling.Between

namespace Scoping

/-! ## Frames -/

/-- A scope with its names spelled in another way. -/
def Frame.respelled (ρ : Respelling) (frame : Frame) : Frame :=
  frame.map fun entry => (ρ.spell entry.1, entry.2)

@[simp] theorem Frame.respelled_cons (ρ : Respelling) (name : String) (ready : Bool)
    (frame : Frame) : Frame.respelled ρ ((name, ready) :: frame)
      = (ρ.spell name, ready) :: frame.respelled ρ := rfl

theorem Frame.lookup_respelled (ρ : Respelling) (frame : Frame) (name : String) :
    (frame.respelled ρ).lookup (ρ.spell name) = frame.lookup name := by
  induction frame with
  | nil => rfl
  | cons entry frame ih =>
      obtain ⟨other, ready⟩ := entry
      rw [respelled_cons]
      by_cases h : name = other
      · rw [h, List.lookup_cons, List.lookup_cons, beq_self_eq_true, beq_self_eq_true]
      · have hspelled : ρ.spell name ≠ ρ.spell other := fun heq => h (ρ.injective _ _ heq)
        rw [lookup_cons_of_ne hspelled, lookup_cons_of_ne h]
        exact ih

@[simp] theorem Frame.has_respelled (ρ : Respelling) (frame : Frame) (name : String) :
    (frame.respelled ρ).has (ρ.spell name) = frame.has name := by
  rw [has, lookup_respelled, has]

theorem Frame.lookup_of_not_has {frame : Frame} {name : String} (h : frame.has name = false) :
    frame.lookup name = none := by
  rwa [has, Option.isSome_eq_false_iff, Option.isNone_iff_eq_none] at h

section

variable {a b : String} {ρ τ : Respelling}

/-- A name that a scope does not have is not there under any spelling. -/
theorem Frame.not_has_respelled (hρ : ρ.Between a b) (hτ : τ.Between a b) {frame : Frame}
    {name : String} (hnew : frame.has b = false) (hname : name ≠ b)
    (hhas : frame.has name = false) : (frame.respelled ρ).has (τ.spell name) = false := by
  obtain ⟨other, hother, hcases⟩ := hρ.pull hτ hname
  rw [← hother, has_respelled]
  rcases hcases with rfl | rfl
  · exact hhas
  · exact hnew

end

/-! ## Rows of scopes -/

/-- Scopes with their names spelled in these ways. -/
def Scopes.respelled (E : List Respelling) (scopes : Scopes) : Scopes :=
  List.zipWith Frame.respelled E scopes

/-- The scopes are spelled in these ways, and none of them has the new name. -/
inductive Scopes.Awaits (a b : String) : List Respelling → Scopes → Prop where
  | nil : Awaits a b [] []
  | cons {ρ : Respelling} {E : List Respelling} {frame : Frame} {scopes : Scopes} :
      ρ.Between a b → frame.has b = false → Awaits a b E scopes →
      Awaits a b (ρ :: E) (frame :: scopes)

theorem Frame.not_has_cons {frame : Frame} {name other : String} (h : frame.has other = false)
    (hne : name ≠ other) (ready : Bool) : Frame.has ((name, ready) :: frame) other = false := by
  rw [has, lookup_cons_of_ne hne.symm]
  exact h

namespace Scopes.Awaits

variable {a b : String} {E : List Respelling} {scopes : Scopes}

theorem reached (h : Awaits a b E scopes) (address : Option Nat) :
    (reached E address).Between a b := by
  cases address with
  | none => exact .same
  | some distance =>
      induction h generalizing distance with
      | nil => exact .same
      | cons hρ _ _ ih =>
          cases distance with
          | zero => exact hρ
          | succ distance => exact ih distance

theorem nearest (h : Awaits a b E scopes) : (nearest E).Between a b := h.reached (some 0)

variable {site : Site}

theorem atDeclared (h : Awaits a b E site.scopes) {name : String} (hname : name ≠ b) :
    Awaits a b E (site.declare name).scopes := by
  rw [Site.scopes_declare]
  generalize site.scopes = scopes at h
  cases h with
  | nil => exact .nil
  | cons hρ hnew houter =>
      refine .cons hρ ?_ houter
      split
      · exact hnew
      · exact Frame.not_has_cons hnew hname false

theorem atDefined (h : Awaits a b E site.scopes) {name : String} (hname : name ≠ b) :
    Awaits a b E (site.define name).scopes := by
  rw [Site.scopes_define]
  generalize site.scopes = scopes at h
  cases h with
  | nil => exact .nil
  | cons hρ hnew houter => exact .cons hρ (Frame.not_has_cons hnew hname true) houter

theorem atAfter (h : Awaits a b E site.scopes) {s : Stmt}
    (hname : ∀ t, declaredName? s = some t → t.lexeme ≠ b) :
    Awaits a b E (site.after s).scopes := by
  unfold Site.after
  cases hdeclared : declaredName? s with
  | none => exact h
  | some t => exact h.atDefined (hname t hdeclared)

end Scopes.Awaits

section

variable {a b : String} {E : List Respelling} {scopes : Scopes}

theorem declare_respelled (h : scopes.Awaits a b E) (name : String) :
    declare (scopes.respelled E) ((nearest E).spell name) = (declare scopes name).respelled E := by
  cases h with
  | nil => rfl
  | @cons ρ E frame outer _ _ _ =>
      show (if (frame.respelled ρ).has (ρ.spell name) then _ else _) :: _ = _
      rw [Frame.has_respelled]
      show _ = (if frame.has name then frame else (name, false) :: frame).respelled ρ :: _
      split <;> rfl

theorem define_respelled (h : scopes.Awaits a b E) (name : String) :
    define (scopes.respelled E) ((nearest E).spell name) = (define scopes name).respelled E := by
  cases h <;> rfl

theorem after_respelled {A : Addresses} {Ways : Respelling → Prop} (h : scopes.Awaits a b E)
    {s s' : Stmt} (hs : s.Respells A Ways E s') :
    after (scopes.respelled E) s' = (after scopes s).respelled E := by
  unfold after
  rw [hs.declaredName?]
  cases declaredName? s with
  | none => rfl
  | some name => exact define_respelled h name.lexeme

/-! ## Addresses -/

/-- A name that is spelled as the scope is that has it is found there, and nowhere further in. -/
theorem addressOf?_respelled (h : scopes.Awaits a b E) {name : String} (hname : name ≠ b) :
    addressOf? (scopes.respelled E) ((reached E (addressOf? scopes name)).spell name)
      = addressOf? scopes name := by
  induction h with
  | nil => rfl
  | @cons ρ E frame outer hρ hnew houter ih =>
      have hcons : ∀ (frame : Frame) (outer : Scopes) (name : String),
          addressOf? (frame :: outer) name
            = if frame.has name then some 0 else (addressOf? outer name).map (· + 1) :=
        fun frame outer name => List.findIdx?_cons
      have hrow : Scopes.respelled (ρ :: E) (frame :: outer)
          = frame.respelled ρ :: outer.respelled E := rfl
      rw [hrow, hcons, hcons]
      cases hhas : frame.has name with
      | true =>
          rw [if_pos rfl]
          exact if_pos ((Frame.has_respelled ρ frame name).trans hhas)
      | false =>
          rw [if_neg Bool.false_ne_true, Respelling.reached_cons, ih]
          have houter' := houter.reached (addressOf? outer name)
          have hnot := Frame.not_has_respelled hρ houter' hnew hname hhas
          rw [hnot, if_neg Bool.false_ne_true]

end

/-- What is known about a use in a program without faults that does not have the new name. -/
structure Clear (A : Addresses) (b : String) (p : Use × Site) : Prop where
  address : A[p.1.reference.id]? = addressOf? p.2.scopes p.1.name
  old : p.1.name ≠ b

section

variable {A : Addresses} {a b : String} {E : List Respelling} {site : Site}

theorem locating_respelled (h : site.scopes.Awaits a b E) {k : Use.Kind} {use : Reference}
    (huse : Clear A b (⟨k, use⟩, site)) :
    locating (site.scopes.respelled E) (use.respelled A E) = locating site.scopes use := by
  have hname : (use.respelled A E).name.lexeme
      = (reached E (addressOf? site.scopes use.name.lexeme)).spell use.name.lexeme :=
    Reference.respelled_lexeme huse.address
  have hold : use.name.lexeme ≠ b := huse.old
  unfold locating
  rw [hname, addressOf?_respelled h hold, Reference.respelled_id]

/-- A name that may be read may still be read. -/
theorem reading_respelled (h : site.scopes.Awaits a b E) {k : Use.Kind} {use : Reference}
    (huse : Clear A b (⟨k, use⟩, site)) (hfaults : (reading site.scopes use).faults = []) :
    reading (site.scopes.respelled E) (use.respelled A E) = reading site.scopes use := by
  have hlocating := locating_respelled h huse
  have haddress : A[use.id]? = addressOf? site.scopes use.name.lexeme := huse.address
  have hold : use.name.lexeme ≠ b := huse.old
  unfold reading at hfaults ⊢
  obtain ⟨hready, hnothing⟩ := Accepts.of_faultIf (faults_of_append hfaults).1
  have hready' : ((site.scopes.respelled E).head?.any
      (·.lookup (use.respelled A E).name.lexeme == some false)) = false := by
    generalize site.scopes = scopes at h hready haddress
    cases h with
    | nil => rfl
    | @cons ρ E frame outer hρ hnew houter =>
        show ((frame.respelled ρ).lookup ((reached (ρ :: E) A[use.id]?).spell use.name.lexeme)
          == some false) = false
        cases hhas : frame.has use.name.lexeme with
        | true =>
            -- the name is spelled as this scope is
            have hhere : A[use.id]? = some 0 := by
              rw [haddress, addressOf?, List.findIdx?_cons, if_pos hhas]
            rw [hhere]
            exact (congrArg (· == some false) (Frame.lookup_respelled ρ frame _)).trans hready
        | false =>
            have hreached := (Scopes.Awaits.cons hρ hnew houter).reached A[use.id]?
            have hnot := Frame.not_has_respelled hρ hreached hnew hold hhas
            rw [Frame.lookup_of_not_has hnot]
            rfl
  rw [Findings.faultIf, if_neg (by rw [hready']; exact Bool.false_ne_true), hnothing, hlocating]

/-! ## Expressions -/

theorem Findings.append_congr {found found' rest rest' : Findings} (h : found' = found)
    (hrest : rest' = rest) : found' ++ rest' = found ++ rest := by
  rw [h, hrest]

variable {context : ClassContext}

mutual

theorem ofExpr_respelled (h : site.scopes.Awaits a b E) : ∀ e : Expr,
    (∀ u ∈ e.uses, Clear A b (u, site)) → (ofExpr context site.scopes e).faults = [] →
      ofExpr context (site.scopes.respelled E) (e.respelled A E) = ofExpr context site.scopes e
  | .literal _, _, _ => rfl
  | .unary _ operand, huses, hfaults => ofExpr_respelled h operand huses hfaults
  | .binary left _ right, huses, hfaults => by
      have huses' := List.forall_mem_append.mp huses
      have hfaults' := faults_of_append hfaults
      have hleft := ofExpr_respelled h left huses'.1 hfaults'.1
      have hright := ofExpr_respelled h right huses'.2 hfaults'.2
      exact Findings.append_congr hleft hright
  | .logical left _ right, huses, hfaults => by
      have huses' := List.forall_mem_append.mp huses
      have hfaults' := faults_of_append hfaults
      have hleft := ofExpr_respelled h left huses'.1 hfaults'.1
      have hright := ofExpr_respelled h right huses'.2 hfaults'.2
      exact Findings.append_congr hleft hright
  | .grouping inner, huses, hfaults => ofExpr_respelled h inner huses hfaults
  | .ident use, huses, hfaults => reading_respelled h (huses _ (List.mem_singleton_self _)) hfaults
  | .assign use value, huses, hfaults => by
      have huses' := List.forall_mem_append.mp huses
      have hvalue := ofExpr_respelled h value huses'.1 (faults_of_append hfaults).1
      have huse := locating_respelled h (huses'.2 _ (List.mem_singleton_self _))
      exact Findings.append_congr hvalue huse
  | .call callee _ arguments, huses, hfaults => by
      have huses' := List.forall_mem_append.mp huses
      have hfaults' := faults_of_append hfaults
      have hcallee := ofExpr_respelled h callee huses'.1 hfaults'.1
      have harguments := ofExprs_respelled h arguments huses'.2 hfaults'.2
      exact Findings.append_congr hcallee harguments
  | .get object _, huses, hfaults => ofExpr_respelled h object huses hfaults
  | .set object _ value, huses, hfaults => by
      have huses' := List.forall_mem_append.mp huses
      have hfaults' := faults_of_append hfaults
      have hvalue := ofExpr_respelled h value huses'.1 hfaults'.1
      have hobject := ofExpr_respelled h object huses'.2 hfaults'.2
      exact Findings.append_congr hvalue hobject
  | .this use, huses, hfaults => by
      have huse := locating_respelled h (huses _ (List.mem_singleton_self _))
      cases context with
      | none => exact nomatch hfaults
      | _ => exact huse
  | .super use _, huses, hfaults => by
      have huse := locating_respelled h (huses _ (List.mem_singleton_self _))
      cases context with
      | withSuperclass => exact huse
      | _ => exact nomatch hfaults

theorem ofExprs_respelled (h : site.scopes.Awaits a b E) : ∀ es : List Expr,
    (∀ u ∈ Expr.usesAll es, Clear A b (u, site)) →
      (ofExprs context site.scopes es).faults = [] →
      ofExprs context (site.scopes.respelled E) (Expr.mapUsesAll (Reference.respelled A E) es)
        = ofExprs context site.scopes es
  | [], _, _ => rfl
  | e :: es, huses, hfaults => by
      have huses' := List.forall_mem_append.mp huses
      have hfaults' := faults_of_append hfaults
      have hfirst := ofExpr_respelled h e huses'.1 hfaults'.1
      have hrest := ofExprs_respelled h es huses'.2 hfaults'.2
      exact Findings.append_congr hfirst hrest

end

theorem ofExprAt_respelled (h : site.scopes.Awaits a b E) {e : Expr}
    (huses : ∀ p ∈ e.usesAt site, Clear A b p)
    (hfaults : (ofExpr context site.scopes e).faults = []) :
    ofExpr context (site.scopes.respelled E) (e.respelled A E) = ofExpr context site.scopes e :=
  ofExpr_respelled h e (fun _ hu => huses _ (List.mem_map_of_mem hu)) hfaults

theorem ofExpr?_respelled (h : site.scopes.Awaits a b E) {value : Option Expr}
    (huses : ∀ p ∈ value.elim [] (Expr.usesAt site), Clear A b p)
    (hfaults : (ofExpr? context site.scopes value).faults = []) :
    ofExpr? context (site.scopes.respelled E) (value.map (Expr.respelled A E))
      = ofExpr? context site.scopes value := by
  cases value with
  | none => rfl
  | some e => exact ofExprAt_respelled h huses hfaults

/-! ## Statements -/

/-- A declaration without a fault is one in the other spelling too. -/
theorem declaring_respelled (h : site.scopes.Awaits a b E) {name : Token}
    (hfaults : (declaring site.scopes name).faults = []) :
    declaring (site.scopes.respelled E) (name.respelled (nearest E))
      = declaring site.scopes name := by
  unfold declaring at hfaults ⊢
  obtain ⟨hnone, hnothing⟩ := Accepts.of_faultIf hfaults
  have hsame : (site.scopes.respelled E).head?.any (·.has (name.respelled (nearest E)).lexeme)
      = site.scopes.head?.any (·.has name.lexeme) := by
    generalize site.scopes = scopes at h
    cases h with
    | nil => rfl
    | @cons ρ E frame outer _ _ _ => exact Frame.has_respelled ρ frame name.lexeme
  rw [hnothing, hsame, hnone]
  rfl

/-- The superclass of a class is looked up when the name of the class is there already. -/
theorem ofSuperclass_respelled (h : site.scopes.Awaits a b E) {name : Token}
    (hfixed : (nearest E).spell name.lexeme = name.lexeme) (hname : name.lexeme ≠ b)
    {use : Reference} (huse : Clear A b (⟨.read, use⟩, site))
    (hfaults : (ofSuperclass (site.define name.lexeme).scopes name (some use)).faults = []) :
    ofSuperclass ((site.define name.lexeme).scopes.respelled E) name (some (use.respelled A E))
      = ofSuperclass (site.define name.lexeme).scopes name (some use) := by
  obtain ⟨hitself, hreading⟩ := faults_of_append hfaults
  obtain ⟨hother, hnothing⟩ := Accepts.of_faultIf hitself
  have hne : use.name.lexeme ≠ name.lexeme := by simpa using hother
  have hne' : (use.respelled A E).name.lexeme ≠ name.lexeme :=
    h.nearest.ne_of_fixed (h.reached A[use.id]?) huse.old hname hfixed hne
  have haddress : addressOf? (site.define name.lexeme).scopes use.name.lexeme
      = addressOf? site.scopes use.name.lexeme := by
    rw [Site.scopes_define, addressOf?_define hne]
  have hread := reading_respelled (k := .read) (h.atDefined hname)
    ⟨huse.address.trans haddress.symm, huse.old⟩ hreading
  refine Findings.append_congr ?_ hread
  rw [hnothing, beq_false_of_ne hne']
  rfl

/-- Parameters without a fault are so in the other spelling too. -/
theorem enterParams_respelled (ρ : Respelling) : ∀ {frame : Frame} {params : List Token},
    (enterParams frame params).2.faults = [] →
      enterParams (frame.respelled ρ) (params.map (Token.respelled ρ))
        = ((enterParams frame params).1.respelled ρ, .nothing)
  | _, [], _ => rfl
  | frame, p :: params, hfaults => by
      obtain ⟨hfirst, hrest⟩ := faults_of_append hfaults
      obtain ⟨hhas, -⟩ := Accepts.of_faultIf hfirst
      have ih := enterParams_respelled ρ hrest
      have hname : (p.respelled ρ).lexeme = ρ.spell p.lexeme := rfl
      rw [Frame.respelled_cons] at ih
      simp only [List.map_cons, enterParams, hname, Frame.has_respelled, hhas, ih]
      rfl

theorem enterParams_not_has {b : String} : ∀ {frame : Frame} {params : List Token},
    frame.has b = false → (∀ p ∈ params, p.lexeme ≠ b) →
      (enterParams frame params).1.has b = false
  | _, [], hframe, _ => hframe
  | frame, p :: params, hframe, hparams => by
      have hparams' := List.forall_mem_cons.mp hparams
      show (enterParams ((p.lexeme, true) :: frame) params).1.has b = false
      exact enterParams_not_has (Frame.not_has_cons hframe hparams'.1 true) hparams'.2

end

section

variable {A : Addresses} {a b : String}

/-- A scope that is there for a special name only. -/
theorem Scopes.Awaits.special {E : List Respelling} {scopes : Scopes} (h : scopes.Awaits a b E)
    {name : String} (hname : name ≠ b) : Awaits a b (same :: E) ([(name, true)] :: scopes) :=
  .cons .same (Frame.not_has_cons rfl hname true) h

mutual

theorem ofStmt_respelled (hb : Plain b) : ∀ {context : Context} {site : Site}
    {E : List Respelling} {s s' : Stmt}, s.Respells A (Respelling.Between a b) E s' →
    site.scopes.Awaits a b E → (∀ p ∈ s.uses site, Clear A b p) →
    (∀ t ∈ s.names, t.lexeme ≠ b) → (ofStmt context site.scopes s).faults = [] →
      ofStmt context (site.scopes.respelled E) s' = ofStmt context site.scopes s
  | _, _, _, _, _, .expression _, h, huses, _, hfaults =>
      ofExprAt_respelled h huses hfaults
  | _, _, _, _, _, .print _, h, huses, _, hfaults =>
      ofExprAt_respelled h huses hfaults
  | _, site, E, _, _, .variableDecl name value, h, huses, hnames, hfaults => by
      have hname : name.lexeme ≠ b := hnames name (List.mem_singleton_self _)
      obtain ⟨hdeclaring, hvalue⟩ := faults_of_append hfaults
      rw [← Site.scopes_declare] at hvalue
      have hinner := ofExpr?_respelled (h.atDeclared hname) huses hvalue
      rw [Site.scopes_declare, ← declare_respelled h] at hinner
      exact Findings.append_congr (declaring_respelled h hdeclaring) hinner
  | context, site, E, .block body, _, .block hρ hbody, h, huses, hnames, hfaults => by
      have hinside : (Site.scopes ((.block body, []) :: site)).Awaits a b _ := .cons hρ rfl h
      exact ofStmts_respelled hb hbody hinside huses hnames hfaults
  | _, _, _, _, _, .ifThen condition hyes, h, huses, hnames, hfaults => by
      obtain ⟨hcondition, hbranch⟩ := faults_of_append hfaults
      have huses' := List.forall_mem_append.mp huses
      exact Findings.append_congr (ofExprAt_respelled h huses'.1 hcondition)
        (ofStmt_respelled hb hyes h huses'.2 hnames hbranch)
  | _, _, _, _, _, .ifElse condition hyes hno, h, huses, hnames, hfaults => by
      obtain ⟨hthen, helse⟩ := faults_of_append hfaults
      obtain ⟨hcondition, hbranch⟩ := faults_of_append hthen
      have huses' := List.forall_mem_append.mp huses
      have hbranches := List.forall_mem_append.mp huses'.2
      have hnames' := List.forall_mem_append.mp hnames
      refine Findings.append_congr (Findings.append_congr ?_ ?_) ?_
      · exact ofExprAt_respelled h huses'.1 hcondition
      · exact ofStmt_respelled hb hyes h hbranches.1 hnames'.1 hbranch
      · exact ofStmt_respelled hb hno h hbranches.2 hnames'.2 helse
  | _, _, _, _, _, .loop condition hbody, h, huses, hnames, hfaults => by
      obtain ⟨hcondition, hloop⟩ := faults_of_append hfaults
      have huses' := List.forall_mem_append.mp huses
      exact Findings.append_congr (ofExprAt_respelled h huses'.1 hcondition)
        (ofStmt_respelled hb hbody h huses'.2 hnames hloop)
  | _, site, E, .functionDecl f, .functionDecl f', .functionDecl hfixed hf, h, huses, hnames,
      hfaults => by
      have hname : f.name.lexeme ≠ b := hnames _ (Stmt.declaredName_mem rfl)
      obtain ⟨hdeclaring, hbody⟩ := faults_of_append hfaults
      rw [← Site.scopes_define] at hbody
      have hdefined := h.atDefined hname
      have hdeclared := declaring_respelled h hdeclaring
      rw [Token.respelled_of_eq hfixed] at hdeclared
      have hinner := ofFunction_respelled hb hf hdefined huses hnames hbody
      rw [Site.scopes_define, ← define_respelled h, hfixed] at hinner
      rw [ofStmt, hf.name]
      exact Findings.append_congr hdeclared hinner
  | _, _, _, _, _, .giveBack keyword value, h, huses, _, hfaults => by
      have hvalue := ofExpr?_respelled h huses (faults_of_append hfaults).2
      refine Findings.append_congr ?_ hvalue
      rw [Option.isSome_map]
  | _, site, E, .classDecl name _ _, _, .plainClass hfixed hmethods, h, huses, hnames, hfaults => by
      have hnames' := List.forall_mem_cons.mp hnames
      have hdefined := h.atDefined hnames'.1
      obtain ⟨hhead, hbodies⟩ := faults_of_append hfaults
      have hdeclared := declaring_respelled h (faults_of_append hhead).1
      rw [Token.respelled_of_eq hfixed] at hdeclared
      rw [← Site.scopes_define] at hbodies
      have hinner := ofMethods_respelled hb hmethods hdefined huses hnames'.2 hbodies
      rw [Site.scopes_define, ← define_respelled h, hfixed] at hinner
      exact Findings.append_congr (Findings.append_congr hdeclared rfl) hinner
  | _, site, E, .classDecl name _ methods, _, .subclass superclass hfixed hmethods, h, huses,
      hnames, hfaults => by
      have hnames' := List.forall_mem_cons.mp hnames
      have huses' := List.forall_mem_cons.mp huses
      have hdefined := h.atDefined hnames'.1
      have hinside : ((site.define name.lexeme).inClass (some superclass) methods).scopes.Awaits a b
          (same :: E) := hdefined.special hb.2.symm
      have hrow : ((site.define name.lexeme).inClass (some superclass) methods).scopes
          = [("super", true)] :: define site.scopes name.lexeme :=
        congrArg (_ :: ·) (site.scopes_define name.lexeme)
      have hrow' :
          Scopes.respelled (same :: E) ([("super", true)] :: define site.scopes name.lexeme)
            = [("super", true)]
              :: define (site.scopes.respelled E) ((nearest E).spell name.lexeme) :=
        congrArg (_ :: ·) (define_respelled h name.lexeme).symm
      obtain ⟨hhead, hbodies⟩ := faults_of_append hfaults
      obtain ⟨hdeclaring, hsuperclass⟩ := faults_of_append hhead
      have hdeclared := declaring_respelled h hdeclaring
      rw [Token.respelled_of_eq hfixed] at hdeclared
      rw [← Site.scopes_define] at hsuperclass hbodies
      have hparent := ofSuperclass_respelled h hfixed hnames'.1 huses'.1 hsuperclass
      rw [Site.scopes_define, ← define_respelled h, hfixed] at hparent
      have hinner := ofMethods_respelled hb hmethods hinside huses'.2 hnames'.2 hbodies
      rw [hrow, hrow', hfixed] at hinner
      exact Findings.append_congr (Findings.append_congr hdeclared hparent) hinner

theorem ofStmts_respelled (hb : Plain b) : ∀ {context : Context} {site : Site}
    {E : List Respelling} {ss ss' : List Stmt},
    Stmt.AllRespell A (Respelling.Between a b) E ss ss' → site.scopes.Awaits a b E →
    (∀ p ∈ Stmt.usesAll site ss, Clear A b p) → (∀ t ∈ Stmt.namesAll ss, t.lexeme ≠ b) →
    (ofStmts context site.scopes ss).faults = [] →
      ofStmts context (site.scopes.respelled E) ss' = ofStmts context site.scopes ss
  | _, _, _, _, _, .nil, _, _, _, _ => rfl
  | _, site, E, s :: _, _, .cons hs hss, h, huses, hnames, hfaults => by
      obtain ⟨hfirst, hrest⟩ := faults_of_append hfaults
      have huses' := List.forall_mem_append.mp huses
      have hnames' := List.forall_mem_append.mp hnames
      rw [← Site.scopes_after] at hrest
      have hafter := h.atAfter fun t ht => hnames'.1 t (Stmt.declaredName_mem ht)
      have hfollowing := ofStmts_respelled hb hss hafter huses'.2 hnames'.2 hrest
      rw [Site.scopes_after, ← after_respelled h hs] at hfollowing
      exact Findings.append_congr (ofStmt_respelled hb hs h huses'.1 hnames'.1 hfirst) hfollowing

theorem ofFunction_respelled (hb : Plain b) : ∀ {context : Context} {site : Site}
    {E : List Respelling} {f f' : Function}, f.Respells A (Respelling.Between a b) E f' →
    site.scopes.Awaits a b E → (∀ p ∈ f.uses site, Clear A b p) →
    (∀ t ∈ f.names, t.lexeme ≠ b) → (ofFunction context site.scopes f).faults = [] →
      ofFunction context (site.scopes.respelled E) f' = ofFunction context site.scopes f
  | context, site, _, .mk name params body, _, .mk _ _ hρ hbody, h, huses, hnames, hfaults => by
      obtain ⟨hparams, hinner⟩ := faults_of_append hfaults
      have hnames' := List.forall_mem_append.mp (List.forall_mem_cons.mp hnames).2
      have hinside : (site.inFunction (.mk name params body)).scopes.Awaits a b _ :=
        .cons hρ (enterParams_not_has rfl hnames'.1) h
      have hfollowing := ofStmts_respelled hb hbody hinside huses hnames'.2 hinner
      rw [ofFunction, ofFunction, enterParams_nothing hparams]
      rw [show enterParams [] (params.map (Token.respelled _)) = _ from
        enterParams_respelled _ hparams]
      exact congrArg (Findings.nothing ++ ·) hfollowing

theorem ofMethods_respelled (hb : Plain b) : ∀ {inClass : ClassContext} {site : Site}
    {E : List Respelling} {fs fs' : List Function},
    Function.AllRespell A (Respelling.Between a b) E fs fs' → site.scopes.Awaits a b E →
    (∀ p ∈ Function.usesAll site fs, Clear A b p) → (∀ t ∈ Function.namesAll fs, t.lexeme ≠ b) →
    (ofMethods inClass ([("this", true)] :: site.scopes) fs).faults = [] →
      ofMethods inClass ([("this", true)] :: site.scopes.respelled E) fs'
        = ofMethods inClass ([("this", true)] :: site.scopes) fs
  | _, _, _, _, _, .nil, _, _, _, _ => rfl
  | _, site, _, f :: _, _, .cons hf hfs, h, huses, hnames, hfaults => by
      obtain ⟨hfirst, hrest⟩ := faults_of_append hfaults
      have huses' := List.forall_mem_append.mp huses
      have hnames' := List.forall_mem_append.mp hnames
      have hinside : (site.inReceiver f).scopes.Awaits a b _ := h.special hb.1.symm
      have hmethod := ofFunction_respelled hb hf hinside huses'.1 hnames'.1 hfirst
      rw [ofMethods, ofMethods]
      refine Findings.append_congr ?_ (ofMethods_respelled hb hfs h huses'.2 hnames'.2 hrest)
      rw [methodContext, hf.isNamedInitializer]
      exact hmethod

end

/-- The walk through a respelled program finds what it finds in the program. -/
theorem ofProgram_respelled (hb : Plain b) {P P' : List Stmt}
    (h : Stmt.AllRespell A (Respelling.Between a b) [] P P')
    (huses : ∀ p ∈ Stmt.usesAll [] P, Clear A b p) (hnames : ∀ t ∈ Stmt.namesAll P, t.lexeme ≠ b)
    (hfaults : (ofProgram P).faults = []) : ofProgram P' = ofProgram P := by
  have hnone : (Site.scopes []).Awaits a b [] := .nil
  have hwalk : (ofStmts ⟨.none, .none⟩ (Site.scopes []) P).faults = [] := hfaults
  exact ofStmts_respelled hb h hnone huses hnames hwalk

end

end Scoping

end Lox
