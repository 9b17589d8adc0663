import Lox.Proofs.Scopes.Shapes

/-!
# The method around a use

The uses in the body of a method belong to it, also those in functions nested in it, but not those in
the methods of a class nested in it, which belong to these. Every use in a program that has a method
around it belongs to the innermost one, and the address of `this` leads to the region around that
method, and the address of `super` to the next one.
-/

namespace Lox

namespace Region

def isReceiver : Region → Bool
  | receiver _ => true
  | _ => false

def isParent : Region → Bool
  | parent _ => true
  | _ => false

end Region

/-! ## Uses that belong to a method -/

mutual

/-- The uses in a statement that belong to the method around it, each with the number of regions to
leave to come to the one of `this`. From the statement there are `depth`. -/
def Stmt.ownUses (depth : Nat) : Stmt → List (Use × Nat)
  | .expression e => e.uses.map fun u => (u, depth)
  | .print e => e.uses.map fun u => (u, depth)
  | .variableDecl _ value => value.elim [] fun e => e.uses.map fun u => (u, depth)
  | .block body => Stmt.allOwnUses (depth + 1) body
  | .conditional condition yes none =>
    condition.uses.map (fun u => (u, depth)) ++ yes.ownUses depth
  | .conditional condition yes (some no) =>
    condition.uses.map (fun u => (u, depth)) ++ (yes.ownUses depth ++ no.ownUses depth)
  | .loop condition body => condition.uses.map (fun u => (u, depth)) ++ body.ownUses depth
  | .functionDecl declared => declared.ownUses depth
  | .giveBack _ value => value.elim [] fun e => e.uses.map fun u => (u, depth)
  | .classDecl _ superclass _ => superclass.toList.map fun use => (⟨.read, use⟩, depth)

def Stmt.allOwnUses (depth : Nat) : List Stmt → List (Use × Nat)
  | [] => []
  | s :: ss => s.ownUses depth ++ Stmt.allOwnUses depth ss

def Function.ownUses (depth : Nat) : Function → List (Use × Nat)
  | .mk _ _ body => Stmt.allOwnUses (depth + 1) body

end

/-- The innermost method around the site is this one, and this is the distance of its `this`. -/
structure Site.InMethod (site : Site) (depth : Nat) (method : Function) : Prop where
  region : site.regions[depth]? = some (.receiver method)
  innermost : ∀ i, i < depth → ∀ other, site.regions[i]? ≠ some (.receiver other)

namespace Site.InMethod

variable {site site' : Site} {depth depth' : Nat} {method method' : Function}

theorem unique (h : site.InMethod depth method) (h' : site.InMethod depth' method') :
    depth = depth' ∧ method = method' := by
  have hdepth : depth = depth' := by
    rcases Nat.lt_trichotomy depth depth' with hlt | heq | hgt
    · exact absurd h.region (h'.innermost depth hlt method)
    · exact heq
    · exact absurd h'.region (h.innermost depth' hgt method')
  subst hdepth
  have hregion := h.region.symm.trans h'.region
  cases hregion
  exact ⟨rfl, rfl⟩

theorem of_regions (h : site.InMethod depth method) (hregions : site'.regions = site.regions) :
    site'.InMethod depth method := by
  obtain ⟨hregion, hinnermost⟩ := h
  rw [← hregions] at hregion hinnermost
  exact ⟨hregion, hinnermost⟩

/-- Around a method, the innermost one is the method itself. -/
theorem receiver (site : Site) (method : Function) : (site.inReceiver method).InMethod 0 method :=
  ⟨rfl, fun i hi => absurd hi (Nat.not_lt_zero i)⟩

section

variable {entry : Region × Scoping.Frame} (hentry : entry.1.isReceiver = false)

include hentry

theorem cons (h : site.InMethod depth method) :
    Site.InMethod (entry :: site) (depth + 1) method := by
  refine ⟨h.region, fun i hi other hother => ?_⟩
  cases i with
  | zero =>
      have hregion : entry.1 = .receiver other := Option.some.inj hother
      rw [hregion] at hentry
      exact nomatch hentry
  | succ i => exact h.innermost i (Nat.lt_of_succ_lt_succ hi) other hother

theorem of_cons (h : Site.InMethod (entry :: site) depth method) :
    ∃ outer, depth = outer + 1 ∧ site.InMethod outer method := by
  cases depth with
  | zero =>
      have hregion : entry.1 = .receiver method := Option.some.inj h.region
      rw [hregion] at hentry
      exact nomatch hentry
  | succ outer =>
      exact ⟨outer, rfl, h.region, fun i hi other hother =>
        h.innermost (i + 1) (Nat.succ_lt_succ hi) other hother⟩

end

end Site.InMethod

/-! ### Every use belongs to the innermost method -/

/-- The use belongs to the innermost method around it, or to the code that these uses are of. -/
def Use.Owned (site : Site) (own : Nat → List (Use × Nat)) (p : Use × Site) : Prop :=
  ∀ depth method, p.2.InMethod depth method →
    (p.1, depth) ∈ method.ownUses 0 ∨ ∃ k, site.InMethod k method ∧ (p.1, depth) ∈ own k

namespace Use.Owned

variable {site : Site} {own own' : Nat → List (Use × Nat)} {p : Use × Site}

theorem imp {site' : Site} (h : Use.Owned site own p)
    (hmoves : ∀ k method entry, site.InMethod k method → entry ∈ own k →
      ∃ k', site'.InMethod k' method ∧ entry ∈ own' k') : Use.Owned site' own' p := by
  intro depth method hmethod
  rcases h depth method hmethod with hinner | ⟨k, hk, hmem⟩
  · exact .inl hinner
  · exact .inr (hmoves k method _ hk hmem)

theorem mono (h : Use.Owned site own p) (hown : ∀ k, own k ⊆ own' k) : Use.Owned site own' p :=
  h.imp fun k _ _ hk hmem => ⟨k, hk, hown k hmem⟩

/-- A region between the code and the method. -/
theorem of_cons {entry : Region × Scoping.Frame} (hentry : entry.1.isReceiver = false)
    (h : Use.Owned (entry :: site) own p) : Use.Owned site (fun k => own (k + 1)) p := by
  refine h.imp fun k method use hk hmem => ?_
  obtain ⟨outer, rfl, houter⟩ := hk.of_cons hentry
  exact ⟨outer, houter, hmem⟩

theorem of_regions {site' : Site} (hregions : site'.regions = site.regions)
    (h : Use.Owned site' own p) : Use.Owned site own p :=
  h.imp fun k _ _ hk hmem => ⟨k, hk.of_regions hregions.symm, hmem⟩

end Use.Owned

theorem Expr.uses_owned {site site' : Site} (e : Expr) (hregions : site'.regions = site.regions) :
    ∀ p ∈ e.usesAt site', Use.Owned site (fun k => e.uses.map fun u => (u, k)) p := by
  intro p hp depth method hmethod
  obtain ⟨u, hu, rfl⟩ := List.mem_map.mp hp
  exact .inr ⟨depth, hmethod.of_regions hregions.symm, List.mem_map.mpr ⟨u, hu, rfl⟩⟩

mutual

theorem Stmt.uses_owned : ∀ {site : Site} (s : Stmt),
    ∀ p ∈ s.uses site, Use.Owned site s.ownUses p
  | _, .expression e => e.uses_owned rfl
  | _, .print e => e.uses_owned rfl
  | site, .variableDecl name value => by
      cases value with
      | none => exact fun p hp => nomatch hp
      | some e => exact e.uses_owned (site.regions_declare name.lexeme)
  | _, .block body => fun p hp => (Stmt.usesAll_owned body p hp).of_cons rfl
  | _, .conditional condition yes none =>
      forall_mem_append
        (fun p hp => (condition.uses_owned rfl p hp).mono fun _ => List.subset_append_left _ _)
        (fun p hp => (Stmt.uses_owned yes p hp).mono fun _ => List.subset_append_right _ _)
  | _, .conditional condition yes (some no) =>
      forall_mem_append
        (fun p hp => (condition.uses_owned rfl p hp).mono fun _ => List.subset_append_left _ _)
        (forall_mem_append
          (fun p hp => (Stmt.uses_owned yes p hp).mono fun _ _ hu =>
            List.mem_append_right _ (List.mem_append_left _ hu))
          (fun p hp => (Stmt.uses_owned no p hp).mono fun _ _ hu =>
            List.mem_append_right _ (List.mem_append_right _ hu)))
  | _, .loop condition body =>
      forall_mem_append
        (fun p hp => (condition.uses_owned rfl p hp).mono fun _ => List.subset_append_left _ _)
        (fun p hp => (Stmt.uses_owned body p hp).mono fun _ => List.subset_append_right _ _)
  -- its name is ready in the body, but the regions are the same
  | site, .functionDecl declared => fun p hp =>
      (Function.uses_owned declared p hp).of_regions (site.regions_define declared.name.lexeme)
  | _, .giveBack _ value => by
      cases value with
      | none => exact fun p hp => nomatch hp
      | some e => exact e.uses_owned rfl
  | _, .classDecl name superclass methods => by
      refine forall_mem_append (fun p hp depth method hmethod => ?_) fun p hp depth method hmethod => ?_
      · obtain ⟨use, huse, rfl⟩ := List.mem_map.mp hp
        exact .inr ⟨depth, hmethod, List.mem_map.mpr ⟨use, huse, rfl⟩⟩
      · exact .inl (Function.usesAll_owned methods p hp depth method hmethod)

theorem Stmt.usesAll_owned : ∀ {site : Site} (ss : List Stmt),
    ∀ p ∈ Stmt.usesAll site ss, Use.Owned site (fun k => Stmt.allOwnUses k ss) p
  | _, [] => fun _ hp => nomatch hp
  | site, s :: ss =>
      forall_mem_append
        (fun p hp => (Stmt.uses_owned s p hp).mono fun _ => List.subset_append_left _ _)
        (fun p hp => ((Stmt.usesAll_owned ss p hp).of_regions (site.regions_after s)).mono
          fun _ => List.subset_append_right _ _)

theorem Function.uses_owned : ∀ {site : Site} (f : Function),
    ∀ p ∈ f.uses site, Use.Owned site f.ownUses p
  | _, .mk _ _ body => fun p hp => (Stmt.usesAll_owned body p hp).of_cons rfl

theorem Function.usesAll_owned : ∀ {site : Site} (fs : List Function),
    ∀ p ∈ Function.usesAll site fs, ∀ depth method, p.2.InMethod depth method →
      (p.1, depth) ∈ method.ownUses 0
  | _, [] => fun _ hp => nomatch hp
  | site, f :: fs => by
      refine forall_mem_append (fun p hp depth method hmethod => ?_) (Function.usesAll_owned fs)
      rcases Function.uses_owned f p hp depth method hmethod with hinner | ⟨k, hk, hmem⟩
      · exact hinner
      · -- around the method there is nothing but the method itself
        obtain ⟨rfl, rfl⟩ := hk.unique (.receiver site f)
        exact hmem

end

/-! ### What belongs to a method stands in it -/

/-- The use stands among these, in further regions within the site, but in no further method. -/
def Use.Within (uses : List (Use × Site)) (site : Site) (k : Nat) (own : Use × Nat) : Prop :=
  ∃ site' inner, (own.1, site') ∈ uses ∧ site'.regions = inner ++ site.regions ∧
    own.2 = inner.length + k ∧ ∀ region ∈ inner, region.isReceiver = false

namespace Use.Within

variable {uses uses' : List (Use × Site)} {site site' : Site} {k : Nat} {own : Use × Nat}

theorem mono (h : Use.Within uses site k own) (huses : uses ⊆ uses') :
    Use.Within uses' site k own := by
  obtain ⟨site', inner, hmem, hinner⟩ := h
  exact ⟨site', inner, huses hmem, hinner⟩

theorem of_cons {entry : Region × Scoping.Frame} (hentry : entry.1.isReceiver = false)
    (h : Use.Within uses (entry :: site) (k + 1) own) : Use.Within uses site k own := by
  obtain ⟨site', inner, hmem, hregions, hdepth, hinner⟩ := h
  refine ⟨site', inner ++ [entry.1], hmem, ?_, ?_, forall_mem_append hinner fun region hregion => ?_⟩
  · rw [hregions, List.append_assoc]
    rfl
  · rw [hdepth, List.length_append, List.length_singleton]
    omega
  · rw [List.mem_singleton.mp hregion]
    exact hentry

theorem of_regions (hregions : site'.regions = site.regions) (h : Use.Within uses site' k own) :
    Use.Within uses site k own := by
  obtain ⟨site'', inner, hmem, hsite, hinner⟩ := h
  exact ⟨site'', inner, hmem, hregions ▸ hsite, hinner⟩

/-- The method around the site is the innermost one around the use. -/
theorem inMethod {method : Function} (h : Use.Within uses site k own)
    (hsite : site.InMethod k method) :
    ∃ site', (own.1, site') ∈ uses ∧ site'.InMethod own.2 method ∧
      ∀ i, site'.regions[own.2 + i]? = site.regions[k + i]? := by
  obtain ⟨site', inner, hmem, hregions, hdepth, hinner⟩ := h
  -- beyond the further regions are those around the site
  have houter : ∀ i, site'.regions[own.2 + i]? = site.regions[k + i]? := by
    intro i
    rw [hregions, hdepth, Nat.add_assoc, List.getElem?_append_right (Nat.le_add_right _ _),
      Nat.add_sub_cancel_left]
  refine ⟨site', hmem, ⟨(houter 0).trans hsite.region, fun i hi other hother => ?_⟩, houter⟩
  rw [hregions] at hother
  by_cases hlt : i < inner.length
  · rw [List.getElem?_append_left hlt] at hother
    exact nomatch hinner _ (List.mem_of_getElem? hother)
  · rw [List.getElem?_append_right (Nat.le_of_not_lt hlt)] at hother
    exact hsite.innermost (i - inner.length) (by omega) other hother

end Use.Within

theorem Expr.own_within {site site' : Site} (e : Expr) (hregions : site'.regions = site.regions)
    {k : Nat} : ∀ own ∈ e.uses.map (fun u => (u, k)), Use.Within (e.usesAt site') site k own := by
  intro own hown
  obtain ⟨u, hu, rfl⟩ := List.mem_map.mp hown
  exact ⟨site', [], List.mem_map_of_mem hu, hregions, (Nat.zero_add k).symm,
    fun _ hregion => nomatch hregion⟩

mutual

theorem Stmt.own_within : ∀ {site : Site} {k : Nat} (s : Stmt),
    ∀ own ∈ s.ownUses k, Use.Within (s.uses site) site k own
  | _, _, .expression e => e.own_within rfl
  | _, _, .print e => e.own_within rfl
  | site, _, .variableDecl name value => by
      cases value with
      | none => exact fun own hown => nomatch hown
      | some e => exact e.own_within (site.regions_declare name.lexeme)
  | _, _, .block body => fun own hown => (Stmt.allOwn_within body own hown).of_cons rfl
  | _, _, .conditional condition yes none =>
      forall_mem_append
        (fun own hown => (condition.own_within rfl own hown).mono (List.subset_append_left _ _))
        (fun own hown => (Stmt.own_within yes own hown).mono (List.subset_append_right _ _))
  | _, _, .conditional condition yes (some no) =>
      forall_mem_append
        (fun own hown => (condition.own_within rfl own hown).mono (List.subset_append_left _ _))
        (forall_mem_append
          (fun own hown => (Stmt.own_within yes own hown).mono fun _ hp =>
            List.mem_append_right _ (List.mem_append_left _ hp))
          (fun own hown => (Stmt.own_within no own hown).mono fun _ hp =>
            List.mem_append_right _ (List.mem_append_right _ hp)))
  | _, _, .loop condition body =>
      forall_mem_append
        (fun own hown => (condition.own_within rfl own hown).mono (List.subset_append_left _ _))
        (fun own hown => (Stmt.own_within body own hown).mono (List.subset_append_right _ _))
  | site, _, .functionDecl declared => fun own hown =>
      (Function.own_within declared own hown).of_regions (site.regions_define declared.name.lexeme)
  | _, _, .giveBack _ value => by
      cases value with
      | none => exact fun own hown => nomatch hown
      | some e => exact e.own_within rfl
  | site, k, .classDecl _ superclass _ => by
      -- of a class only the superclass is used here: its methods have receivers of their own
      intro own hown
      obtain ⟨use, huse, rfl⟩ := List.mem_map.mp hown
      exact ⟨site, [], List.mem_append_left _ (List.mem_map.mpr ⟨use, huse, rfl⟩), rfl,
        (Nat.zero_add k).symm, fun _ hregion => nomatch hregion⟩

theorem Stmt.allOwn_within : ∀ {site : Site} {k : Nat} (ss : List Stmt),
    ∀ own ∈ Stmt.allOwnUses k ss, Use.Within (Stmt.usesAll site ss) site k own
  | _, _, [] => fun _ hown => nomatch hown
  | site, _, s :: ss =>
      forall_mem_append
        (fun own hown => (Stmt.own_within s own hown).mono (List.subset_append_left _ _))
        (fun own hown => ((Stmt.allOwn_within ss own hown).of_regions (site.regions_after s)).mono
          (List.subset_append_right _ _))

theorem Function.own_within : ∀ {site : Site} {k : Nat} (f : Function),
    ∀ own ∈ f.ownUses k, Use.Within (f.uses site) site k own
  | _, _, .mk _ _ body => fun own hown => (Stmt.allOwn_within body own hown).of_cons rfl

end

/-! ## Where `super` may be used -/

/-- The innermost method around the site is one of a class with a superclass. -/
def Site.InheritedMethod (site : Site) : Prop :=
  ∃ depth method methods, site.InMethod depth method ∧
    site.regions[depth + 1]? = some (.parent methods)

namespace Site.InheritedMethod

variable {site site' : Site}

theorem of_regions (h : site.InheritedMethod) (hregions : site'.regions = site.regions) :
    site'.InheritedMethod := by
  obtain ⟨depth, method, methods, hmethod, hparent⟩ := h
  exact ⟨depth, method, methods, hmethod.of_regions hregions, hregions ▸ hparent⟩

theorem cons (h : site.InheritedMethod) {entry : Region × Scoping.Frame}
    (hentry : entry.1.isReceiver = false) : Site.InheritedMethod (entry :: site) := by
  obtain ⟨depth, method, methods, hmethod, hparent⟩ := h
  exact ⟨depth + 1, method, methods, hmethod.cons hentry, hparent⟩

end Site.InheritedMethod

namespace Scoping

/-- What the context says about superclasses shows in the regions. -/
def ClassContext.Inherits (context : ClassContext) (site : Site) : Prop :=
  context = .withSuperclass → site.InheritedMethod

namespace ClassContext.Inherits

variable {context : ClassContext} {site site' : Site}

theorem of_regions (h : context.Inherits site) (hregions : site'.regions = site.regions) :
    context.Inherits site' :=
  fun hcontext => (h hcontext).of_regions hregions

theorem cons (h : context.Inherits site) {entry : Region × Frame}
    (hentry : entry.1.isReceiver = false) : context.Inherits (entry :: site) :=
  fun hcontext => (h hcontext).cons hentry

/-- The context inside a class. -/
theorem inMethod (site : Site) (superclass : Option Reference) (methods : List Function)
    (method : Function) :
    (if superclass.isSome then ClassContext.withSuperclass else .withoutSuperclass).Inherits
      ((site.inClass superclass methods).inReceiver method) := by
  cases superclass with
  | none => exact fun h => nomatch h
  | some use => exact fun _ => ⟨0, method, methods, .receiver _ method, rfl⟩

end ClassContext.Inherits

/-- Every `super` among the uses stands in a method of a class with a superclass. -/
def Inherited (uses : List (Use × Site)) : Prop :=
  ∀ p ∈ uses, p.1.kind = .super → p.2.InheritedMethod

mutual

/-- Only in a class with a superclass does the walk accept `super`. -/
theorem ofExpr_inherits : ∀ {context : ClassContext} {scopes : Scopes} (e : Expr),
    (ofExpr context scopes e).faults = [] → ∀ u ∈ e.uses, u.kind = .super →
      context = .withSuperclass
  | _, _, .literal _, _ => fun _ hu => nomatch hu
  | _, _, .unary _ operand, h => ofExpr_inherits operand h
  | _, _, .binary left _ right, h =>
      forall_mem_append (ofExpr_inherits left (faults_of_append h).1)
        (ofExpr_inherits right (faults_of_append h).2)
  | _, _, .logical left _ right, h =>
      forall_mem_append (ofExpr_inherits left (faults_of_append h).1)
        (ofExpr_inherits right (faults_of_append h).2)
  | _, _, .grouping inner, h => ofExpr_inherits inner h
  | _, _, .ident use, _ => by
      intro u hu hkind
      rw [List.mem_singleton.mp hu] at hkind
      exact nomatch hkind
  | _, _, .assign use value, h => by
      refine forall_mem_append (ofExpr_inherits value (faults_of_append h).1) fun u hu hkind => ?_
      rw [List.mem_singleton.mp hu] at hkind
      exact nomatch hkind
  | _, _, .call callee _ arguments, h =>
      forall_mem_append (ofExpr_inherits callee (faults_of_append h).1)
        (ofExprs_inherits arguments (faults_of_append h).2)
  | _, _, .get object _, h => ofExpr_inherits object h
  | _, _, .set object _ value, h =>
      forall_mem_append (ofExpr_inherits value (faults_of_append h).1)
        (ofExpr_inherits object (faults_of_append h).2)
  | _, _, .this use, _ => by
      intro u hu hkind
      rw [List.mem_singleton.mp hu] at hkind
      exact nomatch hkind
  | context, _, .super use method, h => by
      intro _ _ _
      -- in any other context there is a fault
      cases context with
      | none => exact nomatch (faults_of_append h).1
      | withoutSuperclass => exact nomatch (faults_of_append h).1
      | withSuperclass => rfl

theorem ofExprs_inherits : ∀ {context : ClassContext} {scopes : Scopes} (es : List Expr),
    (ofExprs context scopes es).faults = [] → ∀ u ∈ Expr.usesAll es, u.kind = .super →
      context = .withSuperclass
  | _, _, [], _ => fun _ hu => nomatch hu
  | _, _, e :: es, h =>
      forall_mem_append (ofExpr_inherits e (faults_of_append h).1)
        (ofExprs_inherits es (faults_of_append h).2)

end

theorem ofExpr_inherited {context : ClassContext} {scopes : Scopes} {site : Site}
    (hcontext : context.Inherits site) (e : Expr) (h : (ofExpr context scopes e).faults = []) :
    Inherited (e.usesAt site) := by
  intro p hp hkind
  obtain ⟨u, hu, rfl⟩ := List.mem_map.mp hp
  exact hcontext (ofExpr_inherits e h u hu hkind)

mutual

theorem ofStmt_inherited : ∀ {context : Context} {scopes : Scopes} {site : Site} (s : Stmt),
    context.inClass.Inherits site → (ofStmt context scopes s).faults = [] → Inherited (s.uses site)
  | _, _, _, .expression e, hc, h => ofExpr_inherited hc e h
  | _, _, _, .print e, hc, h => ofExpr_inherited hc e h
  | _, _, site, .variableDecl name value, hc, h => by
      cases value with
      | none => exact fun p hp => nomatch hp
      | some e =>
          exact ofExpr_inherited (hc.of_regions (site.regions_declare name.lexeme)) e
            (faults_of_append h).2
  | _, _, _, .block body, hc, h => ofStmts_inherited body (hc.cons rfl) h
  | _, _, _, .conditional condition yes none, hc, h =>
      forall_mem_append (ofExpr_inherited hc condition (faults_of_append h).1)
        (ofStmt_inherited yes hc (faults_of_append h).2)
  | _, _, _, .conditional condition yes (some no), hc, h =>
      have h' := faults_of_append (faults_of_append h).1
      forall_mem_append (ofExpr_inherited hc condition h'.1)
        (forall_mem_append (ofStmt_inherited yes hc h'.2)
          (ofStmt_inherited no hc (faults_of_append h).2))
  | _, _, _, .loop condition body, hc, h =>
      forall_mem_append (ofExpr_inherited hc condition (faults_of_append h).1)
        (ofStmt_inherited body hc (faults_of_append h).2)
  | context, _, site, .functionDecl declared, hc, h =>
      have hbody : (Context.mk .function context.inClass).inClass.Inherits
          (site.define declared.name.lexeme) := hc.of_regions (site.regions_define _)
      ofFunction_inherited declared hbody (faults_of_append h).2
  | _, _, _, .giveBack _ value, hc, h => by
      cases value with
      | none => exact fun p hp => nomatch hp
      | some e => exact ofExpr_inherited hc e (faults_of_append h).2
  | _, _, _, .classDecl name superclass methods, _, h => by
      -- the superclass is a use of its name, not of `super`
      refine forall_mem_append (fun p hp hkind => ?_)
        (ofMethods_inherited methods methods (faults_of_append h).2)
      obtain ⟨use, -, rfl⟩ := List.mem_map.mp hp
      exact nomatch hkind

theorem ofStmts_inherited : ∀ {context : Context} {scopes : Scopes} {site : Site} (ss : List Stmt),
    context.inClass.Inherits site → (ofStmts context scopes ss).faults = [] →
      Inherited (Stmt.usesAll site ss)
  | _, _, _, [], _, _ => fun _ hp => nomatch hp
  | _, _, site, s :: ss, hc, h =>
      forall_mem_append (ofStmt_inherited s hc (faults_of_append h).1)
        (ofStmts_inherited ss (hc.of_regions (site.regions_after s)) (faults_of_append h).2)

theorem ofFunction_inherited : ∀ {context : Context} {scopes : Scopes} {site : Site} (f : Function),
    context.inClass.Inherits site → (ofFunction context scopes f).faults = [] →
      Inherited (f.uses site)
  | _, _, _, .mk _ _ body, hc, h => ofStmts_inherited body (hc.cons rfl) (faults_of_append h).2

theorem ofMethods_inherited : ∀ {scopes : Scopes} {site : Site} {superclass : Option Reference}
    (all methods : List Function),
    (ofMethods (if superclass.isSome then ClassContext.withSuperclass else .withoutSuperclass) scopes
      methods).faults = [] → Inherited (Function.usesAll (site.inClass superclass all) methods)
  | _, _, _, _, [], _ => fun _ hp => nomatch hp
  | _, site, superclass, all, f :: fs, h =>
      forall_mem_append
        (ofFunction_inherited f (.inMethod site superclass all f) (faults_of_append h).1)
        (ofMethods_inherited all fs (faults_of_append h).2)

end

end Scoping

/-! ## Addresses -/

/-- The regions of methods are those that have `this`, and those around classes have `super`. -/
def Site.Special (site : Site) : Prop :=
  ∀ entry ∈ site, entry.2.has "this" = entry.1.isReceiver ∧
    (entry.1.isParent = true → entry.2.has "super" = true)

theorem Scoping.Frame.Plain.has_this {frame : Scoping.Frame} (h : frame.Plain) :
    frame.has "this" = false := by
  unfold has
  cases hlookup : List.lookup "this" frame with
  | none => rfl
  | some b => exact absurd rfl (h.lookup hlookup).2.1

mutual

theorem Proper.special : ∀ {site : Site}, Proper site → site.Special
  | _, .top => fun _ hentry => nomatch hentry
  | _, .block hframe hsite =>
      List.forall_mem_cons.mpr ⟨⟨hframe.has_this, fun h => nomatch h⟩, hsite.special⟩
  | _, .call hframe hsite =>
      List.forall_mem_cons.mpr ⟨⟨hframe.has_this, fun h => nomatch h⟩, hsite.special⟩

theorem Enclosing.special : ∀ {site : Site}, Enclosing site → site.Special
  | _, .function hsite => hsite.special
  | _, .receiver hsite => List.forall_mem_cons.mpr ⟨⟨rfl, fun h => nomatch h⟩, hsite.special⟩
  | _, .parent hsite => List.forall_mem_cons.mpr ⟨⟨rfl, fun h => nomatch h⟩,
      List.forall_mem_cons.mpr ⟨⟨rfl, fun _ => rfl⟩, hsite.special⟩⟩

end

namespace Site

variable {site : Site} {distance : Nat}

theorem region_of_entry {i : Nat} {entry : Region × Scoping.Frame} (h : site[i]? = some entry) :
    site.regions[i]? = some entry.1 := by
  rw [regions, List.getElem?_map, h]
  rfl

theorem entry_of_region {i : Nat} {region : Region} (h : site.regions[i]? = some region) :
    ∃ entry, site[i]? = some entry ∧ entry.1 = region := by
  rw [regions, List.getElem?_map] at h
  exact Option.map_eq_some_iff.mp h

theorem Special.this (h : site.Special)
    (haddress : Scoping.addressOf? site.scopes "this" = some distance) :
    ∃ method, site.InMethod distance method := by
  obtain ⟨⟨entry, hentry, hhas⟩, hnearest⟩ := nearest haddress
  rw [(h entry (List.mem_of_getElem? hentry)).1] at hhas
  obtain ⟨region, frame⟩ := entry
  cases region with
  | receiver method =>
      refine ⟨method, region_of_entry hentry, fun i hi other hother => ?_⟩
      obtain ⟨inner, hinner, hregion⟩ := entry_of_region hother
      have hnot := hnearest i hi inner hinner
      rw [(h inner (List.mem_of_getElem? hinner)).1, hregion] at hnot
      exact nomatch hnot
  | _ => exact nomatch hhas

/-- The class that `super` is found for is that of the innermost method. -/
theorem Special.super (h : site.Special) (hsuper : site.SuperAt distance)
    (haddress : Scoping.addressOf? site.scopes "super" = some distance)
    (hinherited : site.InheritedMethod) :
    ∃ depth method, site.InMethod depth method ∧ distance = depth + 1 := by
  obtain ⟨inner, method', methods', rfl, hreceiver, -⟩ := hsuper
  obtain ⟨depth, method, methods, hmethod, hparent⟩ := hinherited
  refine ⟨depth, method, hmethod, congrArg (· + 1) ?_⟩
  rcases Nat.lt_trichotomy inner depth with hlt | heq | hgt
  · exact absurd hreceiver (hmethod.innermost inner hlt method')
  · exact heq
  · -- further out there would be a nearer `super`
    obtain ⟨entry, hentry, hregion⟩ := entry_of_region hparent
    have hnot := (nearest haddress).2 (depth + 1) (Nat.succ_lt_succ hgt) entry hentry
    rw [(h entry (List.mem_of_getElem? hentry)).2 (hregion ▸ rfl)] at hnot
    exact nomatch hnot

/-- Where a use stands, special names are found as around a statement. -/
theorem Used.proper (h : site.Used) : ∃ site', Proper site' ∧ site'.regions = site.regions ∧
    ∀ name, ¬ Plain name →
      Scoping.addressOf? site'.scopes name = Scoping.addressOf? site.scopes name := by
  rcases h with h | ⟨outer, other, h, hother, rfl⟩
  · exact ⟨site, h, rfl, fun _ _ => rfl⟩
  · refine ⟨outer, h, (outer.regions_declare other).symm, fun name hname => ?_⟩
    have hne : name ≠ other := by
      rintro rfl
      exact hname hother
    exact (outer.addressOf?_declare hne).symm

end Site

theorem not_plain_this : ¬ Plain "this" := fun h => h.1 rfl

theorem not_plain_super : ¬ Plain "super" := fun h => h.2 rfl

namespace Site.Used

variable {site : Site} {distance : Nat}

/-- **The address of `this` is that of the innermost method around it.** -/
theorem this_inMethod (h : site.Used)
    (haddress : Scoping.addressOf? site.scopes "this" = some distance) :
    ∃ method, site.InMethod distance method := by
  obtain ⟨site', hproper, hregions, hsame⟩ := h.proper
  rw [← hsame "this" not_plain_this] at haddress
  obtain ⟨method, hmethod⟩ := hproper.special.this haddress
  exact ⟨method, hmethod.of_regions hregions.symm⟩

/-- **The address of `super` is the one just outside of the innermost method around it.** -/
theorem super_inMethod (h : site.Used) (hinherited : site.InheritedMethod)
    (haddress : Scoping.addressOf? site.scopes "super" = some distance) :
    ∃ depth method, site.InMethod depth method ∧ distance = depth + 1 := by
  obtain ⟨site', hproper, hregions, hsame⟩ := h.proper
  rw [← hsame "super" not_plain_super] at haddress
  obtain ⟨depth, method, hmethod, hdistance⟩ := hproper.special.super (hproper.superAt haddress)
    haddress (hinherited.of_regions hregions)
  exact ⟨depth, method, hmethod.of_regions hregions.symm, hdistance⟩

end Site.Used

end Lox
