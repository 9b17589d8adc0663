import Lox.Proofs.Scopes.Names

/-!
# The rows of regions in a program

Around a statement there are blocks and functions, and around a function there may also be what is
around the methods of a class: first the scope of `this`, then that of `super` if the class has a
superclass. No other region has one of these two names.
-/

namespace Lox

/-! ## Shapes -/

/-- The names of a block or of a function: all are ready, and none is special. -/
def Scoping.Frame.Plain (frame : Scoping.Frame) : Prop :=
  ∀ entry ∈ frame, entry.2 = true ∧ Lox.Plain entry.1

mutual

/-- Sites of statements. -/
inductive Proper : Site → Prop where
  | top : Proper []
  | block {body : List Stmt} {frame : Scoping.Frame} {site : Site} :
      frame.Plain → Proper site → Proper ((.block body, frame) :: site)
  | call {f : Function} {frame : Scoping.Frame} {site : Site} :
      frame.Plain → Enclosing site → Proper ((.call f, frame) :: site)

/-- Sites of functions. -/
inductive Enclosing : Site → Prop where
  | function {site : Site} : Proper site → Enclosing site
  | receiver {method : Function} {site : Site} : Proper site → Enclosing (site.inReceiver method)
  | parent {method : Function} {methods : List Function} {site : Site} :
      Proper site →
      Enclosing (Site.inReceiver ((.parent methods, [("super", true)]) :: site) method)

end

/-- A use stands at the site of a statement, or in the initial value of a name that is not ready. -/
def Site.Used (site : Site) : Prop :=
  Proper site ∨ ∃ outer name, Proper outer ∧ Plain name ∧ site = outer.declare name

theorem Scoping.Frame.Plain.cons {frame : Scoping.Frame} {name : String} (h : frame.Plain)
    (hname : Lox.Plain name) : Scoping.Frame.Plain ((name, true) :: frame) := by
  intro entry hentry
  rcases List.mem_cons.mp hentry with rfl | hentry
  · exact ⟨rfl, hname⟩
  · exact h entry hentry

theorem Proper.define {site : Site} {name : String} (h : Proper site) (hname : Plain name) :
    Proper (site.define name) := by
  cases h with
  | top => exact .top
  | block hframe h => exact .block (hframe.cons hname) h
  | call hframe h => exact .call (hframe.cons hname) h

theorem Proper.after {site : Site} {s : Stmt} (h : Proper site)
    (hnames : ∀ t ∈ s.names, Plain t.lexeme) : Proper (site.after s) := by
  cases s with
  | variableDecl name value => exact h.define (hnames name (List.mem_cons_self ..))
  | functionDecl declared => exact h.define (hnames _ declared.name_mem)
  | classDecl name superclass methods => exact h.define (hnames name (List.mem_cons_self ..))
  | _ => exact h

theorem enterParams_plain : ∀ {frame : Scoping.Frame} {ps : List Token}, frame.Plain →
    (∀ t ∈ ps, Plain t.lexeme) → (Scoping.enterParams frame ps).1.Plain
  | _, [], h, _ => h
  | frame, p :: ps, h, hps => by
      show (Scoping.enterParams ((p.lexeme, true) :: frame) ps).1.Plain
      exact enterParams_plain (h.cons (hps p (List.mem_cons_self ..)))
        fun t ht => hps t (List.mem_cons_of_mem _ ht)

theorem Enclosing.inFunction {site : Site} {f : Function} (h : Enclosing site)
    (hnames : ∀ t ∈ f.names, Plain t.lexeme) : Proper (site.inFunction f) := by
  refine .call (enterParams_plain (fun _ h => nomatch h) fun t ht => hnames t ?_) h
  cases f with
  | mk name params body => exact List.mem_cons_of_mem _ (List.mem_append_left _ ht)

theorem Proper.inMethod {site : Site} (h : Proper site) (superclass : Option Reference)
    (methods : List Function) (method : Function) :
    Enclosing ((site.inClass superclass methods).inReceiver method) := by
  cases superclass with
  | none => exact .receiver h
  | some use => exact .parent h

/-! ## Where uses stand -/

theorem Expr.usesAt_used {site : Site} (h : site.Used) (e : Expr) :
    ∀ p ∈ e.usesAt site, p.2.Used := by
  intro p hp
  obtain ⟨u, -, rfl⟩ := List.mem_map.mp hp
  exact h

theorem forall_mem_append {α : Type} {Q : α → Prop} {as bs : List α} (ha : ∀ a ∈ as, Q a)
    (hb : ∀ b ∈ bs, Q b) : ∀ c ∈ as ++ bs, Q c := by
  intro c hc
  rcases List.mem_append.mp hc with hc | hc
  · exact ha c hc
  · exact hb c hc

mutual

theorem Stmt.uses_used : ∀ {site : Site} (s : Stmt), Proper site →
    (∀ t ∈ s.names, Plain t.lexeme) → ∀ p ∈ s.uses site, p.2.Used
  | _, .expression e, h, _ => e.usesAt_used (.inl h)
  | _, .print e, h, _ => e.usesAt_used (.inl h)
  | site, .variableDecl name value, h, hnames => by
      cases value with
      | none => exact fun p hp => nomatch hp
      | some e =>
          exact e.usesAt_used (.inr ⟨site, name.lexeme, h, hnames name (List.mem_cons_self ..), rfl⟩)
  | _, .block body, h, hnames =>
      Stmt.usesAll_used body (.block (fun _ h => nomatch h) h) hnames
  | _, .conditional condition yes none, h, hnames =>
      forall_mem_append (condition.usesAt_used (.inl h)) (Stmt.uses_used yes h hnames)
  | _, .conditional condition yes (some no), h, hnames =>
      forall_mem_append (condition.usesAt_used (.inl h)) (forall_mem_append
        (Stmt.uses_used yes h fun t ht => hnames t (List.mem_append_left _ ht))
        (Stmt.uses_used no h fun t ht => hnames t (List.mem_append_right _ ht)))
  | _, .loop condition body, h, hnames =>
      forall_mem_append (condition.usesAt_used (.inl h)) (Stmt.uses_used body h hnames)
  | _, .functionDecl declared, h, hnames => by
      have hname : Plain declared.name.lexeme := hnames _ declared.name_mem
      exact Function.uses_used declared (.function (h.define hname)) hnames
  | _, .giveBack _ value, h, _ => by
      cases value with
      | none => exact fun p hp => nomatch hp
      | some e => exact e.usesAt_used (.inl h)
  | site, .classDecl name superclass methods, h, hnames => by
      refine forall_mem_append (fun p hp => ?_) ?_
      · obtain ⟨use, -, rfl⟩ := List.mem_map.mp hp
        exact .inl h
      · exact Function.usesAll_used methods (h.define (hnames name (List.mem_cons_self ..)))
          superclass methods fun t ht => hnames t (List.mem_cons_of_mem _ ht)

theorem Stmt.usesAll_used : ∀ {site : Site} (ss : List Stmt), Proper site →
    (∀ t ∈ Stmt.namesAll ss, Plain t.lexeme) → ∀ p ∈ Stmt.usesAll site ss, p.2.Used
  | _, [], _, _ => fun _ hp => nomatch hp
  | _, s :: ss, h, hnames => by
      have hs : ∀ t ∈ s.names, Plain t.lexeme := fun t ht => hnames t (List.mem_append_left _ ht)
      exact forall_mem_append (Stmt.uses_used s h hs)
        (Stmt.usesAll_used ss (h.after hs) fun t ht => hnames t (List.mem_append_right _ ht))

theorem Function.uses_used : ∀ {site : Site} (f : Function), Enclosing site →
    (∀ t ∈ f.names, Plain t.lexeme) → ∀ p ∈ f.uses site, p.2.Used
  | _, .mk _ _ body, h, hnames =>
      Stmt.usesAll_used body (h.inFunction hnames) fun t ht =>
        hnames t (List.mem_cons_of_mem _ (List.mem_append_right _ ht))

theorem Function.usesAll_used : ∀ {site : Site} (fs : List Function), Proper site →
    ∀ (superclass : Option Reference) (methods : List Function),
    (∀ t ∈ Function.namesAll fs, Plain t.lexeme) →
    ∀ p ∈ Function.usesAll (site.inClass superclass methods) fs, p.2.Used
  | _, [], _, _, _, _ => fun _ hp => nomatch hp
  | _, f :: fs, h, superclass, methods, hnames =>
      forall_mem_append
        (Function.uses_used f (h.inMethod superclass methods f) fun t ht =>
          hnames t (List.mem_append_left _ ht))
        (Function.usesAll_used fs h superclass methods fun t ht =>
          hnames t (List.mem_append_right _ ht))

end

/-! ## What names can be found -/

theorem Scoping.Frame.Plain.lookup {frame : Scoping.Frame} (h : frame.Plain) {name : String}
    {b : Bool} (hlookup : frame.lookup name = some b) : b = true ∧ Lox.Plain name := by
  induction frame with
  | nil => exact nomatch hlookup
  | cons entry frame ih =>
      obtain ⟨other, ready⟩ := entry
      by_cases hname : name = other
      · subst hname
        rw [List.lookup_cons, beq_self_eq_true] at hlookup
        cases hlookup
        exact h _ (List.mem_cons_self ..)
      · rw [Scoping.lookup_cons_of_ne hname] at hlookup
        exact ih (fun e he => h e (List.mem_cons_of_mem _ he)) hlookup

/-- What a walk finds in the innermost region, and what it finds further out. -/
theorem Scoping.addressOf?_cons (frame : Scoping.Frame) (scopes : Scoping.Scopes) (name : String) :
    addressOf? (frame :: scopes) name
      = if frame.has name then some 0 else (addressOf? scopes name).map (· + 1) := by
  rw [addressOf?, List.findIdx?_cons]
  rfl

theorem ready_of_singleton {name other : String} {b : Bool}
    (h : List.lookup name [(other, true)] = some b) : b = true := by
  rw [List.lookup_cons] at h
  split at h
  · exact (Option.some.inj h).symm
  · exact nomatch h

mutual

theorem Proper.ready : ∀ {site : Site}, Proper site →
    ∀ entry ∈ site, ∀ name b, entry.2.lookup name = some b → b = true
  | _, .top, _, hentry, _, _, _ => nomatch hentry
  | _, .block hframe h, entry, hentry, name, b, hlookup => by
      rcases List.mem_cons.mp hentry with rfl | hentry
      · exact (hframe.lookup hlookup).1
      · exact h.ready entry hentry name b hlookup
  | _, .call hframe h, entry, hentry, name, b, hlookup => by
      rcases List.mem_cons.mp hentry with rfl | hentry
      · exact (hframe.lookup hlookup).1
      · exact h.ready entry hentry name b hlookup

theorem Enclosing.ready : ∀ {site : Site}, Enclosing site →
    ∀ entry ∈ site, ∀ name b, entry.2.lookup name = some b → b = true
  | _, .function h, entry, hentry, name, b, hlookup => h.ready entry hentry name b hlookup
  | _, .receiver h, entry, hentry, name, b, hlookup => by
      rcases List.mem_cons.mp hentry with rfl | hentry
      · exact ready_of_singleton hlookup
      · exact h.ready entry hentry name b hlookup
  | _, .parent h, entry, hentry, name, b, hlookup => by
      rcases List.mem_cons.mp hentry with rfl | hentry
      · exact ready_of_singleton hlookup
      · rcases List.mem_cons.mp hentry with rfl | hentry
        · exact ready_of_singleton hlookup
        · exact h.ready entry hentry name b hlookup

end

/-- Regions of blocks and functions do not have `super`. -/
theorem Scoping.Frame.Plain.has_super {frame : Scoping.Frame} (h : frame.Plain) :
    frame.has "super" = false := by
  unfold has
  cases hlookup : List.lookup "super" frame with
  | none => rfl
  | some b => exact absurd rfl (h.lookup hlookup).2.2

/-- At this distance is the scope of `super` of a class, just outside that of `this`. -/
def Site.SuperAt (site : Site) (distance : Nat) : Prop :=
  ∃ inner method methods, distance = inner + 1 ∧ site.regions[inner]? = some (.receiver method) ∧
    site.regions[inner + 1]? = some (.parent methods)

theorem Site.SuperAt.cons {site : Site} {distance : Nat} (h : site.SuperAt distance)
    (entry : Region × Scoping.Frame) : Site.SuperAt (entry :: site) (distance + 1) := by
  obtain ⟨inner, method, methods, rfl, hreceiver, hparent⟩ := h
  exact ⟨inner + 1, method, methods, rfl, hreceiver, hparent⟩

/-- If the innermost region does not have the name, it is found further out. -/
theorem Scoping.addressOf?_outer {frame : Scoping.Frame} {scopes : Scoping.Scopes} {name : String}
    {distance : Nat} (hframe : frame.has name = false)
    (h : addressOf? (frame :: scopes) name = some distance) :
    ∃ outer, distance = outer + 1 ∧ addressOf? scopes name = some outer := by
  rw [addressOf?_cons, hframe] at h
  obtain ⟨outer, houter, rfl⟩ := Option.map_eq_some_iff.mp h
  exact ⟨outer, rfl, houter⟩

mutual

/-- Where a walk finds `super`, there is the scope that a class makes for it. -/
theorem Proper.superAt : ∀ {site : Site} {distance : Nat}, Proper site →
    Scoping.addressOf? site.scopes "super" = some distance → site.SuperAt distance
  | _, _, .top, h => nomatch h
  | _, _, .block hframe hsite, h => by
      obtain ⟨outer, rfl, houter⟩ := Scoping.addressOf?_outer hframe.has_super h
      exact (hsite.superAt houter).cons _
  | _, _, .call hframe hsite, h => by
      obtain ⟨outer, rfl, houter⟩ := Scoping.addressOf?_outer hframe.has_super h
      exact (hsite.superAt houter).cons _

theorem Enclosing.superAt : ∀ {site : Site} {distance : Nat}, Enclosing site →
    Scoping.addressOf? site.scopes "super" = some distance → site.SuperAt distance
  | _, _, .function hsite, h => hsite.superAt h
  | _, _, .receiver hsite, h => by
      obtain ⟨outer, rfl, houter⟩ := Scoping.addressOf?_outer rfl h
      exact (hsite.superAt houter).cons _
  | _, _, @Enclosing.parent method methods site _, h => by
      obtain ⟨outer, rfl, houter⟩ := Scoping.addressOf?_outer rfl h
      have hfirst : Scoping.addressOf? (Site.scopes ((.parent methods, [("super", true)]) :: site))
          "super" = some 0 := rfl
      obtain rfl : 0 = outer := Option.some.inj (hfirst.symm.trans houter)
      exact ⟨0, method, methods, rfl, rfl, rfl⟩

end

/-! ## What uses find -/

/-- A name that cannot be read yet does not change what another name means. -/
theorem Site.addressOf?_declare (site : Site) {name other : String} (h : other ≠ name) :
    Scoping.addressOf? (site.declare name).scopes other = Scoping.addressOf? site.scopes other := by
  cases site with
  | nil => rfl
  | cons entry outer =>
      obtain ⟨region, frame⟩ := entry
      have hhas : (if frame.has name then frame else (name, false) :: frame).has other
          = frame.has other := by
        split
        · rfl
        · rw [Scoping.Frame.has, Scoping.lookup_cons_of_ne h, Scoping.Frame.has]
      show Scoping.addressOf? (_ :: Site.scopes outer) other = Scoping.addressOf? (_ :: _) other
      rw [Scoping.addressOf?_cons, Scoping.addressOf?_cons, hhas]
      rfl

theorem Site.Used.superAt {site : Site} {distance : Nat} (h : site.Used)
    (haddress : Scoping.addressOf? site.scopes "super" = some distance) :
    site.SuperAt distance := by
  rcases h with h | ⟨outer, name, h, hname, rfl⟩
  · exact h.superAt haddress
  · rw [outer.addressOf?_declare hname.2.symm] at haddress
    have hsuper := h.superAt haddress
    unfold SuperAt at hsuper ⊢
    rwa [outer.regions_declare]

theorem Site.Used.ready_this {site : Site} (h : site.Used) : site.Ready "this" := by
  intro entry hentry hlookup
  rcases h with h | ⟨outer, name, h, hname, rfl⟩
  · exact nomatch h.ready entry (List.mem_of_mem_head? hentry) _ _ hlookup
  · cases outer with
    | nil => exact nomatch hentry
    | cons first outer =>
        obtain ⟨region, frame⟩ := first
        cases hentry
        have hfirst : frame.lookup "this" = some false := by
          dsimp only at hlookup
          split at hlookup
          · exact hlookup
          · rwa [Scoping.lookup_cons_of_ne hname.1.symm] at hlookup
        exact nomatch h.ready (region, frame) (List.mem_cons_self ..) _ _ hfirst

/-- What the address of a name says about the regions around it. -/
theorem Site.nearest {site : Site} {name : String} {distance : Nat}
    (h : Scoping.addressOf? site.scopes name = some distance) :
    (∃ entry, site[distance]? = some entry ∧ entry.2.has name = true) ∧
      ∀ i, i < distance → ∀ entry, site[i]? = some entry → entry.2.has name = false := by
  obtain ⟨hlt, hhas, hnot⟩ := List.findIdx?_eq_some_iff_getElem.mp h
  simp only [scopes, List.length_map, List.getElem_map] at hlt hhas hnot
  refine ⟨⟨site[distance], List.getElem?_eq_getElem hlt, hhas⟩, fun i hi entry hentry => ?_⟩
  obtain ⟨hlt', rfl⟩ := List.getElem?_eq_some_iff.mp hentry
  simpa using hnot i hi

theorem Site.nowhere {site : Site} {name : String}
    (h : Scoping.addressOf? site.scopes name = none) :
    ∀ entry ∈ site, entry.2.has name = false := by
  intro entry hentry
  exact List.findIdx?_eq_none_iff.mp h entry.2 (List.mem_map_of_mem hentry)

/-- A use that may be read finds its name ready. -/
theorem Site.Used.lookup {site : Site} {name : String} {distance : Nat} (h : site.Used)
    (hready : site.Ready name) (haddress : Scoping.addressOf? site.scopes name = some distance) :
    ∃ entry, site[distance]? = some entry ∧ entry.2.lookup name = some true := by
  obtain ⟨⟨entry, hentry, hhas⟩, -⟩ := Site.nearest haddress
  obtain ⟨b, hlookup⟩ := Option.isSome_iff_exists.mp hhas
  refine ⟨entry, hentry, ?_⟩
  have hb : b ≠ false := by
    rintro rfl
    cases distance with
    | zero =>
        rw [← List.head?_eq_getElem?] at hentry
        exact hready entry hentry hlookup
    | succ distance =>
        rcases h with h | ⟨outer, other, h, hother, rfl⟩
        · exact nomatch h.ready entry (List.mem_of_getElem? hentry) _ _ hlookup
        · cases outer with
          | nil => exact nomatch hentry
          | cons first outer =>
              have hmem : entry ∈ first :: outer :=
                List.mem_cons_of_mem _ (List.mem_of_getElem? hentry)
              exact nomatch h.ready entry hmem _ _ hlookup
  cases b with
  | true => exact hlookup
  | false => exact absurd rfl hb

end Lox
