import Lox.Proofs.Heaps
import Lox.Proofs.Scopes.Shapes
import Lox.Proofs.Steps

/-!
# Scopes on the heap and regions in the program

A world is a heap whose scopes are labelled with the regions that they were made for. A scope
realises a site if it and the scopes around it were made for the regions of the site, in this order,
up to the top level, and bind all names that are ready there. As scopes keep their outer scope and
their label, and names stay bound, this is never lost again.
-/

namespace Lox

/-! ## Code at a site -/

section

variable (Good : Use → Site → Prop)

/-- All uses in the expression are good. -/
def Expr.Fits (site : Site) (e : Expr) : Prop := ∀ u ∈ e.uses, Good u site

def Expr.AllFit (site : Site) (es : List Expr) : Prop := ∀ u ∈ Expr.usesAll es, Good u site

/-- All uses in the statement are good, and no name that it declares is special. -/
structure Stmt.Fits (site : Site) (s : Stmt) : Prop where
  uses : ∀ p ∈ s.uses site, Good p.1 p.2
  names : ∀ t ∈ s.names, Plain t.lexeme

structure Stmt.AllFit (site : Site) (ss : List Stmt) : Prop where
  uses : ∀ p ∈ Stmt.usesAll site ss, Good p.1 p.2
  names : ∀ t ∈ Stmt.namesAll ss, Plain t.lexeme

structure Function.Fits (site : Site) (f : Function) : Prop where
  uses : ∀ p ∈ f.uses site, Good p.1 p.2
  names : ∀ t ∈ f.names, Plain t.lexeme

structure Function.AllFit (site : Site) (fs : List Function) : Prop where
  uses : ∀ p ∈ Function.usesAll site fs, Good p.1 p.2
  names : ∀ t ∈ Function.namesAll fs, Plain t.lexeme

end

/-! ## Worlds -/

/-- A heap with a label for every scope, and the scope of the top level. -/
structure World where
  heap : Heap
  labels : List Region
  globals : ScopeId

namespace World

/-- The scope and those around it were made for these regions. -/
def Stands (w : World) : ScopeId → List Region → Prop
  | x, [] => x = w.globals
  | x, region :: outer =>
    w.labels[x.index]? = some region ∧ ∃ y, (w.heap.scopeAt x).outer = some y ∧ w.Stands y outer

/-- They also bind all names that are ready. -/
def Realises (w : World) : ScopeId → Site → Prop
  | x, [] => x = w.globals
  | x, (region, frame) :: outer =>
    w.labels[x.index]? = some region ∧
      (∀ name, frame.lookup name = some true → (w.heap.bound? x name).isSome) ∧
      ∃ y, (w.heap.scopeAt x).outer = some y ∧ w.Realises y outer

variable (Good : Use → Site → Prop)

/-- A function that can be called: its scope realises the site that it is declared at. -/
def Callable (w : World) (f : FunctionId) : Prop :=
  f.index < w.heap.functions.size ∧ ∃ site, w.Realises (w.heap.functionAt f).scope site ∧
    (w.heap.functionAt f).declared.Fits Good site

/-- A method of a class, which has to be bound to an object before it can be called. -/
def Method (w : World) (f : FunctionId) : Prop :=
  f.index < w.heap.functions.size ∧ ∃ site, w.Realises (w.heap.functionAt f).scope site ∧
    (w.heap.functionAt f).declared.Fits Good
      (site.inReceiver (w.heap.functionAt f).declared)

/-- All functions among the values of a program can be called. -/
def Holds (w : World) (v : Value) : Prop := ∀ f, v = .function f → w.Callable Good f

/-- What a heap keeps up while programs run on it. -/
structure Sound (w : World) : Prop where
  length : w.labels.length = w.heap.scopes.size
  globals : w.labels[w.globals.index]? = some .top ∧ (w.heap.scopeAt w.globals).outer = none
  values : ∀ x name v, w.heap.bound? x name = some v → w.Holds Good v
  fields : ∀ (o : ObjectId) (name : String) v, (w.heap.objectAt o).fields[name]? = some v → w.Holds Good v
  methods : ∀ (c : ClassId) (name : String) f, (w.heap.classAt c).methods[name]? = some f → w.Method Good f
  receivers : ∀ (x : ScopeId) method, w.labels[x.index]? = some (.receiver method) →
    ∃ o, w.heap.bound? x "this" = some (.object o)
  parents : ∀ (x : ScopeId) methods, w.labels[x.index]? = some (.parent methods) →
    ∃ c, w.heap.bound? x "super" = some (.classObject c)

/-- All that `w` has is still there in `w'`. -/
structure Extends (w w' : World) : Prop where
  globals : w'.globals = w.globals
  labels : ∀ (i : Nat) region, w.labels[i]? = some region → w'.labels[i]? = some region
  outer : ∀ x : ScopeId, ∀ region, w.labels[x.index]? = some region →
    (w'.heap.scopeAt x).outer = (w.heap.scopeAt x).outer
  bound : ∀ x name, (w.heap.bound? x name).isSome → (w'.heap.bound? x name).isSome
  functions : ∀ f : FunctionId, f.index < w.heap.functions.size →
    f.index < w'.heap.functions.size ∧ w'.heap.functionAt f = w.heap.functionAt f

namespace Extends

variable {w w' w'' : World}

theorem refl (w : World) : w.Extends w :=
  ⟨rfl, fun _ _ h => h, fun _ _ _ => rfl, fun _ _ h => h, fun _ h => ⟨h, rfl⟩⟩

theorem trans (h : w.Extends w') (h' : w'.Extends w'') : w.Extends w'' where
  globals := h'.globals.trans h.globals
  labels i region hi := h'.labels i region (h.labels i region hi)
  outer x region hx :=
    (h'.outer x region (h.labels _ region hx)).trans (h.outer x region hx)
  bound x name hx := h'.bound x name (h.bound x name hx)
  functions f hf := by
    obtain ⟨hf', hat⟩ := h.functions f hf
    obtain ⟨hf'', hat'⟩ := h'.functions f hf'
    exact ⟨hf'', hat'.trans hat⟩

end Extends

variable {Good} {w w' : World}

theorem Realises.mono (h : w.Extends w') : ∀ {site : Site} {x : ScopeId},
    w.Realises x site → w'.Realises x site
  | [], _, hx => Eq.trans hx h.globals.symm
  | (region, _) :: _, x, ⟨hlabel, hbound, y, houter, hy⟩ =>
      ⟨h.labels _ region hlabel, fun name hname => h.bound x name (hbound name hname), y,
        (h.outer x region hlabel).trans houter, hy.mono h⟩

theorem Realises.stands : ∀ {site : Site} {x : ScopeId}, w.Realises x site →
    w.Stands x site.regions
  | [], _, hx => hx
  | _ :: _, _, ⟨hlabel, _, y, houter, hy⟩ => ⟨hlabel, y, houter, hy.stands⟩

theorem Callable.mono (h : w.Extends w') {f : FunctionId} (hf : w.Callable Good f) :
    w'.Callable Good f := by
  obtain ⟨hlt, site, hsite, hfits⟩ := hf
  obtain ⟨hlt', hat⟩ := h.functions f hlt
  refine ⟨hlt', site, ?_, ?_⟩
  · rw [hat]
    exact hsite.mono h
  · rwa [hat]

theorem Method.mono (h : w.Extends w') {f : FunctionId} (hf : w.Method Good f) :
    w'.Method Good f := by
  obtain ⟨hlt, site, hsite, hfits⟩ := hf
  obtain ⟨hlt', hat⟩ := h.functions f hlt
  refine ⟨hlt', site, ?_, ?_⟩
  · rw [hat]
    exact hsite.mono h
  · rwa [hat]

theorem Holds.mono (h : w.Extends w') {v : Value} (hv : w.Holds Good v) : w'.Holds Good v :=
  fun f hf => (hv f hf).mono h

/-! ## Fewer uses that are good -/

section

variable {Good' : Use → Site → Prop} (himp : ∀ u site, Good u site → Good' u site)

include himp

theorem Callable.imp {f : FunctionId} (h : w.Callable Good f) : w.Callable Good' f := by
  obtain ⟨hlt, site, hsite, huses, hnames⟩ := h
  exact ⟨hlt, site, hsite, fun p hp => himp _ _ (huses p hp), hnames⟩

theorem Method.imp {f : FunctionId} (h : w.Method Good f) : w.Method Good' f := by
  obtain ⟨hlt, site, hsite, huses, hnames⟩ := h
  exact ⟨hlt, site, hsite, fun p hp => himp _ _ (huses p hp), hnames⟩

theorem Sound.imp (h : w.Sound Good) : w.Sound Good' where
  length := h.length
  globals := h.globals
  values x name v hv f hf := (h.values x name v hv f hf).imp himp
  fields o name v hv f hf := (h.fields o name v hv f hf).imp himp
  methods c name f hf := (h.methods c name f hf).imp himp
  receivers := h.receivers
  parents := h.parents

end

/-- Values that are no functions are held by every world. -/
theorem holds_of_ne {v : Value} (h : ∀ f, v ≠ .function f) : w.Holds Good v :=
  fun f hf => absurd hf (h f)

/-! ## Sites that promise less -/

end World

/-- The same regions, with no more names that are ready. -/
def Site.Within : Site → Site → Prop
  | [], [] => True
  | (region, frame) :: outer, (region', frame') :: outer' =>
    region = region' ∧ (∀ name, frame.lookup name = some true → frame'.lookup name = some true) ∧
      Site.Within outer outer'
  | _, _ => False

namespace Site

theorem Within.refl : ∀ site : Site, site.Within site
  | [] => trivial
  | _ :: outer => ⟨rfl, fun _ h => h, Within.refl outer⟩

theorem Within.trans : ∀ {a b c : Site}, a.Within b → b.Within c → a.Within c
  | [], [], [], _, _ => trivial
  | _ :: _, _ :: _, _ :: _, ⟨hregion, hnames, houter⟩, ⟨hregion', hnames', houter'⟩ =>
      ⟨hregion.trans hregion', fun name h => hnames' name (hnames name h), houter.trans houter'⟩

theorem Within.regions : ∀ {a b : Site}, a.Within b → a.regions = b.regions
  | [], [], _ => rfl
  | _ :: _, _ :: _, ⟨hregion, _, houter⟩ => by
      simp only [Site.regions, List.map_cons, hregion]
      exact congrArg _ houter.regions

theorem lookup_cons_true {frame : Scoping.Frame} {name other : String} :
    List.lookup other ((name, true) :: frame)
      = if other = name then some true else frame.lookup other := by
  by_cases h : other = name
  · subst h
    rw [List.lookup_cons, beq_self_eq_true, if_pos rfl]
  · rw [Scoping.lookup_cons_of_ne h, if_neg h]

theorem within_define (site : Site) (name : String) : site.Within (site.define name) := by
  cases site with
  | nil => trivial
  | cons entry outer =>
      refine ⟨rfl, fun other h => ?_, Within.refl outer⟩
      rw [lookup_cons_true]
      split
      · rfl
      · exact h

theorem within_after (site : Site) (s : Stmt) : site.Within (site.after s) := by
  unfold after
  cases Scoping.declaredName? s with
  | none => exact .refl site
  | some name => exact site.within_define name.lexeme

/-- A name whose value is there is ready, whether or not it was entered before. -/
theorem define_within_declare (site : Site) (name : String) :
    (site.define name).Within ((site.declare name).define name) := by
  cases site with
  | nil => trivial
  | cons entry outer =>
      obtain ⟨region, frame⟩ := entry
      refine ⟨rfl, fun other h => ?_, Within.refl outer⟩
      rw [lookup_cons_true] at h ⊢
      by_cases hother : other = name
      · rw [if_pos hother]
      · rw [if_neg hother] at h ⊢
        split
        · exact h
        · rwa [Scoping.lookup_cons_of_ne hother]

/-- A name that cannot be read yet promises nothing. -/
theorem declare_within (site : Site) (name : String) : (site.declare name).Within site := by
  cases site with
  | nil => trivial
  | cons entry outer =>
      obtain ⟨region, frame⟩ := entry
      refine ⟨rfl, fun other h => ?_, Within.refl outer⟩
      split at h
      · exact h
      · by_cases hother : other = name
        · subst hother
          rw [List.lookup_cons, beq_self_eq_true] at h
          exact nomatch h
        · rwa [Scoping.lookup_cons_of_ne hother] at h

end Site

namespace World

variable {Good : Use → Site → Prop} {w : World}

theorem Realises.within : ∀ {a b : Site} {x : ScopeId}, a.Within b → w.Realises x b →
    w.Realises x a
  | [], [], _, _, hx => hx
  | _ :: _, _ :: _, _, ⟨hregion, hnames, houter⟩, ⟨hlabel, hbound, y, hy, hrest⟩ =>
      ⟨hregion ▸ hlabel, fun name h => hbound name (hnames name h), y, hy, hrest.within houter⟩

end World

end Lox
