import Lox.Proofs.Scopes.Worlds

/-!
# How worlds change

A world changes in six ways: a name is bound, a field is set, or a scope, a function, a class or an
object is added. Each extends the world and keeps it sound.
-/

namespace Lox.World

variable {Good : Use → Site → Prop} {w : World}

def define (w : World) (x : ScopeId) (name : String) (v : Value) : World :=
  { w with heap := w.heap.define x name v }

def setField (w : World) (o : ObjectId) (name : String) (v : Value) : World :=
  { w with heap := w.heap.setField o name v }

/-- Adds a scope that is made for a region. -/
def addScope (w : World) (s : Scope) (region : Region) : World :=
  ⟨(w.heap.addScope s).2, w.labels ++ [region], w.globals⟩

def addFunction (w : World) (c : Closure) : World := { w with heap := (w.heap.addFunction c).2 }

def addClass (w : World) (c : Class) : World := { w with heap := (w.heap.addClass c).2 }

def addObject (w : World) (o : Object) : World := { w with heap := (w.heap.addObject o).2 }

theorem Sound.index_lt (h : w.Sound Good) {x : ScopeId} {region : Region}
    (hx : w.labels[x.index]? = some region) : x.index < w.heap.scopes.size := by
  obtain ⟨hlt, -⟩ := List.getElem?_eq_some_iff.mp hx
  rwa [← h.length]

/-- A change that only shows in what names are bound to keeps special scopes as they are, if it is
not about special names. -/
theorem Sound.change (h : w.Sound Good) {w' : World} (hextends : w.Extends w')
    (hlabels : w'.labels = w.labels) (hsize : w'.heap.scopes.size = w.heap.scopes.size)
    (hvalues : ∀ x name v, w'.heap.bound? x name = some v →
      w'.Holds Good v ∧ (Plain name ∨ w.heap.bound? x name = some v))
    (hfields : ∀ (o : ObjectId) (name : String) v, (w'.heap.objectAt o).fields[name]? = some v →
      w'.Holds Good v)
    (hmethods : ∀ (c : ClassId) (name : String) f, (w'.heap.classAt c).methods[name]? = some f →
      w'.Method Good f) : w'.Sound Good where
  length := by rw [hlabels, h.length, hsize]
  globals := by
    obtain ⟨hlabel, houter⟩ := h.globals
    rw [hextends.globals, hlabels]
    exact ⟨hlabel, (hextends.outer _ _ hlabel).trans houter⟩
  values x name v hv := (hvalues x name v hv).1
  fields := hfields
  methods := hmethods
  receivers x method hx := by
    rw [hlabels] at hx
    obtain ⟨o, ho⟩ := h.receivers x method hx
    obtain ⟨v, hv⟩ := Option.isSome_iff_exists.mp (hextends.bound x "this" (by rw [ho]; rfl))
    rcases (hvalues x "this" v hv).2 with hplain | hsame
    · exact absurd rfl hplain.1
    · rw [ho] at hsame
      cases hsame
      exact ⟨o, hv⟩
  parents x methods hx := by
    rw [hlabels] at hx
    obtain ⟨c, hc⟩ := h.parents x methods hx
    obtain ⟨v, hv⟩ := Option.isSome_iff_exists.mp (hextends.bound x "super" (by rw [hc]; rfl))
    rcases (hvalues x "super" v hv).2 with hplain | hsame
    · exact absurd rfl hplain.2
    · rw [hc] at hsame
      cases hsame
      exact ⟨c, hv⟩

/-! ## Names -/

theorem extends_define (w : World) (x : ScopeId) (name : String) (v : Value) :
    w.Extends (w.define x name v) where
  globals := rfl
  labels _ _ h := h
  outer y _ _ := w.heap.outer_define x y name v
  bound y other h := w.heap.bound?_define_mono x y name other v h
  functions _ hf := ⟨hf, rfl⟩

/-- The value may be a function that needs the new name to be there. -/
theorem Sound.define (h : w.Sound Good) {name : String} (hname : Plain name) {x : ScopeId} {v : Value}
    (hv : (w.define x name v).Holds Good v) : (w.define x name v).Sound Good := by
  have hextends := w.extends_define x name v
  refine h.change hextends rfl (w.heap.size_define x name v) ?_
    (fun o other u hu => (h.fields o other u hu).mono hextends)
    fun c other f hf => (h.methods c other f hf).mono hextends
  intro y other u hu
  have hbound := hu
  rw [World.define, Heap.bound?_define] at hbound
  split at hbound
  · next hsame =>
    cases hbound
    exact ⟨hv, .inl (hsame.2 ▸ hname)⟩
  · exact ⟨(h.values y other u hbound).mono hextends, .inr hbound⟩

/-- Once a name is bound in the innermost scope, it is ready there. -/
theorem Realises.define (h : w.Sound Good) {x : ScopeId} {site : Site} (hx : w.Realises x site)
    (name : String) (v : Value) : (w.define x name v).Realises x (site.define name) := by
  have hextends := w.extends_define x name v
  cases site with
  | nil => exact hx
  | cons entry outer =>
      obtain ⟨region, frame⟩ := entry
      obtain ⟨hlabel, hbound, y, hy, hrest⟩ := hx
      refine ⟨hlabel, fun other hother => ?_, y, (hextends.outer x region hlabel).trans hy,
        hrest.mono hextends⟩
      rw [Site.lookup_cons_true] at hother
      by_cases hname : other = name
      · subst hname
        have hself := w.heap.bound?_define_self (h.index_lt hlabel) other v
        exact Option.isSome_iff_exists.mpr ⟨v, hself⟩
      · rw [if_neg hname] at hother
        exact hextends.bound x other (hbound other hother)

/-! ## Fields -/

theorem extends_setField (w : World) (o : ObjectId) (name : String) (v : Value) :
    w.Extends (w.setField o name v) :=
  ⟨rfl, fun _ _ h => h, fun _ _ _ => rfl, fun _ _ h => h, fun _ hf => ⟨hf, rfl⟩⟩

theorem Sound.setField (h : w.Sound Good) {v : Value} (hv : w.Holds Good v) (o : ObjectId)
    (name : String) : (w.setField o name v).Sound Good := by
  have hextends := w.extends_setField o name v
  refine h.change hextends rfl rfl
    (fun x other u hu => ⟨(h.values x other u hu).mono hextends, .inr hu⟩) ?_
    fun c other f hf => (h.methods c other f hf).mono hextends
  intro o' other u hu
  rw [World.setField, Heap.objectAt_setField] at hu
  split at hu
  · rw [Std.TreeMap.getElem?_insert] at hu
    split at hu
    · cases hu
      exact hv.mono hextends
    · exact (h.fields o' other u hu).mono hextends
  · exact (h.fields o' other u hu).mono hextends

/-! ## Functions, classes and objects -/

theorem extends_addFunction (w : World) (c : Closure) : w.Extends (w.addFunction c) where
  globals := rfl
  labels _ _ h := h
  outer _ _ _ := rfl
  bound _ _ h := h
  functions f hf := by
    refine ⟨?_, ?_⟩
    · show f.index < (w.heap.functions.push c).size
      rw [Array.size_push]
      exact Nat.lt_succ_of_lt hf
    · exact (w.heap.functionAt_addFunction c f).trans (if_neg (Nat.ne_of_lt hf))

theorem Sound.addFunction (h : w.Sound Good) (c : Closure) : (w.addFunction c).Sound Good := by
  have hextends := w.extends_addFunction c
  exact h.change hextends rfl rfl
    (fun x name v hv => ⟨(h.values x name v hv).mono hextends, .inr hv⟩)
    (fun o name v hv => (h.fields o name v hv).mono hextends)
    fun c name f hf => (h.methods c name f hf).mono hextends

/-- The function that was added, as a declaration at a site. -/
theorem addFunction_at (w : World) (c : Closure) :
    (⟨w.heap.functions.size⟩ : FunctionId).index < (w.addFunction c).heap.functions.size ∧
      (w.addFunction c).heap.functionAt ⟨w.heap.functions.size⟩ = c := by
  refine ⟨?_, (w.heap.functionAt_addFunction c _).trans (if_pos rfl)⟩
  show w.heap.functions.size < (w.heap.functions.push c).size
  rw [Array.size_push]
  exact Nat.lt_succ_self _

theorem callable_addFunction {c : Closure} {site : Site} (hscope : w.Realises c.scope site)
    (hfits : c.declared.Fits Good site) :
    (w.addFunction c).Callable Good ⟨w.heap.functions.size⟩ := by
  obtain ⟨hlt, hat⟩ := w.addFunction_at c
  refine ⟨hlt, site, ?_, ?_⟩
  · rw [hat]
    exact hscope.mono (w.extends_addFunction c)
  · rwa [hat]

theorem method_addFunction {c : Closure} {site : Site} (hscope : w.Realises c.scope site)
    (hfits : c.declared.Fits Good (site.inReceiver c.declared)) :
    (w.addFunction c).Method Good ⟨w.heap.functions.size⟩ := by
  obtain ⟨hlt, hat⟩ := w.addFunction_at c
  refine ⟨hlt, site, ?_, ?_⟩
  · rw [hat]
    exact hscope.mono (w.extends_addFunction c)
  · rwa [hat]

theorem extends_addClass (w : World) (c : Class) : w.Extends (w.addClass c) :=
  ⟨rfl, fun _ _ h => h, fun _ _ _ => rfl, fun _ _ h => h, fun _ hf => ⟨hf, rfl⟩⟩

theorem Sound.addClass (h : w.Sound Good) {c : Class}
    (hc : ∀ (name : String) f, c.methods[name]? = some f → w.Method Good f) :
    (w.addClass c).Sound Good := by
  have hextends := w.extends_addClass c
  refine h.change hextends rfl rfl
    (fun x name v hv => ⟨(h.values x name v hv).mono hextends, .inr hv⟩)
    (fun o name v hv => (h.fields o name v hv).mono hextends) ?_
  intro x name f hf
  rw [World.addClass, Heap.classAt_addClass] at hf
  split at hf
  · exact (hc name f hf).mono hextends
  · exact (h.methods x name f hf).mono hextends

theorem extends_addObject (w : World) (o : Object) : w.Extends (w.addObject o) :=
  ⟨rfl, fun _ _ h => h, fun _ _ _ => rfl, fun _ _ h => h, fun _ hf => ⟨hf, rfl⟩⟩

/-- A new object has no fields. -/
theorem Sound.addObject (h : w.Sound Good) (c : ClassId) : (w.addObject ⟨c, ∅⟩).Sound Good := by
  have hextends := w.extends_addObject ⟨c, ∅⟩
  refine h.change hextends rfl rfl
    (fun x name v hv => ⟨(h.values x name v hv).mono hextends, .inr hv⟩) ?_
    fun c name f hf => (h.methods c name f hf).mono hextends
  intro o name v hv
  rw [World.addObject, Heap.objectAt_addObject] at hv
  split at hv
  · simp at hv
  · exact (h.fields o name v hv).mono hextends

/-! ## Scopes -/

theorem extends_addScope (h : w.Sound Good) (s : Scope) (region : Region) :
    w.Extends (w.addScope s region) where
  globals := rfl
  labels i region' hi := by
    obtain ⟨hlt, -⟩ := List.getElem?_eq_some_iff.mp hi
    show (w.labels ++ [region])[i]? = some region'
    rw [List.getElem?_append_left hlt, hi]
  outer x region' hx := by
    show ((w.heap.addScope s).2.scopeAt x).outer = _
    rw [Heap.scopeAt_addScope, if_neg (Nat.ne_of_lt (h.index_lt hx))]
  bound x name hx := by
    show ((w.heap.addScope s).2.bound? x name).isSome
    unfold Heap.bound? at hx ⊢
    rw [Heap.scopeAt_addScope]
    split
    · next hnew =>
      rw [Heap.scopeAt_of_size_le _ (Nat.le_of_eq hnew.symm)] at hx
      simp at hx
    · exact hx
  functions _ hf := ⟨hf, rfl⟩

/-- The label of a scope after one was added. -/
theorem label_addScope (h : w.Sound Good) {s : Scope} {region region' : Region} {i : Nat}
    (hi : (w.addScope s region).labels[i]? = some region') :
    (i = w.heap.scopes.size ∧ region' = region) ∨
      (i ≠ w.heap.scopes.size ∧ w.labels[i]? = some region') := by
  rw [← h.length]
  exact Heap.getElem?_snoc hi

theorem bound?_addScope (w : World) (s : Scope) (region : Region) (x : ScopeId) (name : String) :
    (w.addScope s region).heap.bound? x name
      = if x.index = w.heap.scopes.size then s.bindings[name]? else w.heap.bound? x name :=
  w.heap.bound?_addScope s x name

theorem Sound.addScope (h : w.Sound Good) {s : Scope} {region : Region}
    (hvalues : ∀ (name : String) v, s.bindings[name]? = some v → w.Holds Good v)
    (hreceiver : ∀ method, region = .receiver method →
      ∃ o, s.bindings["this"]? = some (.object o))
    (hparent : ∀ methods, region = .parent methods →
      ∃ c, s.bindings["super"]? = some (.classObject c)) :
    (w.addScope s region).Sound Good where
  length := by
    show (w.labels ++ [region]).length = (w.heap.scopes.push s).size
    rw [List.length_append, h.length, Array.size_push]
    rfl
  globals := by
    have hextends := extends_addScope h s region
    obtain ⟨hlabel, houter⟩ := h.globals
    exact ⟨hextends.labels _ _ hlabel, (hextends.outer _ _ hlabel).trans houter⟩
  values x name v hv := by
    rw [bound?_addScope] at hv
    split at hv
    · exact (hvalues name v hv).mono (extends_addScope h s region)
    · exact (h.values x name v hv).mono (extends_addScope h s region)
  fields o name v hv := (h.fields o name v hv).mono (extends_addScope h s region)
  methods c name f hf := (h.methods c name f hf).mono (extends_addScope h s region)
  -- a `this` or `super` is looked for in the new scope, or where it was before
  receivers x method hx := by
    rw [bound?_addScope]
    rcases label_addScope h hx with ⟨hnew, hregion⟩ | ⟨hold, hlabel⟩
    · rw [if_pos hnew]
      exact hreceiver method hregion.symm
    · rw [if_neg hold]
      exact h.receivers x method hlabel
  parents x methods hx := by
    rw [bound?_addScope]
    rcases label_addScope h hx with ⟨hnew, hregion⟩ | ⟨hold, hlabel⟩
    · rw [if_pos hnew]
      exact hparent methods hregion.symm
    · rw [if_neg hold]
      exact h.parents x methods hlabel

/-- A scope that is made for a region inside another scope realises the inner site. -/
theorem Realises.addScope (h : w.Sound Good) {x : ScopeId} {site : Site} (hx : w.Realises x site)
    (region : Region) (frame : Scoping.Frame) (bindings : Bindings)
    (hframe : ∀ name, frame.lookup name = some true → (bindings[name]?).isSome) :
    (w.addScope ⟨bindings, some x⟩ region).Realises ⟨w.heap.scopes.size⟩
      ((region, frame) :: site) := by
  refine ⟨?_, fun name hname => ?_, x, ?_, hx.mono (extends_addScope h _ region)⟩
  · show (w.labels ++ [region])[w.heap.scopes.size]? = some region
    rw [← h.length, List.getElem?_append_right (Nat.le_refl _), Nat.sub_self]
    rfl
  · rw [bound?_addScope, if_pos rfl]
    exact hframe name hname
  · show ((w.heap.addScope _).2.scopeAt _).outer = some x
    rw [Heap.scopeAt_addScope, if_pos rfl]

end Lox.World
