import Lox.Proofs.Links

/-!
# Sets and fields

One kind of step sets a field: the one that ends a Set, when its object and its value are there. All other
steps leave the fields of all objects as they are, and a new object has none. What waits for the object or for
the value of a Set does so because the Set was started in its place.
-/

namespace Lox

/-! ## Sets -/

/-- What a Set does once its object and its value are there. -/
structure FieldSet where
  object : ObjectId
  name : String
  value : Value

/-- The value of the latest Set of a field, where later ones come first. -/
def FieldSet.latest (sets : List FieldSet) (o : ObjectId) (name : String) : Option Value :=
  (sets.find? fun s => s.object = o ∧ s.name = name).map FieldSet.value

theorem FieldSet.latest_cons (s : FieldSet) (sets : List FieldSet) (o : ObjectId) (name : String) :
    latest (s :: sets) o name
      = if s.object = o ∧ s.name = name then some s.value else latest sets o name := by
  unfold latest
  rw [List.find?_cons]
  split
  · next h => rw [if_pos (of_decide_eq_true h), Option.map_some]
  · next h => rw [if_neg (of_decide_eq_false h)]

/-- The Set that the next step ends. -/
def Machine.sets? (m : Machine) : Option FieldSet :=
  match m.control, m.frames with
  | .complete (.normal v), .setValue o name :: _ => some ⟨o, name.lexeme, v⟩
  | _, _ => none

/-! ## Fields that stay -/

/-- All objects have the same fields. -/
def Heap.SameFields (h h' : Heap) : Prop := ∀ o, (h'.objectAt o).fields = (h.objectAt o).fields

namespace Heap.SameFields

variable {h h' h'' : Heap}

theorem of_objects (hobjects : h'.objects = h.objects) : h.SameFields h' := by
  intro o
  rw [objectAt, objectAt, hobjects]

theorem refl (h : Heap) : h.SameFields h := fun _ => rfl

theorem trans (hs : h.SameFields h') (hs' : h'.SameFields h'') : h.SameFields h'' :=
  fun o => (hs' o).trans (hs o)

/-- Nothing has fields where there is no object. -/
theorem addObject (h : Heap) (c : ClassId) : h.SameFields (h.addObject ⟨c, ∅⟩).2 := by
  intro o
  rw [objectAt_addObject]
  split
  · next hnew =>
    rw [objectAt, Array.getD_eq_getD_getElem?, Array.getElem?_eq_none (Nat.le_of_eq hnew.symm)]
    rfl
  · rfl

theorem bindParams (x : ScopeId) : ∀ (params : List Token) (args : List Value) (h : Heap),
    h.SameFields (Machine.bindParams x params args h)
  | [], _, h => .refl h
  | _ :: _, [], h => .refl h
  | p :: params, v :: args, h =>
      have hdefined : h.SameFields (h.define x p.lexeme v) := .of_objects rfl
      hdefined.trans (bindParams x params args _)

theorem enter (h : Heap) (f : Closure) (args : List Value) : h.SameFields (h.enter f args) :=
  have hscope : h.SameFields (h.addInnerScope f.scope).2 := .of_objects rfl
  hscope.trans (.bindParams _ f.declared.params args _)

theorem foldMethods (scope : ScopeId) : ∀ (methods : List Function)
    (table : Std.TreeMap String FunctionId) (h : Heap),
      h.SameFields (methods.foldl (Machine.addMethod scope) (table, h)).2
  | [], _, h => .refl h
  | declared :: methods, _, h =>
      have hadded : h.SameFields (h.addFunction ⟨declared, scope, declared.isNamedInitializer⟩).2 :=
        .of_objects rfl
      hadded.trans (foldMethods scope methods _ _)

theorem addDeclared (h : Heap) (x : ScopeId) (name : String) (superclass : Option ClassId)
    (scope : ScopeId) (methods : List Function) :
    h.SameFields (h.addDeclared x name superclass scope methods) :=
  have hadded : h.SameFields (Machine.addMethods scope methods h).2 := .foldMethods scope methods ∅ h
  hadded.trans (.of_objects rfl)

theorem declareClass (st : State) (t : Token) (superclass : Option ClassId)
    (methods : List Function) :
    st.heap.SameFields (Machine.declareClass st t superclass methods).heap := by
  have hnil : st.heap.SameFields (st.heap.define st.scope t.lexeme .nil) := .of_objects rfl
  rw [Machine.heap_declareClass]
  cases superclass with
  | none => exact hnil.trans (.addDeclared _ _ _ none _ methods)
  | some parent =>
      have hsuper : (st.heap.define st.scope t.lexeme .nil).SameFields
          ((st.heap.define st.scope t.lexeme .nil).addScope
            ⟨(∅ : Bindings).insert "super" (.classObject parent), some st.scope⟩).2 := .of_objects rfl
      exact (hnil.trans hsuper).trans (.addDeclared _ _ _ (some parent) _ methods)

end Heap.SameFields

namespace Machine

variable {m : Machine}

/-- **Only Sets change fields.** -/
theorem step_sameFields (h : m.sets? = none) : m.state.heap.SameFields m.step.state.heap := by
  have heffect := m.step_effect
  generalize m.step.state.heap = h' at heffect
  cases heffect with
  | field hcontrol hframes =>
      rw [sets?, hcontrol, hframes] at h
      cases h
  | classDecl _ _ => exact .declareClass _ _ _ _
  | call f args => exact .enter _ f args
  | object c => exact .addObject _ c
  | construction c init args =>
      have hbound : (m.state.heap.addObject ⟨c, ∅⟩).2.SameFields
          ((m.state.heap.addObject ⟨c, ∅⟩).2.bindMethod init ⟨m.state.heap.objects.size⟩).2 :=
        .of_objects rfl
      exact ((Heap.SameFields.addObject _ c).trans hbound).trans (.enter _ _ args)
  | _ => exact .of_objects rfl

theorem sets?_eq_some {s : FieldSet} (h : m.sets? = some s) :
    ∃ name frames, m.control = .complete (.normal s.value) ∧
      m.frames = .setValue s.object name :: frames ∧ name.lexeme = s.name := by
  obtain ⟨control, frames, st⟩ := m
  unfold sets? at h
  dsimp only at h
  split at h
  · cases h
    exact ⟨_, _, rfl, rfl, rfl⟩
  · cases h

/-- A Set ends with its value. -/
theorem step_of_sets {s : FieldSet} (h : m.sets? = some s) :
    m.step = ⟨.complete (.normal s.value), m.frames.tail,
      { m.state with heap := m.state.heap.setField s.object s.name s.value }⟩ := by
  obtain ⟨name, frames, hcontrol, hframes, hname⟩ := sets?_eq_some h
  obtain ⟨control, allFrames, st⟩ := m
  dsimp only at hcontrol hframes
  subst hcontrol hframes
  rw [← hname]
  rfl

/-- **What fields there are after a step.** -/
theorem step_fields (hm : m.Intact) (o : ObjectId) (name : String) :
    (m.step.state.heap.objectAt o).fields[name]?
      = match m.sets? with
        | some s => if s.object = o ∧ s.name = name then some s.value
            else (m.state.heap.objectAt o).fields[name]?
        | none => (m.state.heap.objectAt o).fields[name]? := by
  cases hsets : m.sets? with
  | none => rw [step_sameFields hsets]
  | some s =>
      obtain ⟨token, frames, -, hframes, -⟩ := sets?_eq_some hsets
      -- the object is there, as a frame refers to it
      have hlt : m.state.heap.Has (.object s.object) := by
        refine hm.state.frames (.setValue s.object token) ?_ _ (List.mem_singleton_self _)
        rw [hframes]
        exact List.mem_cons_self ..
      rw [step_of_sets hsets]
      dsimp only
      rw [Heap.objectAt_setField]
      by_cases ho : s.object = o
      · subst ho
        rw [if_pos ⟨rfl, hlt⟩]
        dsimp only
        rw [Std.TreeMap.getElem?_insert]
        by_cases hname : s.name = name
        · rw [if_pos (by simpa using hname), if_pos ⟨rfl, hname⟩]
        · rw [if_neg (by simpa using hname), if_neg fun h => hname h.2]
      · rw [if_neg fun h => ho h.1, if_neg fun h => ho h.1]

end Machine

/-! ## Set expressions -/

/-- The frame waits for the object or for the value of a Set of this name. -/
def Frame.setName? : Frame → Option Token
  | .setObject name _ => some name
  | .setValue _ name => some name
  | _ => none

namespace Machine

variable {m : Machine}

/-- The next step starts on the object of a Set, or on its value. -/
inductive StartsSet (m : Machine) : Frame → List Frame → Prop where
  | object {object value : Expr} {name : Token} : m.control = .eval (.set object name value) →
      StartsSet m (.setObject name value) m.frames
  | value {o : ObjectId} {name : Token} {value : Expr} {below : List Frame} :
      m.control = .complete (.normal (.object o)) → m.frames = .setObject name value :: below →
      StartsSet m (.setValue o name) below

section

variable {frame : Frame} {name : Token} {below : List Frame} {st : State}

/-- What a call makes wait waits for its body. -/
theorem call_startsNone {callee : Value} {paren : Token} {args : List Value} :
    (call callee paren args below st).frames ≠ frame :: below := by
  have hstays : below ≠ frame :: below := List.ne_cons_self
  have henters (f : Closure) (result : CallResult) (st : State) :
      (enter f result args below st).frames ≠ frame :: below :=
    fun h => List.ne_cons_self (List.cons.inj h).2.symm
  unfold call
  split
  · exact hstays
  · split
    · exact hstays
    · split
      · exact hstays
      · unfold invoke
        split
        · split <;> exact hstays
        · exact henters _ _ _
        · unfold construct
          dsimp only
          split
          · exact henters _ _ _
          · exact hstays
        · exact hstays

variable (hset : frame.setName? = some name)

include hset

theorem evaluate_startsSet {e : Expr} (h : (evaluate e below st).frames = frame :: below) :
    StartsSet ⟨.eval e, below, st⟩ frame below := by
  have hstays (h : below = frame :: below) : StartsSet ⟨.eval e, below, st⟩ frame below :=
    absurd h List.ne_cons_self
  cases e with
  | set object token value =>
      cases h
      exact .object rfl
  | literal value => cases value <;> exact hstays h
  | grouping inner => exact hstays h
  | super use method => exact hstays h
  | ident use =>
      simp only [evaluate] at h
      split at h <;> exact hstays h
  | this use =>
      simp only [evaluate] at h
      split at h <;> exact hstays h
  | _ =>
      cases h
      cases hset

theorem execute_startsNone {s : Stmt} : (execute s below st).frames ≠ frame :: below := by
  intro h
  have hstays : below ≠ frame :: below := List.ne_cons_self
  cases s with
  | expression e => exact hstays h
  | variableDecl token value =>
      cases value with
      | none => exact hstays h
      | some e =>
          cases h
          cases hset
  | block body => exact List.ne_cons_self (List.cons.inj h).2.symm
  | functionDecl declared => exact hstays h
  | giveBack keyword value =>
      cases value with
      | none => exact hstays h
      | some e =>
          cases h
          cases hset
  | classDecl token superclass methods =>
      cases superclass with
      | none => exact hstays h
      | some use =>
          cases h
          cases hset
  | _ =>
      cases h
      cases hset

theorem nextArgument_startsNone {callee : Value} {paren : Token} {evaluated : List Value}
    {rest : List Expr} : (nextArgument callee paren evaluated rest below st).frames ≠ frame :: below := by
  cases rest with
  | nil => exact call_startsNone
  | cons e es =>
      intro h
      cases h
      cases hset

/-- Only the object of a Set is followed by its value. -/
theorem continueWith_startsSet {waiting : Frame} {v : Value}
    (h : (continueWith waiting v below st).frames = frame :: below) :
    StartsSet ⟨.complete (.normal v), waiting :: below, st⟩ frame below := by
  have hstays (h : below = frame :: below) :
      StartsSet ⟨.complete (.normal v), waiting :: below, st⟩ frame below := absurd h List.ne_cons_self
  cases waiting with
  | setObject token value =>
      cases v with
      | object o =>
          cases h
          exact .value rfl rfl
      | _ => exact hstays h
  | logical operator right =>
      simp only [continueWith] at h
      split at h <;> exact hstays h
  | callee paren arguments => exact absurd h (nextArgument_startsNone hset)
  | argument callee paren evaluated rest => exact absurd h (nextArgument_startsNone hset)
  | get token => cases v <;> exact hstays h
  | print =>
      simp only [continueWith] at h
      split at h <;> exact hstays h
  | branch yes no =>
      simp only [continueWith] at h
      split at h
      · exact hstays h
      · cases no <;> exact hstays h
  | loopTest condition body =>
      simp only [continueWith] at h
      split at h
      · cases h
        cases hset
      · exact hstays h
  | superclass token use methods => cases v <;> exact hstays h
  -- the frames that still wait belong to no Set
  | sequence rest =>
      cases rest with
      | nil => exact hstays h
      | cons s rest =>
          cases h
          cases hset
  | program rest =>
      cases rest with
      | nil =>
          simp only [continueWith] at h
          split at h <;> exact hstays h
      | cons s rest =>
          cases h
          cases hset
  | binaryLeft operator right =>
      cases h
      cases hset
  | loopBody condition body =>
      cases h
      cases hset
  | _ => exact hstays h

end

/-- **A frame that waits in a Set is there because of that Set.** -/
theorem step_startsSet {frame : Frame} {name : Token} (hset : frame.setName? = some name)
    {below : List Frame} (h : frame :: below <:+ m.step.frames) :
    frame :: below <:+ m.frames ∨ m.StartsSet frame below := by
  have hmoves := m.step_moves
  generalize hstep : m.step = m' at hmoves h
  have gone {other : Frame} {frames : List Frame} (hat : m.frames = other :: frames)
      (h : frame :: below <:+ frames) : frame :: below <:+ m.frames ∨ m.StartsSet frame below := by
    rw [hat]
    exact .inl (h.trans (List.suffix_cons _ _))
  -- a frame that waits for something else is passed over
  have past {other : Frame} {frames : List Frame} (hother : other.setName? = none)
      (h : frame :: below <:+ other :: frames) : frame :: below <:+ frames := by
    rcases List.suffix_cons_iff.mp h with heq | hrest
    · rw [← (List.cons.inj heq).1, hset] at hother
      cases hother
    · exact hrest
  cases hmoves with
  | rests _ _ _ hbelow _ => exact .inl (h.trans hbelow.suffix)
  | @waits below' control waiting hbelow _ _ =>
      rcases List.suffix_cons_iff.mp h with heq | hrest
      · obtain ⟨rfl, rfl⟩ := List.cons.inj heq
        have hframes := congrArg Machine.frames hstep
        refine .inr ?_
        cases hbelow with
        | starts hno =>
            obtain ⟨control, frames, st⟩ := m
            cases control with
            | eval e => exact evaluate_startsSet hset hframes
            | exec s => exact absurd hframes (execute_startsNone hset)
            | complete c => exact absurd rfl (hno c)
        | value hcontrol hat _ =>
            obtain ⟨control, frames, st⟩ := m
            dsimp only at hcontrol hat
            subst hcontrol hat
            exact continueWith_startsSet hset hframes
      · exact .inl (hrest.trans hbelow.suffix)
  | awaits _ => exact .inl (past rfl h)
  | leaves _ => exact .inl h
  | givesBack _ hat => exact gone hat h
  | passes _ hat _ => exact gone hat h
  | opens _ => exact .inl (past rfl (past rfl h))
  | closes _ hat _ => exact gone hat h
  | enters args henters _ => exact .inl ((past rfl (past rfl h)).trans henters.below.suffix)
  | overflows hcall _ _ => exact .inl (h.trans (below_of_calling hcall).suffix)
  | returns _ hat _ => exact gone hat h
  | next _ hat => exact gone hat (past rfl h)
  | ends _ hat _ => exact gone hat h
  | aborts _ hat => exact gone hat h
  | halted _ => exact .inl h

end Machine

end Lox
