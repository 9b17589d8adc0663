import Lox.Proofs.Links.Walks

/-!
# Names by search and by distance

There are two ways to get at a name from a scope: a search outwards for the nearest scope that binds it, and
a walk along as many links as a given distance says, without a look at what is passed. The walk stops
without a word where there are no more links.

On a table of scopes, whatever operations have made it and in whatever order, the two meet at the least
distance at which the name is bound. An assignment changes one binding, and it is seen from exactly those
scopes whose nearest binding of the name is that one.
-/

namespace Lox.Heap

/-- The table after an assignment by search, also if the search fails. -/
def assigned (h : Heap) (x : ScopeId) (name : String) (v : Value) : Heap :=
  (h.assign? x name v).getD h

/-- The tables that can be made, from nothing on, by making scopes, defining names and assigning to
them. -/
inductive Table : Heap → Prop where
  | empty : Table empty
  | new {h : Heap} : Table h → Table (h.addScope ⟨∅, none⟩).2
  | child {h : Heap} {outer : ScopeId} :
      Table h → h.Has (.scope outer) → Table (h.addInnerScope outer).2
  | define {h : Heap} {x : ScopeId} (name : String) (v : Value) :
      Table h → h.Has (.scope x) → Table (h.define x name v)
  | assign {h : Heap} {x : ScopeId} (name : String) (v : Value) :
      Table h → h.Has (.scope x) → Table (h.assigned x name v)
  | assignAt {h : Heap} {x : ScopeId} (distance : Nat) (name : String) (v : Value) :
      Table h → h.Has (.scope x) → Table (h.assignAt x distance name v)

/-- From `x` there are `d` links to `y`, which binds the name, and no fewer links lead to a scope that
does. -/
structure NearestBinding (h : Heap) (name : String) (x : ScopeId) (d : Nat) (y : ScopeId) :
    Prop where
  links : h.Outward d x y
  bound : (h.bound? y name).isSome
  least : ∀ e z, h.Outward e x z → (h.bound? z name).isSome → d ≤ e

/-- No scope to which links lead from `x` binds the name, nor does `x`. -/
def BoundNowhere (h : Heap) (name : String) (x : ScopeId) : Prop :=
  ∀ d y, h.Outward d x y → ¬ (h.bound? y name).isSome

variable {h : Heap} {name : String} {x y z : ScopeId} {d e : Nat}

/-! ## No scope lies around itself -/

theorem Founded.addScope (hf : h.Founded) {s : Scope}
    (hs : ∀ y, s.outer = some y → h.Has (.scope y)) : (h.addScope s).2.Founded := by
  intro x y hxy
  rw [scopeAt_addScope] at hxy
  split at hxy
  · next hx => exact hx ▸ hs y hxy
  · exact hf x y hxy

theorem Founded.define (hf : h.Founded) (x : ScopeId) (name : String) (v : Value) :
    (h.define x name v).Founded := by
  intro y z hyz
  rw [outer_define] at hyz
  exact hf y z hyz

theorem Founded.assigned (hf : h.Founded) (x : ScopeId) (name : String) (v : Value) :
    (h.assigned x name v).Founded := by
  unfold Heap.assigned assign?
  cases h.binder? x name with
  | none => exact hf
  | some y => exact hf.define y name v

theorem Table.founded (ht : h.Table) : h.Founded := by
  induction ht with
  | empty => exact fun _ _ hxy => nomatch hxy
  | new _ ih => exact ih.addScope nofun
  | child _ houter ih =>
      refine ih.addScope fun y hy => ?_
      cases hy
      exact houter
  | define name v _ _ ih => exact ih.define _ name v
  | assign name v _ _ ih => exact ih.assigned _ name v
  | assignAt distance name v _ _ ih => exact ih.define _ name v

/-! ## The nearest binding -/

theorem Outward.unique (hxy : h.Outward d x y) (hxz : h.Outward d x z) : y = z :=
  hxy.ancestor.symm.trans hxz.ancestor

theorem NearestBinding.unique (hy : h.NearestBinding name x d y)
    (hz : h.NearestBinding name x e z) : d = e ∧ y = z := by
  obtain rfl := Nat.le_antisymm (hy.least e z hz.links hz.bound) (hz.least d y hy.links hy.bound)
  exact ⟨rfl, hy.links.unique hz.links⟩

theorem NearestBinding.here (hx : (h.bound? x name).isSome) : h.NearestBinding name x 0 x :=
  ⟨.zero x, hx, fun e _ _ _ => Nat.zero_le e⟩

/-- A scope that does not bind the name is passed. -/
theorem NearestBinding.outwards (hz : h.NearestBinding name y d z)
    (hx : ¬ (h.bound? x name).isSome) (hxy : (h.scopeAt x).outer = some y) :
    h.NearestBinding name x (d + 1) z where
  links := .succ hxy hz.links
  bound := hz.bound
  least e w hw hbound := by
    cases hw with
    | zero => exact absurd hbound hx
    | succ hxy' hw =>
        cases hxy.symm.trans hxy'
        exact Nat.succ_le_succ (hz.least _ w hw hbound)

theorem BoundNowhere.outwards (hy : h.BoundNowhere name y) (hx : ¬ (h.bound? x name).isSome)
    (hxy : (h.scopeAt x).outer = some y) : h.BoundNowhere name x := by
  intro d w hw
  cases hw with
  | zero => exact hx
  | succ hxy' hw =>
      cases hxy.symm.trans hxy'
      exact hy _ w hw

/-- A search ends at the nearest binding, or the name is bound nowhere. -/
theorem Searches.nearest {found : Option ScopeId} (hs : h.Searches name x found) :
    (∃ d y, found = some y ∧ h.NearestBinding name x d y) ∨
      (found = none ∧ h.BoundNowhere name x) := by
  induction hs with
  | here hx => exact .inl ⟨0, _, rfl, .here hx⟩
  | outwards hx hxy _ ih =>
      rcases ih with ⟨d, y, rfl, hy⟩ | ⟨rfl, hnowhere⟩
      · exact .inl ⟨d + 1, y, rfl, hy.outwards hx hxy⟩
      · exact .inr ⟨rfl, hnowhere.outwards hx hxy⟩
  | nowhere hx hlast =>
      refine .inr ⟨rfl, fun d w hw => ?_⟩
      cases hw with
      | zero => exact hx
      | succ hxy _ => exact nomatch hlast.symm.trans hxy

namespace Founded

theorem nearest_or_nowhere (hf : h.Founded) (name : String) (x : ScopeId) :
    (∃ d y, h.binder? x name = some y ∧ h.NearestBinding name x d y) ∨
      (h.binder? x name = none ∧ h.BoundNowhere name x) :=
  (hf.searches name x).nearest

theorem binder?_of_nearest (hf : h.Founded) (hy : h.NearestBinding name x d y) :
    h.binder? x name = some y := by
  rcases hf.nearest_or_nowhere name x with ⟨e, z, hz, hnearest⟩ | ⟨-, hnowhere⟩
  · rw [hz, (hnearest.unique hy).2]
  · exact absurd hy.bound (hnowhere d y hy.links)

theorem binder?_eq_none_iff (hf : h.Founded) :
    h.binder? x name = none ↔ h.BoundNowhere name x := by
  rcases hf.nearest_or_nowhere name x with ⟨d, y, hy, hnearest⟩ | ⟨hnone, hnowhere⟩
  · refine ⟨fun hnone => ?_, fun hnowhere => ?_⟩
    · exact nomatch hy.symm.trans hnone
    · exact absurd hnearest.bound (hnowhere d y hnearest.links)
  · exact ⟨fun _ => hnowhere, fun _ => hnone⟩

end Founded

/-! ## Where the search leads -/

theorem lookup?_of_binder? (hy : h.binder? x name = some y) : h.lookup? x name = h.bound? y name := by
  rw [lookup?, hy]
  rfl

theorem assign?_of_binder? (hy : h.binder? x name = some y) (v : Value) :
    h.assign? x name v = some (h.define y name v) := by
  rw [assign?, hy]
  rfl

theorem lookup?_eq_none_iff : h.lookup? x name = none ↔ h.binder? x name = none := by
  constructor
  · intro hnone
    cases hy : h.binder? x name with
    | none => rfl
    | some y =>
        have hbound : (h.bound? y name).isSome := by simpa using List.find?_some hy
        rw [lookup?_of_binder? hy] at hnone
        rw [hnone] at hbound
        exact nomatch hbound
  · intro hnone
    rw [lookup?, hnone]
    rfl

/-! ## What an assignment leaves as it is -/

theorem chainFrom_define (x : ScopeId) (name : String) (v : Value) : ∀ (limit : Nat) (y : ScopeId),
    (h.define x name v).chainFrom limit y = h.chainFrom limit y
  | 0, _ => rfl
  | limit + 1, y => by
      rw [chainFrom, chainFrom, outer_define]
      cases (h.scopeAt y).outer with
      | none => rfl
      | some z => exact congrArg (y :: ·) (chainFrom_define x name v limit z)

/-- A new value for a name that is bound leads no search elsewhere. -/
theorem binder?_define (hy : (h.bound? y name).isSome) (v : Value) (z : ScopeId) (other : String) :
    (h.define y name v).binder? z other = h.binder? z other := by
  have hsame : ∀ w, ((h.define y name v).bound? w other).isSome = (h.bound? w other).isSome := by
    intro w
    rw [bound?_define]
    split
    · next heq =>
      obtain ⟨⟨rfl, -⟩, rfl⟩ := heq
      exact hy.symm
    · rfl
  unfold binder? chain
  simp only [chainFrom_define, hsame]

/-- After an assignment the name has the new value where the search for it leads to the binding that was
changed, and all else that is searched for is what it was. -/
theorem lookup?_define (hy : (h.bound? y name).isSome) (v : Value) (z : ScopeId) (other : String) :
    (h.define y name v).lookup? z other
      = if other = name ∧ h.binder? z other = some y then some v else h.lookup? z other := by
  have hbinder := binder?_define hy v z other
  cases hz : h.binder? z other with
  | none =>
      rw [hz] at hbinder
      rw [if_neg (by simp), lookup?_eq_none_iff.mpr hbinder, lookup?_eq_none_iff.mpr hz]
  | some w =>
      rw [hz] at hbinder
      have hin : y.index < h.scopes.size := by
        obtain ⟨u, hu⟩ := Option.isSome_iff_exists.mp hy
        exact scope_lt hu
      rw [lookup?_of_binder? hbinder, lookup?_of_binder? hz, bound?_define]
      by_cases hwhere : other = name ∧ w = y
      · obtain ⟨rfl, rfl⟩ := hwhere
        rw [if_pos ⟨⟨rfl, hin⟩, rfl⟩, if_pos ⟨rfl, rfl⟩]
      · rw [if_neg, if_neg]
        · rintro ⟨hname, hw⟩
          exact hwhere ⟨hname, Option.some.inj hw⟩
        · rintro ⟨⟨rfl, -⟩, rfl⟩
          exact hwhere ⟨rfl, rfl⟩

/-- **Search and distance agree.** On a table of scopes a name has a nearest binding or is bound nowhere.
If it has one at the distance `d`, then the search finds what the walk along `d` links finds, and an
assignment by search leaves the table that an assignment at the distance `d` leaves. On this table the
name has the new value wherever its nearest binding is that one, and nothing else that can be looked up
has changed. The search fails exactly if the name is bound nowhere, and then an assignment by search fails
as well and leaves the table as it is. -/
theorem search_agrees_with_distance {h : Heap} (ht : h.Table) (x : ScopeId) (name : String)
    (v : Value) :
    ((∃ d y, h.NearestBinding name x d y) ∨ h.BoundNowhere name x) ∧
    (∀ d y, h.NearestBinding name x d y →
      (h.lookup? x name).isSome ∧ h.lookup? x name = h.lookupAt? x d name ∧
      h.assign? x name v = some (h.assignAt x d name v) ∧
      (∀ z e, h.NearestBinding name z e y → (h.assignAt x d name v).lookup? z name = some v) ∧
      (∀ z other, (other = name → ∀ e, ¬ h.NearestBinding name z e y) →
        (h.assignAt x d name v).lookup? z other = h.lookup? z other)) ∧
    (h.lookup? x name = none ↔ h.BoundNowhere name x) ∧
    (h.BoundNowhere name x → h.assign? x name v = none ∧ h.assigned x name v = h) := by
  have hf := ht.founded
  refine ⟨?_, fun d y hy => ?_, lookup?_eq_none_iff.trans hf.binder?_eq_none_iff, fun hnowhere => ?_⟩
  · rcases hf.nearest_or_nowhere name x with ⟨d, y, -, hy⟩ | ⟨-, hnowhere⟩
    · exact .inl ⟨d, y, hy⟩
    · exact .inr hnowhere
  · have hbinder := hf.binder?_of_nearest hy
    rw [lookup?_of_binder? hbinder, lookupAt?, assignAt, hy.links.ancestor]
    refine ⟨hy.bound, rfl, assign?_of_binder? hbinder v, fun z e hz => ?_, fun z other hother => ?_⟩
    · rw [lookup?_define hy.bound, if_pos ⟨rfl, hf.binder?_of_nearest hz⟩]
    · rw [lookup?_define hy.bound, if_neg]
      rintro ⟨rfl, hz⟩
      rcases hf.nearest_or_nowhere other z with ⟨e, w, hw, hnearest⟩ | ⟨hnone, -⟩
      · cases hw.symm.trans hz
        exact hother rfl e hnearest
      · cases hnone.symm.trans hz
  · have hnone : h.assign? x name v = none := by
      rw [assign?, hf.binder?_eq_none_iff.mpr hnowhere]
      rfl
    refine ⟨hnone, ?_⟩
    rw [assigned, hnone]
    rfl

/-- A name is bound at the top level and in the first of two blocks. So an assignment from a block in the
first one is not seen from the second one. -/
theorem search_agrees_with_distance_shadowed :
    let top : ScopeId := ⟨0⟩
    let first : ScopeId := ⟨1⟩
    let inner : ScopeId := ⟨2⟩
    let second : ScopeId := ⟨3⟩
    let blocks := (((empty.addScope ⟨∅, none⟩).2.addInnerScope top).2.addInnerScope first).2
    let h := ((blocks.addInnerScope top).2.define top "a" .nil).define first "a" .nil
    h.Table ∧ h.NearestBinding "a" inner 1 first ∧ h.NearestBinding "a" second 1 top ∧
      h.assign? inner "a" (.bool true) = some (h.assignAt inner 1 "a" (.bool true)) ∧
      (h.assignAt inner 1 "a" (.bool true)).lookup? inner "a" = some (.bool true) ∧
      (h.assignAt inner 1 "a" (.bool true)).lookup? second "a" = h.lookup? second "a" ∧
      h.assigned inner "b" (.bool true) = h := by
  intro top first inner second blocks h
  have ht : h.Table :=
    .define "a" .nil (.define "a" .nil (.child (.child (.child (.new .empty)
      (Nat.zero_lt_succ 0)) (Nat.lt_succ_self 1)) (Nat.zero_lt_succ 2)) (Nat.zero_lt_succ 3))
      (Nat.succ_lt_succ (Nat.zero_lt_succ 2))
  have hinner : h.NearestBinding "a" inner 1 first :=
    (NearestBinding.here (by cbv)).outwards (by cbv; decide) rfl
  have hsecond : h.NearestBinding "a" second 1 top :=
    (NearestBinding.here (by cbv)).outwards (by cbv; decide) rfl
  obtain ⟨-, hbound, -, -⟩ := search_agrees_with_distance ht inner "a" (.bool true)
  obtain ⟨-, -, hassign, hseen, hsame⟩ := hbound 1 first hinner
  obtain ⟨-, -, hfails, hnowhere⟩ := search_agrees_with_distance ht inner "b" (.bool true)
  refine ⟨ht, hinner, hsecond, hassign, hseen inner 1 hinner, hsame second "a" fun _ e he => ?_, ?_⟩
  · exact absurd (congrArg ScopeId.index (he.unique hsecond).2) (by decide)
  · exact (hnowhere (hfails.mp (by cbv))).2

end Lox.Heap
