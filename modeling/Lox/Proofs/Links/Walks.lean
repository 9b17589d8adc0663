import Lox.Proofs.Links.Things
import Lox.Proofs.Scopes.Agreement

/-!
# Walks along the links

A name is searched for from a scope outwards, and a method from a class upwards, without a bound on the way.
On an intact heap these searches end, as each link leads to something older. They end where the searches
end that count their steps.
-/

namespace Lox

namespace Heap

/-- From `c` there are `d` links to superclasses, and they lead to `e`. -/
inductive Upward (h : Heap) : (d : Nat) → (c e : ClassId) → Prop where
  | zero (c : ClassId) : Upward h 0 c c
  | succ {d : Nat} {c parent e : ClassId} :
      (h.classAt c).superclass = some parent → Upward h d parent e → Upward h (d + 1) c e

/-- The search for a name from a scope outwards ends: with the first scope that binds the name, or with
none. -/
inductive Searches (h : Heap) (name : String) : ScopeId → Option ScopeId → Prop where
  | here {x : ScopeId} : (h.bound? x name).isSome → Searches h name x (some x)
  | outwards {x y : ScopeId} {found : Option ScopeId} : ¬ (h.bound? x name).isSome →
      (h.scopeAt x).outer = some y → Searches h name y found → Searches h name x found
  | nowhere {x : ScopeId} : ¬ (h.bound? x name).isSome → (h.scopeAt x).outer = none →
      Searches h name x none

/-- The search for a method from a class upwards ends: with that of the first class that has it, or with
none. -/
inductive SearchesMethod (h : Heap) (name : String) : ClassId → Option FunctionId → Prop where
  | here {c : ClassId} {f : FunctionId} : (h.classAt c).methods[name]? = some f →
      SearchesMethod h name c (some f)
  | upwards {c parent : ClassId} {found : Option FunctionId} : (h.classAt c).methods[name]? = none →
      (h.classAt c).superclass = some parent → SearchesMethod h name parent found →
      SearchesMethod h name c found
  | nowhere {c : ClassId} : (h.classAt c).methods[name]? = none → (h.classAt c).superclass = none →
      SearchesMethod h name c none

variable {h : Heap} {name : String}

/-- A search ends in one way only. -/
theorem Searches.unique {x : ScopeId} {found found' : Option ScopeId} (hx : h.Searches name x found)
    (hx' : h.Searches name x found') : found = found' := by
  induction hx with
  | here hbound =>
      cases hx' with
      | here _ => rfl
      | outwards hnone _ _ => exact absurd hbound hnone
      | nowhere hnone _ => exact absurd hbound hnone
  | outwards hnone houter _ ih =>
      cases hx' with
      | here hbound => exact absurd hbound hnone
      | outwards _ houter' hy =>
          cases houter.symm.trans houter'
          exact ih hy
      | nowhere _ houter' => exact nomatch houter.symm.trans houter'
  | nowhere hnone houter =>
      cases hx' with
      | here hbound => exact absurd hbound hnone
      | outwards _ houter' _ => exact nomatch houter.symm.trans houter'
      | nowhere _ _ => rfl

theorem SearchesMethod.unique {c : ClassId} {found found' : Option FunctionId}
    (hc : h.SearchesMethod name c found) (hc' : h.SearchesMethod name c found') : found = found' := by
  induction hc with
  | here hmethod =>
      cases hc' with
      | here hmethod' => exact hmethod.symm.trans hmethod'
      | upwards hnone _ _ => exact nomatch hmethod.symm.trans hnone
      | nowhere hnone _ => exact nomatch hmethod.symm.trans hnone
  | upwards hnone hparent _ ih =>
      cases hc' with
      | here hmethod => exact nomatch hnone.symm.trans hmethod
      | upwards _ hparent' hc' =>
          cases hparent.symm.trans hparent'
          exact ih hc'
      | nowhere _ hparent' => exact nomatch hparent.symm.trans hparent'
  | nowhere hnone hparent =>
      cases hc' with
      | here hmethod => exact nomatch hnone.symm.trans hmethod
      | upwards _ hparent' _ => exact nomatch hparent.symm.trans hparent'
      | nowhere _ _ => rfl

/-- As many links lead to the ancestor as were asked for, or there are no more. -/
theorem outward_ancestor (h : Heap) : ∀ (distance : Nat) (x : ScopeId),
    h.Outward distance x (h.ancestor x distance) ∨
      (∃ d, h.Outward d x (h.ancestor x distance)) ∧
        (h.scopeAt (h.ancestor x distance)).outer = none
  | 0, x => .inl (.zero x)
  | distance + 1, x => by
      rw [ancestor]
      cases houter : (h.scopeAt x).outer with
      | none => exact .inr ⟨⟨0, .zero x⟩, houter⟩
      | some y =>
          rcases outward_ancestor h distance y with hall | ⟨⟨d, hd⟩, hlast⟩
          · exact .inl (.succ houter hall)
          · exact .inr ⟨⟨d + 1, .succ houter hd⟩, hlast⟩

/-- Every scope is younger than the one around it. -/
def Founded (h : Heap) : Prop := ∀ x y, (h.scopeAt x).outer = some y → y.index < x.index

theorem Founded.searches_chainFrom (hf : h.Founded) : ∀ {limit : Nat} {x : ScopeId},
    x.index < limit →
      h.Searches name x ((h.chainFrom limit x).find? fun y => (h.bound? y name).isSome)
  | 0, _, hx => absurd hx (Nat.not_lt_zero _)
  | limit + 1, x, hx => by
      rw [chainFrom, List.find?_cons]
      cases hbound : (h.bound? x name).isSome with
      | true => exact .here hbound
      | false =>
          have hnone : ¬ (h.bound? x name).isSome := by
            rw [hbound]
            exact Bool.false_ne_true
          cases houter : (h.scopeAt x).outer with
          | none => exact .nowhere hnone houter
          | some y =>
              have holder := hf x y houter
              exact .outwards hnone houter
                (hf.searches_chainFrom (Nat.lt_of_lt_of_le holder (Nat.le_of_lt_succ hx)))

/-- Where scopes do not lie around themselves, the search for a name ends where it should. -/
theorem Founded.searches (hf : h.Founded) (name : String) (x : ScopeId) :
    h.Searches name x (h.binder? x name) :=
  hf.searches_chainFrom (Nat.lt_succ_self _)

namespace Intact

variable {globals : ScopeId}

/-- **Every scope leads out to the top level.** -/
theorem outward (hi : h.Intact globals) (x : ScopeId) (hx : h.Has (.scope x)) :
    ∃ d, h.Outward d x globals := by
  by_cases htop : x = globals
  · exact ⟨0, htop ▸ .zero x⟩
  · obtain ⟨y, hy⟩ := hi.inside x hx htop
    have holder := hi.older x y hy
    obtain ⟨d, hd⟩ := hi.outward y (Nat.lt_trans holder hx)
    exact ⟨d + 1, .succ hy hd⟩
termination_by x.index

theorem has_outward (hi : h.Intact globals) {d : Nat} {x y : ScopeId} (hxy : h.Outward d x y)
    (hx : h.Has (.scope x)) : h.Has (.scope y) := by
  induction hxy with
  | zero x => exact hx
  | succ houter _ ih => exact ih (hi.refers _ _ hx (.outer houter))

/-- As many links lead to an ancestor as were asked for, unless the top level comes first. -/
theorem ancestor (hi : h.Intact globals) {x : ScopeId} (hx : h.Has (.scope x)) (distance : Nat) :
    h.Outward distance x (h.ancestor x distance) ∨ h.ancestor x distance = globals := by
  rcases h.outward_ancestor distance x with hall | ⟨⟨d, hd⟩, hlast⟩
  · exact .inl hall
  · by_cases htop : h.ancestor x distance = globals
    · exact .inr htop
    · obtain ⟨y, hy⟩ := hi.inside _ (hi.has_outward hd hx) htop
      exact nomatch hlast.symm.trans hy

/-- **Every class has a last superclass.** -/
theorem upward (hi : h.Intact globals) (c : ClassId) :
    ∃ d last, h.Upward d c last ∧ (h.classAt last).superclass = none := by
  cases hparent : (h.classAt c).superclass with
  | none => exact ⟨0, c, .zero c, hparent⟩
  | some parent =>
      have holder := hi.superclass c parent hparent
      obtain ⟨d, last, hd, hlast⟩ := hi.upward parent
      exact ⟨d + 1, last, .succ hparent hd, hlast⟩
termination_by c.index

/-! ### Searches that count their steps -/

/-- **The search for a name ends where it should.** -/
theorem searches (hi : h.Intact globals) (name : String) (x : ScopeId) :
    h.Searches name x (h.binder? x name) :=
  Founded.searches hi.older name x

theorem searchesMethod_from (hi : h.Intact globals) : ∀ {limit : Nat} {c : ClassId}, c.index < limit →
    h.SearchesMethod name c (h.findMethodFrom name limit c)
  | 0, _, hc => absurd hc (Nat.not_lt_zero _)
  | limit + 1, c, hc => by
      rw [findMethodFrom]
      cases hmethod : (h.classAt c).methods[name]? with
      | some f => exact .here hmethod
      | none =>
          cases hparent : (h.classAt c).superclass with
          | none => exact .nowhere hmethod hparent
          | some parent =>
              have holder := hi.superclass c parent hparent
              exact .upwards hmethod hparent
                (hi.searchesMethod_from (Nat.lt_of_lt_of_le holder (Nat.le_of_lt_succ hc)))

/-- **The search for a method ends where it should.** -/
theorem searchesMethod (hi : h.Intact globals) (name : String) (c : ClassId) :
    h.SearchesMethod name c (h.findMethod? c name) :=
  hi.searchesMethod_from (Nat.lt_succ_self _)

end Intact

end Heap

end Lox
