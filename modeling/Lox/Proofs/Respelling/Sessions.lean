import Lox.Proofs.Control.Sessions
import Lox.Proofs.Respelling.Scoping
import Lox.Proofs.Respelling.Steps

/-!
# Respelled programs in a session

A session that runs a respelled program is in step with one that runs the program. What is on the
heap before is left as it is, so at the start the heap is its own twin, and all scopes are spelled
as before. What a use with an address reads is bound, as the walk and the running program agree on
scopes.
-/

namespace Lox

open Respelling (same AllSame)

/-- A machine of a session finds what it reads. -/
theorem Machine.Belongs.finds {m : Machine} {s : Session} {programs : List (List Stmt)}
    (h : m.Belongs s programs) : m.Finds := by
  intro use hcontrol haddress
  obtain ⟨labels, hfits⟩ := h.fits
  obtain ⟨d, hd⟩ := Option.ne_none_iff_exists'.mp haddress
  -- both ways to read a name
  have hfound : ∀ k, m.Evaluates ⟨k, use⟩ → k = .read ∨ k = .this → m.state.lookup? use ≠ none := by
    intro k hevaluates hk
    obtain ⟨site, ⟨P, hP, huse⟩, hscope⟩ := hfits.exists_site hevaluates
    obtain ⟨x, hreaches⟩ :=
      hfits.reaches hevaluates hscope (h.places P hP _ huse) h.addresses hd
    obtain ⟨v, hv, -⟩ := hreaches.value hk
    have hlookup : m.state.lookup? use = some v :=
      (Machine.lookup?_of_address hd hreaches.links).trans hv
    rw [hlookup]
    exact nofun
  obtain ⟨control, frames, st⟩ := m
  rcases hcontrol with rfl | rfl
  · exact hfound .read (.read use frames st) (.inl rfl)
  · exact hfound .this (.this use frames st) (.inr rfl)

/-! ## The start -/

namespace Twin

/-- A heap and itself, before anything is spelled in another way. -/
def alone (h : Heap) : Twin := ⟨h, h, List.replicate h.scopes.size same⟩

theorem getElem?_alone {h : Heap} {i : Nat} {ρ : Respelling}
    (hi : (alone h).spellings[i]? = some ρ) : ρ = same :=
  List.eq_of_mem_replicate (List.mem_of_getElem? hi)

theorem allSame_map {α : Type} (xs : List α) : AllSame (xs.map fun _ => same) := by
  intro ρ hρ
  obtain ⟨_, -, rfl⟩ := List.mem_map.mp hρ
  rfl

section

variable {Good : Use → Site → Prop} {w : World} (h : w.Sound Good) (htop : w.globals = ⟨0⟩)

include h

theorem alone_label {x : ScopeId} {region : Region} (hx : w.labels[x.index]? = some region) :
    (alone w.heap).spellings[x.index]? = some same := by
  obtain ⟨hlt, -⟩ := List.getElem?_eq_some_iff.mp hx
  rw [h.length] at hlt
  show (List.replicate w.heap.scopes.size same)[x.index]? = some same
  rw [List.getElem?_replicate, if_pos hlt]

include htop

theorem alone_spells : ∀ {site : Site} {x : ScopeId}, w.Realises x site →
    (alone w.heap).Spells x (site.map fun _ => same)
  | [], _, hx => hx.trans htop
  | _ :: _, _, ⟨hlabel, _, y, houter, hy⟩ => ⟨alone_label h hlabel, y, houter, alone_spells hy⟩

theorem alone_matched : (alone w.heap).Matched where
  length := List.length_replicate
  scopes_size := rfl
  functions_size := rfl
  top := alone_label h (x := ⟨0⟩) (htop ▸ h.globals.1)
  outermost := htop ▸ h.globals.2
  outer _ := rfl
  bound x ρ hx name := by
    rw [getElem?_alone hx]
    rfl
  functions _ := ⟨rfl, rfl, rfl, rfl⟩
  classes := rfl
  objects := rfl

variable {A : Addresses} {Ways : Respelling → Prop} (hways : Ways same)

include hways

theorem alone_holds {v : Value} (hv : w.Holds Good v) : (alone w.heap).Holds A Ways v := by
  intro f hf
  obtain ⟨hindex, site, hscope, -⟩ := hv f hf
  exact ⟨hindex, _, alone_spells h htop hscope, Function.respells_refl hways (allSame_map site) _⟩

/-- What programs have left on a heap is its own twin. -/
theorem alone_sound : (alone w.heap).Sound A Ways where
  matched := alone_matched h htop
  values x name v hv := alone_holds h htop hways (h.values x name v hv)
  fields o name v hv := alone_holds h htop hways (h.fields o name v hv)
  methods c name f hf := by
    obtain ⟨hindex, site, hscope, -⟩ := h.methods c name f hf
    exact ⟨hindex, _, alone_spells h htop hscope,
      Function.respells_refl hways (allSame_map site).cons _⟩

end

end Twin

/-! ## Runs -/

namespace Session

variable {s : Session} {source : String} {P P' : List Stmt}

/-- The top level is the first scope that a session makes. -/
theorem Reached.globals (h : s.Reached) : s.state.globals = ⟨0⟩ := by
  obtain ⟨history, hs⟩ := h.traced
  refine hs.keeps (I := fun _ st => st.globals = ⟨0⟩) (fun _ _ => rfl) ?_ ?_
  · exact fun _ st st' _ hglobals _ h => hglobals.trans h
  · intro s _ source P limit c _ hglobals _ _ _
    exact (Machine.run_setting limit _).globals.trans hglobals

/-- A session runs a respelled program in step with the program. -/
theorem Reached.run_respelled (h : s.Reached) (hread : (Source.read source s.nextId).result = .ok P)
    (hfaults : (Scoping.ofProgram P).faults = []) {Ways : Respelling → Prop} (hways : Ways same)
    (hrespells : Stmt.AllRespell (s.noted source P).state.addresses Ways [] P P') (n : Nat) :
    Machine.InStep (s.noted source P).state.addresses Ways
      ((Machine.ofProgram P (s.noted source P).state).run n)
      ((Machine.ofProgram P' (s.noted source P).state).run n) := by
  obtain ⟨history, hs⟩ := h.traced
  let st := (s.noted source P).state
  have htop : s.state.globals = ⟨0⟩ := h.globals
  have hscope : (Twin.alone st.heap).Spells st.scope [] := hs.follows.scope.trans htop
  have hsound : (Twin.alone st.heap).Sound st.addresses Ways :=
    Twin.alone_sound hs.follows.sound htop hways
  have hstart : Machine.InStep st.addresses Ways (Machine.ofProgram P st)
      (Machine.ofProgram P' st) :=
    State.InStep.done ⟨hsound, htop, rfl, hscope, .cons (.program hrespells) .nil⟩
  exact hstart.run n fun k _ => (hs.belongs hread hfaults k).finds

end Session

end Lox
