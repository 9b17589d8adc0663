import Lox.Machine.Step

/-!
# What every step leaves alone

A run is one step after the other, and a machine that has halted stays as it is, so runs can be cut
anywhere. No step changes the addresses of references or which scope is the top level: these only
change between programs.
-/

namespace Lox

namespace Machine

/-! ## Runs -/

theorem step_of_result? {m : Machine} {c : Completion} (h : m.result? = some c) : m.step = m := by
  obtain ⟨control, frames, st⟩ := m
  cases control with
  | eval e => exact nomatch h
  | exec s => exact nomatch h
  | complete c =>
      cases frames with
      | nil => rfl
      | cons frame frames => exact nomatch h

theorem run_of_result? {m : Machine} {c : Completion} (h : m.result? = some c) :
    ∀ limit, run limit m = m := by
  intro limit
  cases limit with
  | zero => rfl
  | succ limit => rw [run, h]

theorem run_succ (limit : Nat) (m : Machine) : run (limit + 1) m = run limit m.step := by
  rw [run]
  cases h : m.result? with
  | none => rfl
  | some c => rw [step_of_result? h, run_of_result? h]

theorem run_add (n : Nat) : ∀ (limit : Nat) (m : Machine),
    run (limit + n) m = run n (run limit m)
  | 0, m => by rw [Nat.zero_add, run]
  | limit + 1, m => by rw [Nat.add_right_comm, run_succ, run_succ, run_add n limit]

/-- What every step keeps, a run keeps. -/
theorem run_invariant {P : Machine → Prop} (hstep : ∀ m, P m → P m.step) :
    ∀ (limit : Nat) {m : Machine}, P m → P (run limit m)
  | 0, _, h => h
  | limit + 1, m, h => by
      rw [run_succ]
      exact run_invariant hstep limit (hstep m h)

/-! ## Classes and calls, written out -/

/-- Adds one method of a class. -/
def addMethod (scope : ScopeId) (table : Std.TreeMap String FunctionId × Heap)
    (declared : Function) : Std.TreeMap String FunctionId × Heap :=
  let added := table.2.addFunction ⟨declared, scope, declared.isNamedInitializer⟩
  (table.1.insert declared.name.lexeme added.1, added.2)

theorem addMethods_eq (scope : ScopeId) (methods : List Function) (h : Heap) :
    addMethods scope methods h = methods.foldl (addMethod scope) (∅, h) := rfl

/-- Binds parameters to arguments. -/
def bindParams (scope : ScopeId) (params : List Token) (args : List Value) (h : Heap) : Heap :=
  (params.zip args).foldl (fun h binding => h.define scope binding.1.lexeme binding.2) h

theorem enter_eq (f : Closure) (result : CallResult) (args : List Value) (frames : List Frame)
    (st : State) : enter f result args frames st =
      let inner := st.heap.addInnerScope f.scope
      ⟨.complete .done,
        .sequence f.declared.body :: .activation st.scope result :: frames,
        { st with
          heap := bindParams inner.1 f.declared.params args inner.2
          scope := inner.1
          depth := st.depth + 1 }⟩ := rfl

end Machine

/-! ## Addresses and the top level -/

/-- The states have the same addresses and the same top level. -/
structure State.SameSetting (st st' : State) : Prop where
  addresses : st'.addresses = st.addresses
  globals : st'.globals = st.globals

/-- What a use reads is bound in some scope. -/
theorem State.bound_of_lookup? {st : State} {use : Reference} {v : Value}
    (h : st.lookup? use = some v) : ∃ x, st.heap.bound? x use.name.lexeme = some v := by
  unfold State.lookup? at h
  split at h
  · exact ⟨_, h⟩
  · obtain ⟨x, -, hx⟩ := Option.bind_eq_some_iff.mp h
    exact ⟨x, hx⟩

theorem State.SameSetting.refl (st : State) : st.SameSetting st := ⟨rfl, rfl⟩

theorem State.SameSetting.trans {st st' st'' : State} (h : st.SameSetting st')
    (h' : st'.SameSetting st'') : st.SameSetting st'' :=
  ⟨h'.addresses.trans h.addresses, h'.globals.trans h.globals⟩

end Lox
