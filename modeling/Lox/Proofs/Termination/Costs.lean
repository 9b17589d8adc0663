import Lox.Proofs.Bookkeeping
import Lox.Proofs.Control.Steps

/-!
# What is left to do without loops

Where there are no loops, a step leaves less of the code on hand to be run, and only a call brings
in new code: a body of some function on the heap. But one more call is running then, so there is
room for one less. So if a unit of code that runs while there is room for more calls outweighs the
longest body that runs while there is room for fewer, then every step makes a machine lighter. The
longest body is found beforehand, because functions come from the programs and from nowhere else.
-/

namespace Lox

/-! ## Code without loops -/

mutual

/-- No loop stands in the statement, nor in a function that it declares. -/
def Stmt.LoopFree : Stmt → Prop
  | .block body => Stmt.AllLoopFree body
  | .conditional _ yes none => yes.LoopFree
  | .conditional _ yes (some no) => yes.LoopFree ∧ no.LoopFree
  | .loop _ _ => False
  | .functionDecl declared => declared.LoopFree
  | .classDecl _ _ methods => Function.AllLoopFree methods
  | _ => True

def Stmt.AllLoopFree : List Stmt → Prop
  | [] => True
  | s :: ss => s.LoopFree ∧ Stmt.AllLoopFree ss

def Function.LoopFree : Function → Prop
  | .mk _ _ body => Stmt.AllLoopFree body

def Function.AllLoopFree : List Function → Prop
  | [] => True
  | f :: fs => f.LoopFree ∧ Function.AllLoopFree fs

end

/-! ## Weights

The steps that code takes, but for those in the functions that it calls. -/

mutual

def Expr.weight : Expr → Nat
  | .literal _ => 1
  | .unary _ operand => operand.weight + 2
  | .binary left _ right => left.weight + right.weight + 3
  | .logical left _ right => left.weight + right.weight + 2
  | .grouping inner => inner.weight + 1
  | .ident _ => 1
  | .assign _ value => value.weight + 2
  | .call callee _ arguments => callee.weight + Expr.weightAll arguments + 3
  | .get object _ => object.weight + 2
  | .set object _ value => object.weight + value.weight + 3
  | .this _ => 1
  | .super _ _ => 1

def Expr.weightAll : List Expr → Nat
  | [] => 0
  | e :: es => e.weight + 1 + Expr.weightAll es

end

mutual

/-- A declaration of a function weighs as much as its body and more, although the body is not run
where it is declared. -/
def Stmt.weight : Stmt → Nat
  | .expression e => e.weight + 1
  | .print e => e.weight + 2
  | .variableDecl _ none => 1
  | .variableDecl _ (some value) => value.weight + 2
  | .block body => Stmt.weightAll body + 3
  | .conditional condition yes none => condition.weight + yes.weight + 2
  | .conditional condition yes (some no) => condition.weight + (yes.weight + no.weight) + 2
  | .loop condition body => condition.weight + body.weight + 1
  | .functionDecl declared => declared.weight + 1
  | .giveBack _ none => 1
  | .giveBack _ (some value) => value.weight + 2
  | .classDecl _ _ methods => Function.weightAll methods + 3

def Stmt.weightAll : List Stmt → Nat
  | [] => 0
  | s :: ss => s.weight + 1 + Stmt.weightAll ss

def Function.weight : Function → Nat
  | .mk _ _ body => Stmt.weightAll body + 1

def Function.weightAll : List Function → Nat
  | [] => 0
  | f :: fs => f.weight + Function.weightAll fs

end

def Frame.weight : Frame → Nat
  | .binaryLeft _ right => right.weight + 2
  | .logical _ right => right.weight + 1
  | .callee _ arguments => Expr.weightAll arguments + 2
  | .argument _ _ _ rest => Expr.weightAll rest + 2
  | .setObject _ value => value.weight + 2
  | .branch yes no => yes.weight + no.elim 0 Stmt.weight + 1
  | .superclass _ _ methods => Function.weightAll methods + 1
  | .sequence rest => Stmt.weightAll rest + 1
  | .program rest => Stmt.weightAll rest + 1
  | _ => 1

def Control.weight : Control → Nat
  | .eval e => e.weight
  | .exec s => s.weight
  | .complete _ => 0

/-! ## Code within a bound -/

section

variable (B : Nat)

/-- The statement has no loops, and its weight is at most `B`. -/
def Stmt.Within (s : Stmt) : Prop := s.LoopFree ∧ s.weight ≤ B

def Stmt.AllWithin (ss : List Stmt) : Prop := Stmt.AllLoopFree ss ∧ Stmt.weightAll ss ≤ B

def Function.Within (f : Function) : Prop := f.LoopFree ∧ f.weight ≤ B

def Function.AllWithin (fs : List Function) : Prop :=
  Function.AllLoopFree fs ∧ Function.weightAll fs ≤ B

/-- What the frame holds ready has no loops, and its weight is at most `B`. -/
def Frame.Within : Frame → Prop
  | .branch yes no => yes.Within B ∧ ∀ s, no = some s → s.Within B
  | .loopTest _ _ => False
  | .loopBody _ _ => False
  | .superclass _ _ methods => Function.AllWithin B methods
  | .sequence rest => Stmt.AllWithin B rest
  | .program rest => Stmt.AllWithin B rest
  | _ => True

def Control.Within : Control → Prop
  | .exec s => s.Within B
  | _ => True

def Heap.Within (h : Heap) : Prop := ∀ f, (h.functionAt f).declared.Within B

/-- All the code that the machine can come to has no loops, and none of it weighs more than `B`. -/
structure Machine.Within (m : Machine) : Prop where
  heap : m.state.heap.Within B
  control : m.control.Within B
  frames : ∀ frame ∈ m.frames, frame.Within B

end

section

variable {B B' : Nat}

theorem Stmt.AllWithin.cons {s : Stmt} {ss : List Stmt} (h : Stmt.AllWithin B (s :: ss)) :
    s.Within B ∧ Stmt.AllWithin B ss := by
  obtain ⟨⟨hs, hss⟩, hweight⟩ := h
  rw [Stmt.weightAll] at hweight
  exact ⟨⟨hs, by omega⟩, hss, by omega⟩

theorem Function.AllWithin.cons {f : Function} {fs : List Function}
    (h : Function.AllWithin B (f :: fs)) : f.Within B ∧ Function.AllWithin B fs := by
  obtain ⟨⟨hf, hfs⟩, hweight⟩ := h
  rw [Function.weightAll] at hweight
  exact ⟨⟨hf, by omega⟩, hfs, by omega⟩

theorem Function.Within.body {f : Function} (h : f.Within B) :
    Stmt.AllWithin B f.body ∧ Stmt.weightAll f.body + 1 ≤ B := by
  cases f with
  | mk name params body =>
      obtain ⟨hbody, hweight⟩ := h
      rw [Function.weight] at hweight
      exact ⟨⟨hbody, Nat.le_of_succ_le hweight⟩, hweight⟩

theorem Heap.Within.mono {h : Heap} (hh : h.Within B) (hB : B ≤ B') : h.Within B' :=
  fun f => ⟨(hh f).1, Nat.le_trans (hh f).2 hB⟩

/-! ## Functions on the heap -/

namespace Heap.Within

variable {h h' : Heap}

/-- Only functions matter. -/
theorem same (hh : h.Within B) (hfunctions : h'.functions = h.functions) : h'.Within B := by
  intro f
  rw [functionAt, hfunctions]
  exact hh f

theorem addFunction (hh : h.Within B) {c : Closure} (hc : c.declared.Within B) :
    (h.addFunction c).2.Within B := by
  intro f
  rw [functionAt_addFunction]
  split
  · exact hc
  · exact hh f

theorem bindMethod (hh : h.Within B) (method : FunctionId) (o : ObjectId) :
    (h.bindMethod method o).2.Within B := by
  have hscope : ((h.addInnerScope (h.functionAt method).scope).2.define
      (h.addInnerScope (h.functionAt method).scope).1 "this" (.object o)).Within B :=
    hh.same rfl
  exact hscope.addFunction (hh method)

theorem addMethods (hh : h.Within B) (scope : ScopeId) {methods : List Function}
    (hmethods : Function.AllWithin B methods) :
    (Machine.addMethods scope methods h).2.Within B := by
  rw [Machine.addMethods_eq]
  generalize (∅ : Std.TreeMap String FunctionId) = table
  induction methods generalizing table h with
  | nil => exact hh
  | cons declared methods ih =>
      obtain ⟨hdeclared, hrest⟩ := hmethods.cons
      exact ih (hh.addFunction hdeclared) hrest _

theorem declareClass {st : State} (hh : st.heap.Within B) (t : Token)
    (superclass : Option ClassId) {methods : List Function}
    (hmethods : Function.AllWithin B methods) :
    (Machine.declareClass st t superclass methods).heap.Within B := by
  have hclass (scope : ScopeId) {h : Heap} (hh : h.Within B) :
      (h.addDeclared st.scope t.lexeme superclass scope methods).Within B :=
    (hh.addMethods scope hmethods).same rfl
  rw [Machine.heap_declareClass]
  cases superclass with
  | none => exact hclass _ (hh.same rfl)
  | some parent => exact hclass _ (hh.same rfl)

theorem accesses {m : Machine} {r : Completion × State} (hr : m.Accesses r)
    (hh : m.state.heap.Within B) : r.2.heap.Within B := by
  cases hr with
  | field v => exact hh
  | @method f o _ => exact hh.bindMethod f o
  | fault t _ => exact hh

end Heap.Within

end

/-! ## Costs -/

/-- The number of calls that may still begin before there are as many as may run. -/
def State.room (st : State) : Nat := State.maxDepth - st.depth

/-- The weight on hand and that of the frames. A unit counts for `R` times as much where there is
room for one more call, as there is outside of the innermost one. -/
def dues (R : Nat) : (room weight : Nat) → List Frame → Nat
  | room, weight, [] => weight * R ^ room
  | room, weight, .activation _ _ :: frames => weight * R ^ room + dues R (room + 1) 1 frames
  | room, weight, frame :: frames => dues R room (weight + frame.weight) frames

section

variable {R : Nat}

theorem dues_cons {frame : Frame} (h : frame.isActivation = false) (room weight : Nat)
    (frames : List Frame) :
    dues R room weight (frame :: frames) = dues R room (weight + frame.weight) frames := by
  cases frame <;> first | rfl | exact nomatch h

/-- A unit counts for as much as there is room. -/
theorem dues_add (room weight more : Nat) (frames : List Frame) :
    dues R room (weight + more) frames = dues R room weight frames + more * R ^ room := by
  induction frames generalizing weight with
  | nil => rw [dues, dues, Nat.add_mul]
  | cons frame frames ih =>
      cases hactivation : frame.isActivation with
      | true =>
          obtain ⟨caller, result, rfl⟩ : ∃ caller result, frame = .activation caller result := by
            cases frame with
            | activation caller result => exact ⟨caller, result, rfl⟩
            | _ => exact nomatch hactivation
          rw [dues, dues, Nat.add_mul]
          omega
      | false => rw [dues_cons hactivation, dues_cons hactivation, Nat.add_right_comm, ih]

theorem dues_lt (hR : 0 < R) {room weight weight' : Nat} (h : weight < weight')
    (frames : List Frame) : dues R room weight frames < dues R room weight' frames := by
  obtain ⟨more, rfl⟩ := Nat.exists_eq_add_of_lt h
  have hpos : 0 < (more + 1) * R ^ room := Nat.mul_pos (Nat.succ_pos more) (Nat.pow_pos hR)
  rw [Nat.add_assoc, dues_add]
  omega

end

/-- A unit has to outweigh a body of weight `B`, and the frame that waits for it. -/
def Machine.cost (B : Nat) (m : Machine) : Nat :=
  dues (B + 1) m.state.room m.control.weight m.frames

namespace Machine

/-- The machine can be paid for with this weight on hand above these frames. -/
structure Affords (B weight : Nat) (frames : List Frame) (st : State) (m : Machine) : Prop where
  within : m.Within B
  cheaper : m.cost B < dues (B + 1) st.room weight frames

section

variable {B weight : Nat} {frames : List Frame} {st st' : State}
  (hframes : ∀ frame ∈ frames, frame.Within B)

include hframes

/-! ### Steps to a value, or to another part -/

theorem completes_affords (hheap : st'.heap.Within B) (hdepth : st'.depth = st.depth)
    (hweight : 0 < weight) (c : Completion) :
    Affords B weight frames st ⟨.complete c, frames, st'⟩ := by
  refine ⟨⟨hheap, trivial, hframes⟩, ?_⟩
  show dues (B + 1) (State.maxDepth - st'.depth) 0 frames < _
  rw [hdepth]
  exact dues_lt (Nat.succ_pos B) hweight frames

variable (hheap : st.heap.Within B)

include hheap

theorem stops_affords (hweight : 0 < weight) (c : Completion) :
    Affords B weight frames st ⟨.complete c, frames, st⟩ :=
  completes_affords hframes hheap rfl hweight c

theorem starts_affords {control : Control} (hcontrol : control.Within B)
    (hweight : control.weight < weight) : Affords B weight frames st ⟨control, frames, st⟩ :=
  ⟨⟨hheap, hcontrol, hframes⟩, dues_lt (Nat.succ_pos B) hweight frames⟩

theorem waits_affords {control : Control} {frame : Frame} (hcontrol : control.Within B)
    (hframe : frame.Within B) (hactivation : frame.isActivation = false)
    (hweight : control.weight + frame.weight < weight) :
    Affords B weight frames st ⟨control, frame :: frames, st⟩ := by
  refine ⟨⟨hheap, hcontrol, List.forall_mem_cons.mpr ⟨hframe, hframes⟩⟩, ?_⟩
  show dues (B + 1) st.room control.weight (frame :: frames) < _
  rw [dues_cons hactivation]
  exact dues_lt (Nat.succ_pos B) hweight frames

omit hheap

/-- A call pays for a body with two units: one for the body and one for the frame of the call. -/
theorem enter_affords (hheap : st'.heap.Within B) (hdepth : st'.depth = st.depth)
    (hroom : st.depth < State.maxDepth) (hweight : 2 ≤ weight) {f : Closure}
    (hf : f.declared.Within B) (result : CallResult) (args : List Value) :
    Affords B weight frames st (enter f result args frames st') := by
  obtain ⟨hbody, hlight⟩ := hf.body
  rw [enter_eq]
  refine ⟨⟨?_, trivial, ?_⟩, ?_⟩
  · exact hheap.same (bindParams_same _ f.declared.params args _).1
  · exact List.forall_mem_cons.mpr ⟨hbody, List.forall_mem_cons.mpr ⟨trivial, hframes⟩⟩
  · obtain ⟨room, hinside, houtside⟩ :
        ∃ room, State.maxDepth - (st'.depth + 1) = room ∧ st.room = room + 1 := by
      refine ⟨_, rfl, ?_⟩
      rw [hdepth, State.room]
      omega
    show dues (B + 1) (State.maxDepth - (st'.depth + 1)) 0
      (.sequence f.declared.body :: .activation st'.scope result :: frames) < _
    have hinner : (Stmt.weightAll f.declared.body + 1) * (B + 1) ^ room
        < (B + 1) * (B + 1) ^ room :=
      Nat.mul_lt_mul_of_pos_right (Nat.lt_succ_of_le hlight) (Nat.pow_pos (Nat.succ_pos B))
    have houter : dues (B + 1) (room + 1) 2 frames ≤ dues (B + 1) (room + 1) weight frames := by
      rcases Nat.lt_or_eq_of_le hweight with hlt | rfl
      · exact Nat.le_of_lt (dues_lt (Nat.succ_pos B) hlt frames)
      · exact Nat.le_refl _
    have hunit : dues (B + 1) (room + 1) 2 frames
        = dues (B + 1) (room + 1) 1 frames + (B + 1) * (B + 1) ^ room := by
      have hadd := dues_add (R := B + 1) (room + 1) 1 1 frames
      rwa [Nat.one_mul, Nat.pow_succ, Nat.mul_comm _ (B + 1)] at hadd
    rw [hinside, houtside, dues_cons rfl, dues, Nat.zero_add]
    refine Nat.lt_of_lt_of_le ?_ (hunit ▸ houter)
    rw [Nat.add_comm]
    exact Nat.add_lt_add_left hinner _

end

end Machine

end Lox
