import Std.Data.TreeMap
import Lox.Program
import Lox.Value
/-!
# The heap

All that outlives a single step of a program: scopes, functions, classes and objects. Things are
only ever added. A scope keeps its outer scope, a function its declaration and its scope, a class
its superclass and its methods, and an object its class; only what scopes bind and what fields
objects have changes.

A scope is younger than its outer scope, and a class is younger than its superclass, so a walk
along these links from the thing with index `i` passes at most `i + 1` things.
-/

namespace Lox

/-- Names with values. -/
abbrev Bindings := Std.TreeMap String Value

/-- The names of one activation of a block, a function or a class. -/
structure Scope where
  bindings : Bindings
  outer : Option ScopeId

/-- A declaration together with the scope that it was executed in. -/
structure Closure where
  declared : Function
  scope : ScopeId
  isInitializer : Bool

/-- A class. Its methods are closed over the scope of the declaration and bound on access. -/
structure Class where
  name : String
  superclass : Option ClassId
  methods : Std.TreeMap String FunctionId

/-- An instance of a class. -/
structure Object where
  ofClass : ClassId
  fields : Bindings

structure Heap where
  scopes : Array Scope
  functions : Array Closure
  classes : Array Class
  objects : Array Object

namespace Heap

def empty : Heap := ⟨#[], #[], #[], #[]⟩

/-! ## Reading and adding

An identifier that was never given out reads as something empty. -/

def scopeAt (h : Heap) (r : ScopeId) : Scope := h.scopes.getD r.index ⟨∅, none⟩

def functionAt (h : Heap) (r : FunctionId) : Closure :=
  h.functions.getD r.index ⟨.mk ⟨.eof, "", 0⟩ [] [], ⟨0⟩, false⟩

def classAt (h : Heap) (r : ClassId) : Class := h.classes.getD r.index ⟨"", none, ∅⟩

def objectAt (h : Heap) (r : ObjectId) : Object := h.objects.getD r.index ⟨⟨0⟩, ∅⟩

def addScope (h : Heap) (s : Scope) : ScopeId × Heap :=
  (⟨h.scopes.size⟩, { h with scopes := h.scopes.push s })

def addFunction (h : Heap) (f : Closure) : FunctionId × Heap :=
  (⟨h.functions.size⟩, { h with functions := h.functions.push f })

def addClass (h : Heap) (c : Class) : ClassId × Heap :=
  (⟨h.classes.size⟩, { h with classes := h.classes.push c })

def addObject (h : Heap) (o : Object) : ObjectId × Heap :=
  (⟨h.objects.size⟩, { h with objects := h.objects.push o })

/-! ## Scopes -/

/-- Adds an empty scope inside another one. -/
def addInnerScope (h : Heap) (outer : ScopeId) : ScopeId × Heap := h.addScope ⟨∅, some outer⟩

/-- Binds a name in a scope, whether or not it was bound there before. -/
def define (h : Heap) (r : ScopeId) (name : String) (v : Value) : Heap :=
  { h with scopes := h.scopes.modify r.index fun s =>
      { s with bindings := s.bindings.insert name v } }

/-- What a name is bound to in this scope alone. -/
def bound? (h : Heap) (r : ScopeId) (name : String) : Option Value :=
  (h.scopeAt r).bindings[name]?

/-- At most `limit` scopes, from one of them outwards. -/
def chainFrom (h : Heap) : (limit : Nat) → ScopeId → List ScopeId
  | 0, _ => []
  | limit + 1, r =>
    r :: match (h.scopeAt r).outer with
      | some outer => h.chainFrom limit outer
      | none => []

/-- A scope and the scopes around it, innermost first. -/
def chain (h : Heap) (r : ScopeId) : List ScopeId := h.chainFrom (r.index + 1) r

/-- The innermost scope of a chain that binds the name. -/
def binder? (h : Heap) (r : ScopeId) (name : String) : Option ScopeId :=
  (h.chain r).find? fun s => (h.bound? s name).isSome

/-- What a name means in a scope: the innermost binding counts. -/
def lookup? (h : Heap) (r : ScopeId) (name : String) : Option Value := do
  h.bound? (← h.binder? r name) name

/-- Gives a new value to the innermost binding of a name, if there is one. -/
def assign? (h : Heap) (r : ScopeId) (name : String) (v : Value) : Option Heap := do
  return h.define (← h.binder? r name) name v

/-- The scope that is `distance` links out, or the outermost one if there are not as many. -/
def ancestor (h : Heap) (r : ScopeId) : (distance : Nat) → ScopeId
  | 0 => r
  | distance + 1 =>
    match (h.scopeAt r).outer with
    | some outer => h.ancestor outer distance
    | none => r

/-- What a name is bound to in the scope `distance` links out, and in no other. -/
def lookupAt? (h : Heap) (r : ScopeId) (distance : Nat) (name : String) : Option Value :=
  h.bound? (h.ancestor r distance) name

/-- Binds a name in the scope `distance` links out. -/
def assignAt (h : Heap) (r : ScopeId) (distance : Nat) (name : String) (v : Value) : Heap :=
  h.define (h.ancestor r distance) name v

/-! ## Functions, classes and objects -/

/-- Adds the function that binds `this` to an object around a method. -/
def bindMethod (h : Heap) (method : FunctionId) (o : ObjectId) : FunctionId × Heap :=
  let closure := h.functionAt method
  let (scope, h) := h.addInnerScope closure.scope
  (h.define scope "this" (.object o)).addFunction { closure with scope }

/-- The method of a class or of the nearest superclass that has it, among `limit` classes. -/
def findMethodFrom (h : Heap) (name : String) : (limit : Nat) → ClassId → Option FunctionId
  | 0, _ => none
  | limit + 1, c =>
    match (h.classAt c).methods[name]? with
    | some method => some method
    | none =>
      match (h.classAt c).superclass with
      | some parent => h.findMethodFrom name limit parent
      | none => none

/-- The method that instances of a class have under a name. -/
def findMethod? (h : Heap) (c : ClassId) (name : String) : Option FunctionId :=
  h.findMethodFrom name (c.index + 1) c

/-- Gives an object a field, whether or not it had it before. -/
def setField (h : Heap) (o : ObjectId) (name : String) (v : Value) : Heap :=
  { h with objects := h.objects.modify o.index fun x =>
      { x with fields := x.fields.insert name v } }

/-- The number of arguments that a class takes is that of its initializer. -/
def classArity (h : Heap) (c : ClassId) : Nat :=
  match h.findMethod? c Function.initializerName with
  | some init => (h.functionAt init).declared.arity
  | none => 0

/-- The number of arguments that a value takes when it is called, if it can be called. -/
def arity? (h : Heap) : Value → Option Nat
  | .native f => some f.arity
  | .function f => some (h.functionAt f).declared.arity
  | .classObject c => some (h.classArity c)
  | _ => none

end Heap

/-- The text of a value, as `print` writes it. -/
def Value.text (h : Heap) : Value → String
  | .nil => "nil"
  | .bool value => toString value
  | .number value => Number.text value
  | .string value => value
  | .native _ => "<native fn>"
  | .function f => "<fn " ++ (h.functionAt f).declared.name.lexeme ++ ">"
  | .classObject c => (h.classAt c).name
  | .object o => (h.classAt (h.objectAt o).ofClass).name ++ " instance"

end Lox
