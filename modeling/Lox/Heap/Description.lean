import Lox.Heap
import Lox.Text.Quoted
/-!
# Descriptions of what is in the heap

A description names what a thing has without showing the values, since these may lead back to the
thing itself. Names are listed in the order of their characters.
-/

namespace Lox

namespace Heap

/-- The names that a scope binds, and whether it lies in another one. -/
def describeScope (h : Heap) (r : ScopeId) : String :=
  let s := h.scopeAt r
  "Environment \x7b names: " ++ Text.quotedList s.bindings.keys
    ++ ", has_enclosing: " ++ toString s.outer.isSome ++ " \x7d"

def describeFunction (h : Heap) (r : FunctionId) : String :=
  let f := h.functionAt r
  "LoxFunction \x7b name: " ++ Text.quoted f.declared.name.lexeme
    ++ ", arity: " ++ toString f.declared.arity
    ++ ", is_initializer: " ++ toString f.isInitializer ++ " \x7d"

/-- The class of an object and the names of its fields. -/
def describeObject (h : Heap) (r : ObjectId) : String :=
  let o := h.objectAt r
  "LoxInstance \x7b class: " ++ Text.quoted (h.classAt o.ofClass).name
    ++ ", fields: " ++ Text.quotedList o.fields.keys ++ " \x7d"

end Heap

def Native.description (f : Native) : String := "<native fn " ++ f.name ++ ">"

end Lox
