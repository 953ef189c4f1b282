/-
# Environments

An environment is a chain of scopes made of pairs:

    scope    = (bindings . enclosing scope)     the outermost is closed by nil
    bindings = (binding ...)                    the newest first
    binding  = (symbol . value)

Defining a name puts a new binding in front, so one scope may hold several for
a symbol and the newest is the one that counts. Assigning overwrites that
binding in place, which every environment that sees it notices.
-/

import MessageMachine.Heap.List

namespace MessageMachine

/-- An environment, known by its innermost scope. -/
structure Environment where
  scope : Ref .pair
  deriving DecidableEq, Inhabited, Repr

namespace Environment

/-- A fresh scope inside `enclosing`, or an outermost one. -/
def create (h : Heap) (enclosing : Option Environment) : Heap × Environment :=
  let parent :=
    match enclosing with
    | some e => .pair e.scope
    | none => .nil
  let (h, scope) := h.cons .nil parent
  (h, ⟨scope⟩)

/-- The environment that a scope lies in. -/
def parent? (h : Heap) (e : Environment) : Option Environment :=
  (h.tail e.scope).asPair?.map Environment.mk

/-- Bind a name in the innermost scope. -/
def define (h : Heap) (e : Environment) (name : String) (v : Value) : Heap :=
  let (h, binding) := h.cons (.symbol name) v
  let (h, bindings) := h.cons (.pair binding) (h.head e.scope)
  h.setHead e.scope (.pair bindings)

/-! ## Lookup -/

/-- The binding that a cell of a list of bindings holds, if it is for the name. -/
def bindingIn? (h : Heap) (name : String) (cell : Ref .pair) : Option (Ref .pair) :=
  match h.head cell with
  | .pair binding =>
    match h.head binding with
    | .symbol bound => if bound = name then some binding else none
    | _ => none
  | _ => none

/-- The newest binding of a name in one scope. -/
def scopeBinding? (h : Heap) (name : String) (scope : Ref .pair) : Option (Ref .pair) :=
  h.findAlong? (bindingIn? h name) h.pairs.size (h.head scope)

/-- The binding of a name, the innermost scope first. -/
def binding? (h : Heap) (e : Environment) (name : String) : Option (Ref .pair) :=
  h.findAlong? (scopeBinding? h name) h.pairs.size (.pair e.scope)

def lookup? (h : Heap) (e : Environment) (name : String) : Option Value :=
  (e.binding? h name).map h.tail

/-- Overwrite the binding that lookup finds; nothing is done without one. -/
def assign? (h : Heap) (e : Environment) (name : String) (v : Value) : Option Heap :=
  (e.binding? h name).map (h.setTail · v)

/-- The report about a name that is bound nowhere. -/
def undefined (name : String) (location : Option Location) : Diagnostic :=
  ⟨.undefinedIdentifier, s!"Undefined identifier: {name}", location⟩

/-- The value of a name, or nil and a report. -/
def lookupOrNil (h : Heap) (e : Environment) (name : String) (location : Option Location) :
    Value × Option Diagnostic :=
  match e.lookup? h name with
  | some v => (v, none)
  | none => (.nil, some (undefined name location))

end Environment

end MessageMachine
