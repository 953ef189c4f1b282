/-
# The heap

Everything with an identity lives in one heap: pairs, strings, primitives,
methods, classes and instances, each kind in a table of its own and referred to
by its place there. Records are only ever added, so a reference stays good. Symbols are
values in their own right, one for each spelling, and need no record.

All functions are total. Reading a place where nothing was ever stored gives a
default record, writing there does nothing; no reference that the heap handed
out is of that kind.
-/

import MessageMachine.Behaviour
import MessageMachine.Diagnostic
import MessageMachine.Instruction
import MessageMachine.OrderedMap
import MessageMachine.Value

namespace MessageMachine

/-! ## Records -/

/-- A pair. The reader notes where a list began on its first pair. -/
structure Pair where
  head : Value
  tail : Value
  source : Option Location
  deriving Inhabited

/-- A native handler. `arity` counts the receiver; without one, any number of
arguments is accepted. -/
structure Primitive where
  name : String
  arity : Option Int
  behaviour : Behaviour

instance : Inhabited Primitive := ⟨⟨"", none, .isNil⟩⟩

/-- A unit of code with its constants and the operand capacity its frames get.
`argCount` counts the receiver. Whoever makes a method may give any two numbers:
with a negative count it cannot be called, with a negative capacity it cannot
push. -/
structure Method where
  name : String
  argCount : Int
  code : Code
  constants : Array Value
  maxStack : Int
  source : Option Location
  deriving Inhabited

/-- A class. Its number and that of its base index the class table of the image
that defined it. `instanceTag` is the tag of its instances; for each selector
the newest handler comes first. -/
structure Class where
  number : Nat
  name : String
  base : Option Nat
  instanceTag : Tag
  handlers : OrderedMap String (List Callable)
  deriving Inhabited

/-- The class whose instances are found by their own class and not by tag. -/
def Class.instantiable (c : Class) : Bool :=
  c.instanceTag = .«instance»

/-- An instance of a user class, with its slots in order of first assignment. -/
structure Object where
  ofClass : Ref .classObject
  slots : OrderedMap String Value
  deriving Inhabited

/-! ## Tables -/

structure Heap where
  pairs : Array Pair
  strings : Array String
  primitives : Array Primitive
  methods : Array Method
  classes : Array Class
  objects : Array Object

namespace Heap

def empty : Heap := ⟨#[], #[], #[], #[], #[], #[]⟩

instance : Inhabited Heap := ⟨empty⟩

/-! ### Pairs -/

def pair (h : Heap) (r : Ref .pair) : Pair :=
  h.pairs.getD r.index default

def head (h : Heap) (r : Ref .pair) : Value := (h.pair r).head
def tail (h : Heap) (r : Ref .pair) : Value := (h.pair r).tail

def allocPair (h : Heap) (p : Pair) : Heap × Ref .pair :=
  let place := h.pairs.size
  ({ h with pairs := h.pairs.push p }, ⟨place⟩)

/-- A fresh pair without a place in a source text. -/
def cons (h : Heap) (head tail : Value) : Heap × Ref .pair :=
  h.allocPair ⟨head, tail, none⟩

def setPair (h : Heap) (r : Ref .pair) (p : Pair) : Heap :=
  { h with pairs := h.pairs.setIfInBounds r.index p }

def setHead (h : Heap) (r : Ref .pair) (v : Value) : Heap :=
  h.setPair r { h.pair r with head := v }

def setTail (h : Heap) (r : Ref .pair) (v : Value) : Heap :=
  h.setPair r { h.pair r with tail := v }

/-- A new pair is found at its own place, and no other place changes. -/
theorem pair_allocPair (h : Heap) (p : Pair) (r : Ref .pair) :
    (h.allocPair p).1.pair r = if r = (h.allocPair p).2 then p else h.pair r := by
  obtain ⟨i⟩ := r
  simp only [allocPair, pair, Array.getD_eq_getD_getElem?, Array.getElem?_push, Ref.mk.injEq]
  split <;> simp

/-- Writing changes one place, provided that a pair was stored there. -/
theorem pair_setPair (h : Heap) (r s : Ref .pair) (p : Pair) :
    (h.setPair r p).pair s = if s = r ∧ r.index < h.pairs.size then p else h.pair s := by
  obtain ⟨i⟩ := r
  obtain ⟨j⟩ := s
  simp only [setPair, pair, Array.getD_eq_getD_getElem?, Array.getElem?_setIfInBounds,
    Ref.mk.injEq]
  grind

theorem head_setHead (h : Heap) (r s : Ref .pair) (v : Value) :
    (h.setHead r v).head s = if s = r ∧ r.index < h.pairs.size then v else h.head s := by
  simp only [head, setHead, pair_setPair]
  grind

@[simp] theorem tail_setHead (h : Heap) (r s : Ref .pair) (v : Value) :
    (h.setHead r v).tail s = h.tail s := by
  simp only [tail, setHead, pair_setPair]
  grind

theorem tail_setTail (h : Heap) (r s : Ref .pair) (v : Value) :
    (h.setTail r v).tail s = if s = r ∧ r.index < h.pairs.size then v else h.tail s := by
  simp only [tail, setTail, pair_setPair]
  grind

@[simp] theorem head_setTail (h : Heap) (r s : Ref .pair) (v : Value) :
    (h.setTail r v).head s = h.head s := by
  simp only [head, setTail, pair_setPair]
  grind

/-! ### Strings, primitives, methods -/

def stringText (h : Heap) (r : Ref .string) : String :=
  h.strings.getD r.index default

def allocString (h : Heap) (text : String) : Heap × Value :=
  let place := h.strings.size
  ({ h with strings := h.strings.push text }, .string ⟨place⟩)

def primitive (h : Heap) (r : Ref .primitive) : Primitive :=
  h.primitives.getD r.index default

def allocPrimitive (h : Heap) (p : Primitive) : Heap × Callable :=
  let place := h.primitives.size
  ({ h with primitives := h.primitives.push p }, .primitive ⟨place⟩)

def method (h : Heap) (r : Ref .method) : Method :=
  h.methods.getD r.index default

def allocMethod (h : Heap) (m : Method) : Heap × Ref .method :=
  let place := h.methods.size
  ({ h with methods := h.methods.push m }, ⟨place⟩)

/-! ### Classes and objects -/

def classAt (h : Heap) (r : Ref .classObject) : Class :=
  h.classes.getD r.index default

def allocClass (h : Heap) (c : Class) : Heap × Ref .classObject :=
  let place := h.classes.size
  ({ h with classes := h.classes.push c }, ⟨place⟩)

def setClass (h : Heap) (r : Ref .classObject) (c : Class) : Heap :=
  { h with classes := h.classes.setIfInBounds r.index c }

def object (h : Heap) (r : Ref .object) : Object :=
  h.objects.getD r.index default

def allocObject (h : Heap) (o : Object) : Heap × Ref .object :=
  let place := h.objects.size
  ({ h with objects := h.objects.push o }, ⟨place⟩)

def setSlot (h : Heap) (r : Ref .object) (slot : String) (v : Value) : Heap :=
  let o := h.object r
  { h with objects := h.objects.setIfInBounds r.index { o with slots := o.slots.insert slot v } }

/-- Put a handler in front of those a class has for the selector. -/
def install (h : Heap) (r : Ref .classObject) (selector : String) (c : Callable) : Heap :=
  let target := h.classAt r
  let older := (target.handlers.get? selector).getD []
  h.setClass r { target with handlers := target.handlers.insert selector (c :: older) }

/-- The newest handler that the class itself has for a selector. -/
def ownHandler? (h : Heap) (r : Ref .classObject) (selector : String) : Option Callable :=
  match (h.classAt r).handlers.get? selector with
  | some (newest :: _) => some newest
  | _ => none

/-! ## Callables -/

def callableName (h : Heap) : Callable → String
  | .primitive r => (h.primitive r).name
  | .method r => (h.method r).name

end Heap

end MessageMachine
