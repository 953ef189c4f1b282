/-
# Heaps whose sources lie elsewhere

A pair that was read remembers where, and so does a method that was compiled. Nothing
that a program computes depends on these places, they only turn up in reports and in the
places of what is compiled next. Here this is made precise for the heap: `relocate`
sends every place that the heap remembers somewhere else, and every function of the heap
gives on the relocated heap what it gives on the original, or the relocated form of it.

The lemmas are rules for `simp` that move `relocate` outwards. Reading a record makes it
disappear, changing one lets it pass.
-/

import MessageMachine.Heap.Equality
import MessageMachine.Heap.Printer
import MessageMachine.Heap.Store
import MessageMachine.Image
import MessageMachine.Listing

namespace MessageMachine

/-! ## Records -/

def Pair.relocate (place : Location → Location) (p : Pair) : Pair :=
  { p with source := p.source.map place }

def Method.relocate (place : Location → Location) (m : Method) : Method :=
  { m with source := m.source.map place }

namespace Heap

/-- The heap with everything that it remembers to have been written somewhere else. -/
def relocate (place : Location → Location) (h : Heap) : Heap :=
  { h with
    pairs := h.pairs.map (·.relocate place)
    methods := h.methods.map (·.relocate place) }

variable (place : Location → Location) (h : Heap)

@[simp] theorem relocate_id : h.relocate id = h := by
  have pairs : (fun p : Pair => p.relocate id) = id := by
    funext p
    simp [Pair.relocate]
  have methods : (fun m : Method => m.relocate id) = id := by
    funext m
    simp [Method.relocate]
  simp [relocate, pairs, methods]

@[simp] theorem pairs_size_relocate : (h.relocate place).pairs.size = h.pairs.size :=
  Array.size_map

@[simp] theorem strings_relocate : (h.relocate place).strings = h.strings := rfl

@[simp] theorem primitives_relocate : (h.relocate place).primitives = h.primitives := rfl

@[simp] theorem classes_relocate : (h.relocate place).classes = h.classes := rfl

@[simp] theorem objects_relocate : (h.relocate place).objects = h.objects := rfl

@[simp] theorem pair_relocate (r : Ref .pair) :
    (h.relocate place).pair r = (h.pair r).relocate place := by
  simp only [pair, relocate, Array.getD_eq_getD_getElem?, Array.getElem?_map]
  cases h.pairs[r.index]? <;> rfl

@[simp] theorem head_relocate (r : Ref .pair) : (h.relocate place).head r = h.head r := by
  simp only [head, pair_relocate]
  rfl

@[simp] theorem tail_relocate (r : Ref .pair) : (h.relocate place).tail r = h.tail r := by
  simp only [tail, pair_relocate]
  rfl

@[simp] theorem stringText_relocate (r : Ref .string) :
    (h.relocate place).stringText r = h.stringText r := rfl

@[simp] theorem primitive_relocate (r : Ref .primitive) :
    (h.relocate place).primitive r = h.primitive r := rfl

@[simp] theorem method_relocate (r : Ref .method) :
    (h.relocate place).method r = (h.method r).relocate place := by
  simp only [method, relocate, Array.getD_eq_getD_getElem?, Array.getElem?_map]
  cases h.methods[r.index]? <;> rfl

@[simp] theorem classAt_relocate (r : Ref .classObject) :
    (h.relocate place).classAt r = h.classAt r := rfl

@[simp] theorem object_relocate (r : Ref .object) : (h.relocate place).object r = h.object r := rfl

@[simp] theorem ownHandler?_relocate (r : Ref .classObject) (selector : String) :
    (h.relocate place).ownHandler? r selector = h.ownHandler? r selector := rfl

end Heap

@[simp] theorem Method.name_relocate (place : Location → Location) (m : Method) :
    (m.relocate place).name = m.name := rfl

@[simp] theorem Method.argCount_relocate (place : Location → Location) (m : Method) :
    (m.relocate place).argCount = m.argCount := rfl

@[simp] theorem Method.code_relocate (place : Location → Location) (m : Method) :
    (m.relocate place).code = m.code := rfl

@[simp] theorem Method.constants_relocate (place : Location → Location) (m : Method) :
    (m.relocate place).constants = m.constants := rfl

@[simp] theorem Method.maxStack_relocate (place : Location → Location) (m : Method) :
    (m.relocate place).maxStack = m.maxStack := rfl

@[simp] theorem Method.source_relocate (place : Location → Location) (m : Method) :
    (m.relocate place).source = m.source.map place := rfl

namespace Heap

variable (place : Location → Location) (h : Heap)

/-! ## Changes -/

theorem allocPair_relocate (p : Pair) :
    (h.relocate place).allocPair (p.relocate place) =
      ((h.allocPair p).1.relocate place, (h.allocPair p).2) := by
  simp [allocPair, relocate]

@[simp] theorem cons_relocate (head tail : Value) :
    (h.relocate place).cons head tail =
      ((h.cons head tail).1.relocate place, (h.cons head tail).2) :=
  h.allocPair_relocate place ⟨head, tail, none⟩

theorem setPair_relocate (r : Ref .pair) (p : Pair) :
    (h.relocate place).setPair r (p.relocate place) = (h.setPair r p).relocate place := by
  simp [setPair, relocate]

@[simp] theorem setHead_relocate (r : Ref .pair) (v : Value) :
    (h.relocate place).setHead r v = (h.setHead r v).relocate place := by
  simp only [setHead, pair_relocate]
  exact h.setPair_relocate place r { h.pair r with head := v }

@[simp] theorem setTail_relocate (r : Ref .pair) (v : Value) :
    (h.relocate place).setTail r v = (h.setTail r v).relocate place := by
  simp only [setTail, pair_relocate]
  exact h.setPair_relocate place r { h.pair r with tail := v }

@[simp] theorem allocString_relocate (text : String) :
    (h.relocate place).allocString text =
      ((h.allocString text).1.relocate place, (h.allocString text).2) := rfl

theorem allocMethod_relocate (m : Method) :
    (h.relocate place).allocMethod (m.relocate place) =
      ((h.allocMethod m).1.relocate place, (h.allocMethod m).2) := by
  simp [allocMethod, relocate]

@[simp] theorem allocClass_relocate (c : Class) :
    (h.relocate place).allocClass c = ((h.allocClass c).1.relocate place, (h.allocClass c).2) := rfl

@[simp] theorem allocObject_relocate (o : Object) :
    (h.relocate place).allocObject o = ((h.allocObject o).1.relocate place, (h.allocObject o).2) :=
  rfl

@[simp] theorem setSlot_relocate (r : Ref .object) (slot : String) (v : Value) :
    (h.relocate place).setSlot r slot v = (h.setSlot r slot v).relocate place := rfl

@[simp] theorem install_relocate (r : Ref .classObject) (selector : String) (c : Callable) :
    (h.relocate place).install r selector c = (h.install r selector c).relocate place := rfl

/-! ## Lists -/

@[simp] theorem walk_relocate (limit : Nat) (v : Value) :
    (h.relocate place).walk limit v = h.walk limit v := by
  induction limit generalizing v with
  | zero => rfl
  | succ limit ih =>
    cases v with
    | pair r => simp only [walk_succ_pair, tail_relocate, ih]
    | _ => rfl

@[simp] theorem spine_relocate (v : Value) : (h.relocate place).spine v = h.spine v := by
  simp [spine]

@[simp] theorem elements?_relocate (v : Value) :
    (h.relocate place).elements? v = h.elements? v := by
  have heads : (h.relocate place).head = h.head := funext (h.head_relocate place)
  simp [elements?, heads]

@[simp] theorem findAlong?_relocate {α : Type} (look : Ref .pair → Option α) (limit : Nat)
    (v : Value) : (h.relocate place).findAlong? look limit v = h.findAlong? look limit v := by
  simp [findAlong?_eq]

/-! ## Comparing and printing -/

@[simp] theorem agree_relocate (fuel : Nat) (pending : List (Value × Value))
    (compared : CellPairs) :
    (h.relocate place).agree fuel pending compared = h.agree fuel pending compared := by
  induction fuel generalizing pending compared with
  | zero => cases pending <;> simp [agree]
  | succ fuel ih =>
    cases pending with
    | nil => simp [agree]
    | cons comparison pending =>
      unfold agree
      simp only [ih, head_relocate, tail_relocate, stringText_relocate]

@[simp] theorem equal_relocate (x y : Value) : (h.relocate place).equal x y = h.equal x y := by
  simp [equal]

@[simp] theorem atomText_relocate (v : Value) : (h.relocate place).atomText v = h.atomText v := by
  unfold atomText
  simp

@[simp] theorem texts_relocate (fuel : Nat) (active : ActiveCells) (trail : Trail) (v : Value) :
    (h.relocate place).texts fuel active trail v = h.texts fuel active trail v := by
  induction fuel generalizing active trail v with
  | zero => simp [texts]
  | succ fuel ih =>
    cases v with
    | pair cell => simp only [texts, ih, head_relocate, tail_relocate, atomText_relocate]
    | _ => simp only [texts, atomText_relocate]

@[simp] theorem print_relocate (v : Value) : (h.relocate place).print v = h.print v := by
  simp [print, printWithin]

/-! ## Listings -/

theorem listMethods_relocate (fuel : Nat) (pending done : List (Ref .method))
    (lines : Array String) :
    (h.relocate place).listMethods fuel pending done lines =
      h.listMethods fuel pending done lines := by
  induction fuel generalizing pending done lines with
  | zero => cases pending <;> rfl
  | succ fuel ih =>
    cases pending with
    | nil => rfl
    | cons r pending =>
      have line : (h.relocate place).instructionLine ((h.method r).relocate place) =
          h.instructionLine (h.method r) := by
        funext i
        have print : (h.relocate place).print = h.print := funext (h.print_relocate place)
        simp only [instructionLine, remark?, print]
        rfl
      have nested : nestedMethods ((h.method r).relocate place) = nestedMethods (h.method r) := rfl
      have title : titleLine ((h.method r).relocate place) = titleLine (h.method r) := rfl
      unfold listMethods
      simp only [ih, method_relocate, Method.code_relocate, line, nested, title]

@[simp] theorem listing_relocate (r : Ref .method) :
    (h.relocate place).listing r = h.listing r := by
  have rounds : (h.relocate place).listingRounds = h.listingRounds := by
    simp only [listingRounds, relocate]
    rw [Array.foldl_map]
    rfl
  simp [listing, listingLines, rounds, listMethods_relocate]

end Heap

/-! ## Environments -/

namespace Environment

variable (place : Location → Location) (h : Heap) (e : Environment)

@[simp] theorem define_relocate (name : String) (v : Value) :
    e.define (h.relocate place) name v = (e.define h name v).relocate place := by
  simp [define]

@[simp] theorem binding?_relocate (name : String) :
    e.binding? (h.relocate place) name = e.binding? h name := by
  have here : bindingIn? (h.relocate place) name = bindingIn? h name := by
    funext cell
    simp [bindingIn?]
  have scope : scopeBinding? (h.relocate place) name = scopeBinding? h name := by
    funext cell
    simp [scopeBinding?, here]
  simp [binding?, scope]

@[simp] theorem lookup?_relocate (name : String) :
    e.lookup? (h.relocate place) name = e.lookup? h name := by
  have tails : (h.relocate place).tail = h.tail := funext (h.tail_relocate place)
  simp [lookup?, tails]

end Environment

/-! ## Images -/

namespace Image

variable (place : Location → Location) (h : Heap) (image : Image)

@[simp] theorem defineClass_relocate (name : String) (base : Option (Ref .classObject))
    (tag : Tag) :
    image.defineClass (h.relocate place) name base tag =
      ((image.defineClass h name base tag).1.relocate place,
        (image.defineClass h name base tag).2) := by
  simp [defineClass]

@[simp] theorem base?_relocate (c : Ref .classObject) :
    image.base? (h.relocate place) c = image.base? h c := rfl

@[simp] theorem classOf_relocate (v : Value) :
    image.classOf (h.relocate place) v = image.classOf h v := rfl

@[simp] theorem search_relocate (selector : String) (limit : Nat) (c : Ref .classObject) :
    image.search (h.relocate place) selector limit c = image.search h selector limit c := by
  induction limit generalizing c with
  | zero => rfl
  | succ limit ih =>
    unfold search
    simp only [Heap.ownHandler?_relocate, base?_relocate, ih]

@[simp] theorem handler?_relocate (c : Ref .classObject) (selector : String) :
    image.handler? (h.relocate place) c selector = image.handler? h c selector := by
  simp [handler?]

@[simp] theorem respondsTo_relocate (receiver : Value) (selector : String) :
    image.respondsTo (h.relocate place) receiver selector =
      image.respondsTo h receiver selector := by
  simp [respondsTo]

end Image

end MessageMachine
