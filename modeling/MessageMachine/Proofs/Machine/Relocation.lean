/-
# Primitives see data and nothing else

A standard primitive looks at the heap and the image, and of the heap it does not look at
the places that are remembered there. So on two machines whose data differ in such places
only it goes on in the same way, and it leaves data that differ in no other way. Whatever
frames, limits and reports the machines have makes no difference, except that a report
about an argument says where the machine is.

The behaviours that a host adds are left out, for they may look at the frames.
-/

import MessageMachine.Machine.Primitive
import MessageMachine.Proofs.Heap.Relocation

namespace MessageMachine.Machine

/-- What a primitive comes to on two machines. It changes nothing, it leaves data, or it
reports that it declined. -/
inductive Alike (place : Location → Location) (m n : Machine) :
    Activity × Machine → Activity × Machine → Prop
  | same (a : Activity) : Alike place m n (a, m) (a, n)
  | data (v : Value) (h : Heap) (image : Image) :
      Alike place m n (.reply v, { m with heap := h, image := image })
        (.reply v, { n with heap := h.relocate place, image := image })
  | decline (message : String) :
      Alike place m n (.reply .nil, m.report .primitiveFailed message)
        (.reply .nil, n.report .primitiveFailed message)

namespace Alike

variable {place : Location → Location} {m n : Machine}

theorem answerNumber (x : Binary64) : Alike place m n (m.answerNumber x) (n.answerNumber x) := by
  unfold Machine.answerNumber
  cases Value.ofNumber x with
  | ok v => exact .same _
  | error overflow => exact .same _

theorem answerFrom (result : Except HostFault Value) :
    Alike place m n (m.answerFrom result) (n.answerFrom result) := by
  cases result with
  | ok v => exact .same _
  | error f => exact .same _

section

variable (heap : n.heap = m.heap.relocate place) (image : n.image = m.image)

include image in
theorem store (v : Value) (h : Heap) :
    Alike place m n (.reply v, { m with heap := h })
      (.reply v, { n with heap := h.relocate place }) := by
  have stored : Alike place m n (.reply v, { m with heap := h, image := m.image })
      (.reply v, { n with heap := h.relocate place, image := m.image }) := .data v h m.image
  rw [← image] at stored
  simpa [image] using stored

include heap

include image in
theorem answerString (text : String) :
    Alike place m n (m.answerString text) (n.answerString text) := by
  unfold Machine.answerString
  simp only [heap, Heap.allocString_relocate]
  split
  · exact store image _ _
  · exact .same _

theorem withIntegers (name : String) (x y : Value) {go go' : Int → Int → Activity × Machine}
    (each : ∀ a b, Alike place m n (go a b) (go' a b)) :
    Alike place m n (m.withIntegers name x y go) (n.withIntegers name x y go') := by
  unfold Machine.withIntegers unexpected
  simp only [heap, Heap.print_relocate]
  cases x.asInteger? with
  | none => exact .decline _
  | some a =>
    cases y.asInteger? with
    | none => exact .decline _
    | some b => exact each a b

theorem apply (name : String) (args : List Value) :
    Alike place m n (m.apply name args) (n.apply name args) := by
  unfold Machine.apply
  cases args with
  | nil => exact .same _
  | cons f rest =>
    simp only [heap, Heap.print_relocate]
    cases f.asCallable? with
    | none => exact .decline _
    | some callable =>
      cases rest with
      | nil => exact .decline _
      | cons receiver others => exact .same _

end

end Alike

variable {place : Location → Location} {m n : Machine}

/-- Every standard behaviour does the same. -/
theorem alike_perform (heap : n.heap = m.heap.relocate place) (image : n.image = m.image)
    {behaviour : Behaviour} (standard : ∀ added, behaviour ≠ .host added) (name : String)
    (args : List Value) :
    Alike place m n (m.perform behaviour name args) (n.perform behaviour name args) := by
  unfold perform
  cases behaviour with
  | identical | isNil | always b | negation => exact .same _
  | equal =>
    simp only [answerBool, heap, Heap.equal_relocate]
    exact .same _
  | printed =>
    simp only [heap, Heap.print_relocate]
    exact .answerString heap image _
  | classOf =>
    simp only [answer, heap, image, Image.classOf_relocate]
    exact .same _
  | cons =>
    simp only [cons, heap, Heap.cons_relocate]
    exact .store image _ _
  | respondsTo =>
    simp only [respondsTo, unexpected, heap, image, Image.respondsTo_relocate, Heap.print_relocate]
    split
    · exact .decline _
    · exact .answerFrom _
  | getSlot =>
    simp only [getSlot, heap, Heap.object_relocate]
    split
    · exact .same _
    · exact .decline _
  | setSlot =>
    simp only [setSlot, heap, Heap.setSlot_relocate]
    split
    · exact .store image _ _
    · exact .decline _
  | arithmetic op => exact .withIntegers heap _ _ _ fun _ _ => .answerNumber _
  | division op =>
    refine .withIntegers heap _ _ _ fun _ _ => ?_
    split
    · exact .decline _
    · exact .answerNumber _
  | comparison op => exact .withIntegers heap _ _ _ fun _ _ => .same _
  | charCode =>
    simp only [charCode]
    split
    · exact .answerNumber _
    · exact .same _
  | symbolName =>
    simp only [symbolName]
    split
    · exact .answerString heap image _
    · exact .same _
  | stringLength =>
    simp only [stringLength, heap, Heap.stringText_relocate]
    split
    · exact .answerNumber _
    · exact .same _
  | concat =>
    simp only [concat, unexpected, heap, Heap.stringText_relocate, Heap.print_relocate]
    split
    · exact .answerString heap image _
    · exact .decline _
  | intern =>
    simp only [intern, heap, Heap.stringText_relocate]
    split
    · exact .same _
    · exact .same _
  | head =>
    have heads : (m.heap.relocate place).head = m.heap.head := funext (m.heap.head_relocate place)
    simp only [head, answer, heap, heads]
    exact .same _
  | tail =>
    have tails : (m.heap.relocate place).tail = m.heap.tail := funext (m.heap.tail_relocate place)
    simp only [tail, answer, heap, tails]
    exact .same _
  | setHead =>
    simp only [setHead, heap, Heap.setHead_relocate]
    split
    · exact .store image _ _
    · exact .same _
  | setTail =>
    simp only [setTail, heap, Heap.setTail_relocate]
    split
    · exact .store image _ _
    · exact .same _
  | apply => exact .apply heap _ _
  | newInstance =>
    simp only [newInstance, heap, Heap.classAt_relocate, Heap.allocObject_relocate]
    split
    · exact .same _
    · split
      · exact .store image _ _
      · exact .decline _
  | subclass =>
    simp only [subclass, unexpected, heap, image, Image.defineClass_relocate, Heap.print_relocate]
    split
    · exact .data _ _ _
    · exact .decline _
  | installMethod =>
    simp only [installMethod, heap, Heap.install_relocate]
    split
    · exact .store image _ _
    · exact .decline _
  | className =>
    simp only [className, heap, Heap.classAt_relocate]
    split
    · exact .answerString heap image _
    · exact .same _
  | baseClass =>
    simp only [baseClass, heap, image, Image.base?_relocate]
    split
    · exact .answerFrom _
    · exact .same _
  | host added => exact absurd rfl (standard added)

end MessageMachine.Machine
