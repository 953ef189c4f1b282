/-
# What becomes of instances

An instance is made of a class for instances, and its slots are set. Nothing else is ever done to
instances: none is taken away, and none changes its class. So all instances belong to classes
that are there, if they did so in the beginning.
-/

import MessageMachine.Proofs.Machine.Effect

namespace MessageMachine

namespace Heap

variable {h h' : Heap}

/-- Every instance belongs to a class that is there. -/
def Housed (h : Heap) : Prop :=
  ∀ r, (h.object r).ofClass.index < h.classes.size

/-- What may become of instances: they stay as they are, a slot of one is set, or one is made of
a class for instances. -/
inductive Instances (h : Heap) : Heap → Prop
  | same {h' : Heap} : h'.objects = h.objects → Instances h h'
  | slot (r : Ref .object) (slot : String) (v : Value) : Instances h (h.setSlot r slot v)
  | made {c : Ref .classObject} : (h.classAt c).instantiable = true →
      Instances h (h.allocObject ⟨c, .empty⟩).1

/-- The class of an instance is for good. -/
theorem ofClass_setSlot (h : Heap) (r s : Ref .object) (slot : String) (v : Value) :
    ((h.setSlot r slot v).object s).ofClass = (h.object s).ofClass := by
  obtain ⟨i⟩ := r
  obtain ⟨j⟩ := s
  simp only [setSlot, object, Array.getD_eq_getD_getElem?, Array.getElem?_setIfInBounds]
  grind

theorem object_allocObject (h : Heap) (o : Object) (r : Ref .object) :
    (h.allocObject o).1.object r = if r.index = h.objects.size then o else h.object r := by
  simp only [allocObject, object, Array.getD_eq_getD_getElem?, Array.getElem?_push]
  split
  · rfl
  · rfl

theorem lt_of_instantiable {c : Ref .classObject} (instantiable : (h.classAt c).instantiable = true) :
    c.index < h.classes.size := by
  by_contra outside
  rw [classAt_of_size_le (Nat.le_of_not_lt outside)] at instantiable
  cases instantiable

theorem Housed.step (housed : h.Housed) (instances : h.Instances h')
    (size : h.classes.size ≤ h'.classes.size) : h'.Housed := by
  intro r
  refine Nat.lt_of_lt_of_le ?_ size
  cases instances with
  | same objects =>
    unfold object
    rw [objects]
    exact housed r
  | slot s slot v =>
    rw [ofClass_setSlot]
    exact housed r
  | made instantiable =>
    rw [object_allocObject]
    split
    · exact lt_of_instantiable instantiable
    · exact housed r

theorem objects_listEndingIn (h : Heap) (last : Value) (values : List Value) :
    (h.listEndingIn last values).1.objects = h.objects := by
  induction values with
  | nil => rfl
  | cons v rest ih => exact ih

end Heap

namespace Machine

variable {m : Machine}

theorem objects_backtraceList (m : Machine) : m.backtraceList.1.objects = m.heap.objects := by
  unfold backtraceList
  generalize m.backtrace = entries
  induction entries with
  | nil => rfl
  | cons entry rest ih => exact ih

theorem objects_answerNumber (x : Binary64) :
    (m.answerNumber x).2.heap.objects = m.heap.objects := by
  unfold answerNumber
  split <;> rfl

theorem objects_answerString (text : String) :
    (m.answerString text).2.heap.objects = m.heap.objects := by
  unfold answerString
  split <;> rfl

theorem objects_answerFrom (result : Except HostFault Value) :
    (m.answerFrom result).2.heap.objects = m.heap.objects := by
  unfold answerFrom
  split <;> rfl

theorem objects_withIntegers (name : String) (x y : Value) {go : Int → Int → Activity × Machine}
    (each : ∀ a b, (go a b).2.heap.objects = m.heap.objects) :
    (m.withIntegers name x y go).2.heap.objects = m.heap.objects := by
  unfold withIntegers
  split
  · rfl
  · split
    · rfl
    · exact each _ _

theorem objects_host (b : HostBehaviour) (name : String) (args : List Value) :
    (m.host b name args).2.heap.objects = m.heap.objects := by
  unfold host
  cases b with
  | explode | decline => rfl
  | arguments => exact Heap.objects_listEndingIn _ _ _
  | frameDepth | operandDepth => exact objects_answerNumber _
  | backtrace => exact (Heap.objects_listEndingIn _ _ _).trans (objects_backtraceList m)
  | execute | resend =>
    simp only
    split <;> rfl

theorem objects_apply (name : String) (args : List Value) :
    (m.apply name args).2.heap.objects = m.heap.objects := by
  unfold apply
  split
  · rfl
  · split
    · rfl
    · split <;> rfl

/-- Whatever behaviour is performed, this is all that becomes of instances. -/
theorem instances_perform (m : Machine) (behaviour : Behaviour) (name : String)
    (args : List Value) : m.heap.Instances (m.perform behaviour name args).2.heap := by
  unfold perform
  cases behaviour with
  | identical | equal | classOf | isNil | cons | always b | negation | head | tail =>
    exact .same rfl
  | printed => exact .same (objects_answerString _)
  | setSlot =>
    simp only [setSlot]
    split
    · exact .slot _ _ _
    · exact .same rfl
  | newInstance =>
    simp only [newInstance]
    split
    · exact .same rfl
    · split
      next instantiable => exact .made instantiable
      · exact .same rfl
  | arithmetic op => exact .same (objects_withIntegers _ _ _ fun _ _ => objects_answerNumber _)
  | division op =>
    refine .same (objects_withIntegers _ _ _ fun a b => ?_)
    split
    · rfl
    · exact objects_answerNumber _
  | comparison op => exact .same (objects_withIntegers _ _ _ fun _ _ => rfl)
  | respondsTo =>
    simp only [respondsTo]
    split
    · exact .same rfl
    · exact .same (objects_answerFrom _)
  | charCode =>
    simp only [charCode]
    split
    · exact .same (objects_answerNumber _)
    · exact .same rfl
  | stringLength =>
    simp only [stringLength]
    split
    · exact .same (objects_answerNumber _)
    · exact .same rfl
  | baseClass =>
    simp only [baseClass]
    split
    · exact .same (objects_answerFrom _)
    · exact .same rfl
  | symbolName | concat | className =>
    simp only [symbolName, concat, className]
    split
    · exact .same (objects_answerString _)
    · exact .same rfl
  | getSlot | intern | setHead | setTail | subclass | installMethod =>
    simp only [getSlot, intern, setHead, setTail, subclass, installMethod]
    split <;> exact .same rfl
  | apply => exact .same (objects_apply _ _)
  | host b => exact .same (objects_host b _ _)

/-- Classes are not taken away. -/
theorem size_classes_perform (m : Machine) (behaviour : Behaviour) (name : String)
    (args : List Value) :
    m.heap.classes.size ≤ (m.perform behaviour name args).2.heap.classes.size := by
  have effect := effect_perform m behaviour name args
  generalize m.perform behaviour name args = next at effect ⊢
  cases effect with
  | store v classes => exact Nat.le_of_eq (congrArg Array.size classes).symm
  | defineClass name base v =>
    rw [Image.size_classes_defineClass]
    exact Nat.le_succ _
  | install c selector callable v => exact Nat.le_of_eq (Heap.size_classes_install ..).symm
  | _ => exact Nat.le_refl _

theorem stable_housed : Stable fun h _ => h.Housed where
  perform := fun m behaviour name args housed =>
    housed.step (instances_perform m behaviour name args)
      (size_classes_perform m behaviour name args)
  define := fun _ _ _ _ housed => housed.step (.same rfl) (Nat.le_refl _)

end Machine

end MessageMachine
