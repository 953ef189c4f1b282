/-
# Every moment of a session

A session loads texts, which adds data and methods to its heap, and runs programs. So what is
true of a new standard image, is not lost where a heap is added to and is kept by whatever runs
(`Lasting`), is true at every moment of every session, in the middle of an evaluation too.

Three things last. The classes are built on those of a new standard image, an instance belongs
to a class that is there, and there are no primitives but the standard ones.
-/

import MessageMachine.Proofs.Image.Growth
import MessageMachine.Proofs.Machine.Instances
import MessageMachine.Proofs.Session.Stages

namespace MessageMachine

/-! ## Loading and running -/

theorem Heap.extends_storeForms (h : Heap) (file : String) (forms : List Reader.Form) :
    h.Extends (h.storeForms file forms).1 := by
  induction forms generalizing h with
  | nil => exact .refl h
  | cons form rest ih =>
    rw [storeForms_cons]
    exact (h.extends_store file form.datum).trans (ih _)

theorem Machine.Stable.stepsIn {P : Heap → Image → Prop} (stable : Stable P) {i : Nat}
    {a b : Activity} {m k : Machine} (here : P m.heap m.image) (steps : StepsIn i a m b k) :
    P k.heap k.image := by
  induction steps with
  | zero => exact here
  | succ ran _ ih => exact ih (stable.step here ran)

namespace Session

open Machine

/-- Loading a text adds to the heap. -/
theorem extends_load {h heap : Heap} {source file : String} {programs : List (Ref .method)}
    (loaded : load h source file = .ok (heap, programs)) : h.Extends heap := by
  obtain ⟨forms, -, read, -, -⟩ := exists_foldlM_of_load loaded
  exact (h.extends_storeForms file forms).trans (loads_of_load read loaded).extends_

/-! ## What lasts -/

/-- A session begins with it and never loses it. -/
structure Lasting (P : Heap → Image → Prop) : Prop where
  fresh : P (Image.create .empty none false).1 (Image.create .empty none false).2
  extend : ∀ {h h' : Heap} {image : Image}, h.Extends h' → P h image → P h' image
  stable : Stable P

/-- The heap and the image at some moment of a session, between two evaluations or in the middle
of one. -/
inductive Moment : Heap → Image → Prop
  | between {s : Session} : s.Reachable → Moment s.heap s.image
  | during {s : Session} {fuel : Nat} {source file : String} {a : Activity} {m : Machine} :
      s.Reachable → s.Passes fuel source file a m → Moment m.heap m.image

namespace Lasting

variable {P : Heap → Image → Prop} (lasting : Lasting P) {s : Session}
include lasting

theorem runAll (here : P s.heap s.image) (fuel : Nat) (programs : List (Ref .method)) :
    P (s.runAll fuel programs).session.heap (s.runAll fuel programs).session.image := by
  refine kept_runAll (P := fun t => P t.heap t.image) (fun t program before => ?_) programs here
  rw [session_runProgram]
  exact lasting.stable.run before rfl

theorem reachable (reachable : s.Reachable) : P s.heap s.image := by
  induction reachable with
  | create settings listsPrograms => exact lasting.fresh
  | @evaluate s fuel source file _ ih =>
    cases loaded : load s.heap source file with
    | error failure =>
      rw [evaluate_of_load loaded]
      exact ih
    | ok done =>
      rw [evaluate_eq_runAll loaded]
      exact lasting.runAll (s := { s with heap := done.1 }) (lasting.extend (extends_load loaded) ih)
        fuel done.2

/-- What lasts is true at every moment. -/
theorem moment {h : Heap} {image : Image} (moment : Moment h image) : P h image := by
  cases moment with
  | between reachable => exact lasting.reachable reachable
  | @during s fuel source file a m reachable passes =>
    obtain ⟨loaded, -, rfl, _, steps⟩ := passes
    have begun := lasting.extend (extends_load loaded) (lasting.reachable reachable)
    have before := lasting.runAll (s := { s with heap := _ }) begun fuel
    exact lasting.stable.stepsIn (before _) steps

end Lasting

theorem lasting_builtOn : Lasting
    (Image.BuiltOn (Image.create .empty none false).1 (Image.create .empty none false).2) where
  fresh := .refl Image.inOrder_create
  extend := fun added built => built.of_classes added.classes
  stable := stable_builtOn _ _

theorem lasting_housed : Lasting fun h _ => h.Housed where
  fresh := by
    intro r
    have none_ : (Image.create .empty none false).1.objects = #[] := by
      rw [← Array.size_eq_zero_iff]
      decide +kernel
    have object : (Image.create .empty none false).1.object r = default := by
      unfold Heap.object
      rw [none_]
      rfl
    rw [object]
    decide +kernel
  extend := fun added housed =>
    housed.step (.same added.objects) (Nat.le_of_eq (congrArg Array.size added.classes).symm)
  stable := stable_housed

theorem lasting_primitives : Lasting fun h _ =>
    h.primitives = (Image.create .empty none false).1.primitives where
  fresh := rfl
  extend := fun added same => added.primitives.trans same
  stable :=
    { perform := fun m behaviour name args same =>
        (answers_perform m behaviour name args).undisturbed.primitives.trans same
      define := fun _ _ _ _ same => same }

end Session

end MessageMachine
