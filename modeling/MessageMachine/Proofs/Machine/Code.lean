/-
# What running does to the data

Only two things in a step touch the heap and the image: a primitive that is performed,
and the instruction that binds a global. So a property of the data that these two keep
is kept by every step and by every run, however far it gets and however it ends.

One such property is that the code is what it was. Methods and primitives are made
before anything runs; no step makes one, changes one or takes one away, not even where
it fails.
-/

import MessageMachine.Proofs.Machine.Primitive

namespace MessageMachine

namespace Machine

/-- A property of the heap and the image that running keeps. -/
structure Stable (P : Heap → Image → Prop) : Prop where
  perform : ∀ (m : Machine) (behaviour : Behaviour) (name : String) (args : List Value),
    P m.heap m.image →
      P (m.perform behaviour name args).2.heap (m.perform behaviour name args).2.image
  define : ∀ (h : Heap) (image : Image) (name : String) (v : Value),
    P h image → P (image.globals.define h name v) image

namespace Stable

variable {P : Heap → Image → Prop}

/-! ## Instructions -/

theorem push {m : Machine} (here : P m.heap m.image) (v : Value) :
    P (m.push v).2.heap (m.push v).2.image := by
  unfold Machine.push
  split
  · exact here
  · simp only
    split
    · exact here
    · exact here

theorem pop {m : Machine} (here : P m.heap m.image) {go : Value → Machine → Activity × Machine}
    (each : ∀ v k, P k.heap k.image → P (go v k).2.heap (go v k).2.image) :
    P (m.pop go).2.heap (m.pop go).2.image := by
  unfold Machine.pop
  split
  · exact here
  · simp only
    split
    · exact here
    · split
      · exact here
      · apply each
        exact here

theorem callPrimitive (stable : Stable P) {m : Machine} (here : P m.heap m.image)
    (p : Ref .primitive) (args : List Value) :
    P (m.callPrimitive p args).2.heap (m.callPrimitive p args).2.image := by
  unfold Machine.callPrimitive
  simp only
  split
  · split
    · exact stable.perform m _ _ _ here
    · exact here
  · exact stable.perform m _ _ _ here

theorem call (stable : Stable P) {m : Machine} (here : P m.heap m.image) (count offset : Nat) :
    P (m.call count offset).2.heap (m.call count offset).2.image := by
  unfold Machine.call
  split
  · exact here
  · simp only
    split
    · exact here
    · split
      · split
        · apply push
          exact here
        · split
          · exact here
          · exact here
          · split
            · exact here
            · apply stable.callPrimitive
              exact here
          · split
            · split
              · exact here
              · exact here
            · apply push
              exact here
      · exact here

theorem leave {m : Machine} (here : P m.heap m.image) (v : Value) :
    P (m.leave v).2.heap (m.leave v).2.image := by
  unfold Machine.leave
  split
  · exact here
  · simp only
    split
    · split
      · exact here
      · apply push
        exact here
    · apply push
      exact here

theorem jumpTo {m : Machine} (here : P m.heap m.image) (target : Int) :
    P (m.jumpTo target).heap (m.jumpTo target).image := by
  unfold Machine.jumpTo modifyFrame
  split
  · exact here
  · exact here

theorem execute (stable : Stable P) {m : Machine} (here : P m.heap m.image) (frame : Frame)
    (i : Instruction) : P (m.execute frame i).2.heap (m.execute frame i).2.image := by
  unfold Machine.execute
  split
  · exact here
  · split
    · exact push here _
    · exact here
  · apply pop here
    intro v k kept
    split
    · apply push
      exact kept
    · split
      · exact push kept _
      · apply push
        exact kept
  · exact stable.call here _ _
  · exact pop here fun v k kept => leave kept v
  · split
    · exact here
    · split
      · exact push here _
      · exact here
  · exact pop here fun v k kept => kept
  · apply pop here
    intro v k kept
    apply pop kept
    intro w k kept
    split
    · exact kept
    · apply push
      exact stable.define _ _ _ _ kept
  · exact jumpTo here _
  · apply pop here
    intro v k kept
    simp only
    split
    · exact kept
    · exact jumpTo kept _

theorem traceInstruction {m : Machine} (here : P m.heap m.image) (frame : Frame)
    (i : Instruction) : P (m.traceInstruction frame i).heap (m.traceInstruction frame i).image := by
  unfold Machine.traceInstruction
  split
  · exact here
  · exact here

theorem executeNext (stable : Stable P) {m : Machine} (here : P m.heap m.image) :
    P m.executeNext.2.heap m.executeNext.2.image := by
  unfold Machine.executeNext
  split
  · exact here
  · split
    · exact here
    · apply stable.execute
      apply traceInstruction
      exact here

/-! ## Requests -/

theorem begin {m : Machine} (here : P m.heap m.image) (r : Ref .method)
    (argBase argCount : Nat) :
    P (m.begin r argBase argCount).2.heap (m.begin r argBase argCount).2.image := by
  unfold Machine.begin
  split
  · exact here
  · exact here

theorem invokeCallable (stable : Stable P) {m : Machine} (here : P m.heap m.image)
    (callable : Callable) (args : List Value) :
    P (m.invokeCallable callable args).2.heap (m.invokeCallable callable args).2.image := by
  unfold Machine.invokeCallable
  cases callable with
  | primitive p =>
    have called := stable.callPrimitive here p args
    simp only
    split
    next given =>
      rw [given] at called
      exact called
    · exact called
  | method r =>
    simp only
    split
    · apply begin
      exact here
    · exact here

theorem enter (stable : Stable P) {m : Machine} (here : P m.heap m.image) (r : Request) :
    P (m.enter r).2.heap (m.enter r).2.image := by
  unfold Machine.enter
  cases r with
  | execute program =>
    simp only
    split
    · exact begin here _ _ _
    · exact here
  | send receiver selector args =>
    simp only
    split
    · exact here
    · exact here
    · exact stable.invokeCallable here _ _
  | invoke callable args => exact stable.invokeCallable here _ _

/-! ## Steps and runs -/

variable {a a' : Activity} {m m' : Machine}

theorem step (stable : Stable P) (here : P m.heap m.image)
    (ran : Machine.step a m = .running a' m') : P m'.heap m'.image := by
  cases a with
  | fetch =>
    have kept := stable.executeNext here
    cases ran
    exact kept
  | request r =>
    have kept := stable.enter here r
    cases ran
    exact kept
  | abandon why =>
    cases ran
    unfold abandonEntry
    split
    · exact here
    · exact here
  | reply v =>
    simp only [Machine.step] at ran
    split at ran
    · cases ran
    · have kept := push here v
      cases ran
      exact kept
  | fault f =>
    simp only [Machine.step] at ran
    split at ran
    · cases ran
    · cases ran
      exact here

/-- The last step only hands over what there is. -/
theorem finish {completion : Completion} (here : P m.heap m.image)
    (ended : Machine.step a m = .finished completion m') : P m'.heap m'.image := by
  cases a with
  | reply v =>
    simp only [Machine.step] at ended
    split at ended
    · cases ended
      exact here
    · cases ended
  | fault f =>
    simp only [Machine.step] at ended
    split at ended
    · cases ended
      exact here
    · cases ended
  | fetch => cases ended
  | request r => cases ended
  | abandon why => cases ended

theorem run (stable : Stable P) (here : P m.heap m.image) {fuel : Nat}
    {completion : Option Completion} (ran : Machine.run fuel a m = (completion, m')) :
    P m'.heap m'.image := by
  induction fuel generalizing a m with
  | zero =>
    cases ran
    exact here
  | succ fuel ih =>
    rw [Machine.run] at ran
    cases taken : Machine.step a m with
    | running b k =>
      rw [taken] at ran
      exact ih (stable.step here taken) ran
    | finished completion k =>
      rw [taken] at ran
      cases ran
      exact finish here taken

end Stable

/-! ## Code -/

theorem SameCode.refl (h : Heap) : SameCode h h :=
  ⟨rfl, rfl⟩

theorem stable_sameCode (h : Heap) : Stable fun h' _ => SameCode h h' where
  perform := by
    intro m behaviour name args same
    have undisturbed := (answers_perform m behaviour name args).undisturbed
    exact same.trans ⟨undisturbed.methods, undisturbed.primitives⟩
  define := fun h' image name v same => same.trans (sameCode_define h' image.globals name v)

variable {a a' : Activity} {m m' : Machine}

theorem sameCode_of_step (ran : step a m = .running a' m') : SameCode m.heap m'.heap :=
  (stable_sameCode m.heap).step (.refl _) ran

/-- However far a run gets, the code is what it was. -/
theorem sameCode_of_run (fuel : Nat) {completion : Option Completion}
    (ran : run fuel a m = (completion, m')) : SameCode m.heap m'.heap :=
  (stable_sameCode m.heap).run (.refl _) ran

end Machine

end MessageMachine
