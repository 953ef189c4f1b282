/-
# Runs that follow evaluations

A machine follows a direct evaluation if it ends up where the evaluation does. It comes
to a state that shows the value, it is about to give up or to fail for the same reason,
or it goes on for at least as many steps as the evaluation was given calls. In every
case in which the evaluation has a result the machine is left in the same world.

`Follows` says this relative to what a state must look like, and its lemmas say how
runs are put together from smaller ones. `Inside` is what such states look like while
code is executed: the operands that the code has pushed are known as a list.
-/

import MessageMachine.Proofs.Compiler.Primitive
import MessageMachine.Proofs.Compiler.Reading
import MessageMachine.Proofs.Layout
import MessageMachine.Proofs.Machine.Code
import MessageMachine.Proofs.Machine.Entry
import MessageMachine.Proofs.StackDepth.Soundness

namespace MessageMachine

/-- The limits that are set for a machine. What a method asks room for is none of them. -/
def Exhaustion.IsLimit : Exhaustion → Prop
  | frames _ _ | segment _ _ => True
  | operands _ _ => False

/-- The methods of a heap implement the functions of a library. -/
structure Heap.Compiled (h : Heap) (library : List Function) : Prop where
  size : h.methods.size = library.length
  implements : ∀ (index : Nat) f, library[index]? = some f → Implements (h.method ⟨index⟩) f
  standard : h.Standard

theorem Heap.Compiled.congr {h h' : Heap} {library : List Function} (compiled : h.Compiled library)
    (same : Machine.SameCode h h') : h'.Compiled library where
  size := by rw [same.methods, compiled.size]
  implements := by
    intro index f found
    rw [Heap.method_of_methods same.methods]
    exact compiled.implements index f found
  standard := compiled.standard.congr same.primitives

namespace Machine

/-! ## Steps -/

variable {a b c : Activity} {m k l : Machine}

theorem StepsIn.trans {i j : Nat} (first : StepsIn i a m b k) (second : StepsIn j b k c l) :
    StepsIn (i + j) a m c l := by
  induction first with
  | zero =>
    rw [Nat.zero_add]
    exact second
  | succ ran _ ih =>
    rw [Nat.add_right_comm]
    exact .succ ran (ih second)

/-- A run that goes on for some steps goes on for fewer. -/
theorem StepsIn.take {i j : Nat} (steps : StepsIn j a m c l) (le : i ≤ j) :
    ∃ b k, StepsIn i a m b k := by
  induction i generalizing a m j with
  | zero => exact ⟨a, m, .zero⟩
  | succ i ih =>
    cases steps with
    | zero => cases le
    | succ ran rest =>
      obtain ⟨b, k, shorter⟩ := ih rest (Nat.le_of_succ_le_succ le)
      exact ⟨b, k, .succ ran shorter⟩

theorem StepsIn.reachable {i : Nat} (steps : StepsIn i a m b k) (reachable : Reachable a m) :
    Reachable b k := by
  induction steps with
  | zero => exact reachable
  | succ ran _ ih => exact ih (.move reachable (.step ran))

theorem StepsIn.sameCode {i : Nat} (steps : StepsIn i a m b k) : SameCode m.heap k.heap := by
  induction steps with
  | zero => exact .refl _
  | succ ran _ ih => exact (sameCode_of_step ran).trans ih

/-- A run goes on from wherever its steps have got to. -/
theorem run_of_stepsIn {i : Nat} (steps : StepsIn i a m b k) (fuel : Nat) :
    run (i + fuel) a m = run fuel b k := by
  induction steps with
  | zero => rw [Nat.zero_add]
  | succ ran _ ih =>
    rw [Nat.add_right_comm, run, ran]
    exact ih

/-- Steps lead to one state only. -/
theorem StepsIn.unique {i : Nat} (first : StepsIn i a m b k) (second : StepsIn i a m c l) :
    b = c ∧ k = l := by
  induction first with
  | zero =>
    cases second
    exact ⟨rfl, rfl⟩
  | succ ran _ ih =>
    cases second with
    | succ ran' rest =>
      cases ran.symm.trans ran'
      exact ih rest

/-- A run that has ended is not changed by more fuel. -/
theorem run_add_of_eq_some {completion : Completion} {fuel : Nat}
    (ended : run fuel a m = (some completion, k)) (more : Nat) :
    run (fuel + more) a m = (some completion, k) := by
  induction fuel generalizing a m with
  | zero => cases ended
  | succ fuel ih =>
    rw [Nat.add_right_comm, run]
    rw [run] at ended
    cases taken : step a m with
    | running b l =>
      rw [taken] at ended
      exact ih ended
    | finished completion l =>
      rw [taken] at ended
      exact ended

/-- A run ends in one way only. -/
theorem run_unique {c d : Completion} {i j : Nat} (first : run i a m = (some c, k))
    (second : run j a m = (some d, l)) : c = d ∧ k = l := by
  have later := run_add_of_eq_some first j
  rw [Nat.add_comm, run_add_of_eq_some second i] at later
  cases later
  exact ⟨rfl, rfl⟩

/-- A machine gets from one state to another. -/
def Leads (a : Activity) (m : Machine) (b : Activity) (k : Machine) : Prop :=
  ∃ count, StepsIn count a m b k

theorem Leads.refl (a : Activity) (m : Machine) : Leads a m a m :=
  ⟨0, .zero⟩

theorem Leads.trans (first : Leads a m b k) (second : Leads b k c l) : Leads a m c l := by
  obtain ⟨i, first⟩ := first
  obtain ⟨j, second⟩ := second
  exact ⟨i + j, first.trans second⟩

theorem Leads.step (ran : step a m = .running b k) : Leads a m b k :=
  ⟨1, .succ ran .zero⟩

/-! ## Compiled code that runs within its limits -/

/-- No call is ever given up for lack of frames or of stack. -/
def Unlimited (a : Activity) (m : Machine) : Prop :=
  ∀ k what, Leads a m (.abandon (.exhausted what)) k → ¬ what.IsLimit

/-- A machine that runs nothing but compiled code, within its limits. -/
structure Running (library : List Function) (a : Activity) (m : Machine) : Prop where
  reachable : Reachable a m
  unlimited : Unlimited a m
  compiled : m.heap.Compiled library

theorem Running.leads {library : List Function} (running : Running library a m)
    (leads : Leads a m b k) : Running library b k where
  reachable := by
    obtain ⟨i, steps⟩ := leads
    exact steps.reachable running.reachable
  unlimited := fun l what later => running.unlimited l what (leads.trans later)
  compiled := by
    obtain ⟨i, steps⟩ := leads
    exact running.compiled.congr steps.sameCode

/-! ## Following an evaluation -/

/-- A machine follows an evaluation. Where the evaluation has a value, the state shows
it; where it stops, the state is as `stopped` says. -/
def Follows {α : Type} (calls : Nat) (a : Activity) (m : Machine)
    (shows_ : α → Activity → Machine → Prop) (stopped : Machine → Prop)
    (result : Option (Except Stop α × World)) : Prop :=
  match result with
  | none => ∃ b k, StepsIn calls a m b k
  | some (.ok v, w) => ∃ b k, Leads a m b k ∧ k.world = w ∧ shows_ v b k
  | some (.error stop, w) => ∃ k, Leads a m stop.activity k ∧ k.world = w ∧ stopped k

namespace Follows

variable {α β : Type} {calls : Nat} {shows_ shows' : α → Activity → Machine → Prop}
  {stopped stopped' : Machine → Prop} {result : Option (Except Stop α × World)}

/-- A state that shows the value already. -/
theorem here {v : α} (shown : shows_ v a m) :
    Follows calls a m shows_ stopped (some (.ok v, m.world)) :=
  ⟨a, m, .refl a m, rfl, shown⟩

theorem after (leads : Leads a m b k) (follows : Follows calls b k shows_ stopped result) :
    Follows calls a m shows_ stopped result := by
  match result with
  | none =>
    obtain ⟨i, steps⟩ := leads
    obtain ⟨c, l, more⟩ := follows
    exact (steps.trans more).take (Nat.le_add_left calls i)
  | some (.ok v, w) =>
    obtain ⟨c, l, more, same, shown⟩ := follows
    exact ⟨c, l, leads.trans more, same, shown⟩
  | some (.error stop, w) =>
    obtain ⟨l, more, same, down⟩ := follows
    exact ⟨l, leads.trans more, same, down⟩

/-- One step more makes up for one call more. -/
theorem step (ran : step a m = .running b k) (follows : Follows calls b k shows_ stopped result) :
    Follows (calls + 1) a m shows_ stopped result := by
  match result with
  | none =>
    obtain ⟨c, l, more⟩ := follows
    exact ⟨c, l, .succ ran more⟩
  | some (.ok v, w) =>
    have later : Follows calls a m shows_ stopped _ := after (.step ran) follows
    exact later
  | some (.error stop, w) =>
    have later : Follows calls a m shows_ stopped _ := after (.step ran) follows
    exact later

theorem mono (follows : Follows calls a m shows_ stopped result)
    (value : ∀ v b k, shows_ v b k → shows' v b k) (down : ∀ k, stopped k → stopped' k) :
    Follows calls a m shows' stopped' result := by
  match result with
  | none => exact follows
  | some (.ok v, w) =>
    obtain ⟨b, k, leads, same, shown⟩ := follows
    exact ⟨b, k, leads, same, value v b k shown⟩
  | some (.error stop, w) =>
    obtain ⟨k, leads, same, halted⟩ := follows
    exact ⟨k, leads, same, down k halted⟩

/-- A machine goes on where it shows a value, and the world stays as it is. -/
theorem andThen (first : Follows calls a m shows_ stopped result)
    (next : ∀ v b k, Leads a m b k → shows_ v b k →
      ∃ c l, Leads b k c l ∧ l.world = k.world ∧ shows' v c l) :
    Follows calls a m shows' stopped result := by
  match result with
  | none => exact first
  | some (.ok v, w) =>
    obtain ⟨b, k, leads, rfl, shown⟩ := first
    obtain ⟨c, l, more, same, shown'⟩ := next v b k leads shown
    exact ⟨c, l, leads.trans more, same, shown'⟩
  | some (.error stop, w) => exact first

/-- Two evaluations one after the other. -/
theorem bind {x : Evaluation α} {f : α → Evaluation β} {w : World}
    {shows₂ : β → Activity → Machine → Prop}
    (first : Follows calls a m shows_ stopped (x w))
    (second : ∀ v b k, Leads a m b k → shows_ v b k →
      Follows calls b k shows₂ stopped (f v k.world)) :
    Follows calls a m shows₂ stopped ((x >>= f) w) := by
  rw [Evaluation.bind_apply]
  match x w, first with
  | none, first => exact first
  | some (.ok v, w), first =>
    obtain ⟨b, k, leads, rfl, shown⟩ := first
    exact after leads (second v b k leads shown)
  | some (.error stop, w), first => exact first

end Follows

end Machine

end MessageMachine
