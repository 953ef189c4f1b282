/-
# Arguments of the wrong kind

Every standard behaviour that works on values of given kinds names them with their places,
`Behaviour.wanted`, and arguments that it accepts by count but not by kind are of no use to
it. All behaviours then leave the heap and the image alone, fail neither the execution nor
the host, and answer at once. In one respect they fall into two groups. The ones that are
not `Quiet` report one failure of theirs and answer nil; the quiet ones report nothing. Of
these, `setHead` and `setTail` answer the value that they did not store, `setHead_quiet`.
-/

import Mathlib.Data.List.Basic
import MessageMachine.Image.Standard
import MessageMachine.Machine.Step

namespace MessageMachine

/-! ## Standard primitives -/

/-- The standard image installs such a primitive on the class of the tag. -/
def Primitive.IsStandard (p : Primitive) (tag : Tag) : Prop :=
  (tag, p.name, p.arity, p.behaviour) ∈ Image.standardPrimitives

instance (p : Primitive) (tag : Tag) : Decidable (p.IsStandard tag) :=
  inferInstanceAs (Decidable (_ ∈ _))

/-- A call with so many arguments, the receiver included, is not refused for their number. -/
def Primitive.Accepts (p : Primitive) (args : List Value) : Prop :=
  ∀ expected, p.arity = some expected → expected = args.length

namespace Behaviour

/-- The kinds of the arguments that a behaviour works on, with their places. The receiver
has the first. -/
def wanted : Behaviour → List (Nat × Tag)
  | arithmetic _ | division _ | comparison _ => [(0, .integer), (1, .integer)]
  | respondsTo => [(1, .symbol)]
  | getSlot | setSlot => [(0, .«instance»), (1, .symbol)]
  | charCode => [(0, .char)]
  | symbolName => [(0, .symbol)]
  | stringLength | intern => [(0, .string)]
  | concat => [(0, .string), (1, .string)]
  | head | tail | setHead | setTail => [(0, .pair)]
  | apply => [(0, .function)]
  | newInstance | className | baseClass => [(0, .«class»)]
  | subclass => [(0, .«class»), (1, .symbol)]
  | installMethod => [(0, .«class»), (1, .symbol), (2, .function)]
  | identical | equal | printed | classOf | isNil | cons | always _ | negation | host _ => []

/-- One of the arguments is not of the kind that is wanted in its place. -/
def Unsuited (behaviour : Behaviour) (args : List Value) : Prop :=
  ∃ place ∈ behaviour.wanted, (args.getD place.1 .nil).tag ≠ place.2

/-- The behaviours that pass over arguments of another kind without a report. -/
def Quiet : Behaviour → Prop
  | charCode | symbolName | stringLength | intern | head | tail | setHead | setTail
  | newInstance | className | baseClass => True
  | _ => False

/-- What a quiet behaviour answers where it does nothing. -/
def passed (behaviour : Behaviour) (args : List Value) : Value :=
  match behaviour with
  | setHead | setTail => args.getD 1 .nil
  | _ => .nil

end Behaviour

/-! ## Views

A view of a value shows something exactly if the value is of its kind. -/

namespace Value

variable {v : Value}

theorem asInteger?_eq_none_iff : v.asInteger? = none ↔ v.tag ≠ .integer := by
  cases v <;> simp [asInteger?, tag]

theorem asSymbol?_eq_none_iff : v.asSymbol? = none ↔ v.tag ≠ .symbol := by
  cases v <;> simp [asSymbol?, tag]

theorem asString?_eq_none_iff : v.asString? = none ↔ v.tag ≠ .string := by
  cases v <;> simp [asString?, tag]

theorem asPair?_eq_none_iff : v.asPair? = none ↔ v.tag ≠ .pair := by
  cases v <;> simp [asPair?, tag]

theorem asCallable?_eq_none_iff : v.asCallable? = none ↔ v.tag ≠ .function := by
  cases v <;> simp [asCallable?, tag]

theorem asClass?_eq_none_iff : v.asClass? = none ↔ v.tag ≠ .«class» := by
  cases v <;> simp [asClass?, tag]

theorem asObject?_eq_none_iff : v.asObject? = none ↔ v.tag ≠ .«instance» := by
  cases v <;> simp [asObject?, tag]

end Value

namespace Machine

open Value Behaviour

variable {m : Machine} {behaviour : Behaviour} {name : String} {receiver : Value}
  {args rest : List Value}

/-! ## Behaviours -/

theorem exists_place_cons {kind : Tag} {n : Nat} {places : List (Nat × Tag)} :
    (∃ place ∈ (n, kind) :: places, (args.getD place.1 .nil).tag ≠ place.2) ↔
      (args.getD n .nil).tag ≠ kind ∨ ∃ place ∈ places, (args.getD place.1 .nil).tag ≠ place.2 :=
  List.exists_mem_cons_iff ..

theorem exists_place_singleton {kind : Tag} {n : Nat} :
    (∃ place ∈ [(n, kind)], (args.getD place.1 .nil).tag ≠ place.2) ↔
      (args.getD n .nil).tag ≠ kind := by
  rw [exists_place_cons, or_iff_left]
  rintro ⟨place, none_, -⟩
  exact List.not_mem_nil none_

/-- Whichever of two arguments is no integer, one of them is reported. -/
theorem withIntegers_unsuited {x y : Value} (go : Int → Int → Activity × Machine)
    (unsuited : x.tag ≠ .integer ∨ y.tag ≠ .integer) :
    ∃ message, m.withIntegers name x y go = m.decline name message := by
  rw [← asInteger?_eq_none_iff, ← asInteger?_eq_none_iff] at unsuited
  unfold withIntegers
  cases first : x.asInteger? with
  | none => exact ⟨_, rfl⟩
  | some a =>
    have second : y.asInteger? = none := unsuited.resolve_left (by simp [first])
    rw [second]
    exact ⟨_, rfl⟩

/-- The behaviours that are not quiet report one failure. -/
theorem perform_unsuited (name : String) (loud : ¬ behaviour.Quiet)
    (unsuited : behaviour.Unsuited (receiver :: rest)) :
    ∃ message, m.perform behaviour name (receiver :: rest) = m.decline name message := by
  unfold Unsuited at unsuited
  cases behaviour with
  | arithmetic | division | comparison =>
    rw [wanted, exists_place_cons, exists_place_singleton] at unsuited
    exact withIntegers_unsuited _ unsuited
  | respondsTo =>
    rw [wanted, exists_place_singleton, ← asSymbol?_eq_none_iff] at unsuited
    exact ⟨_, by rw [perform, respondsTo, unsuited]⟩
  | getSlot =>
    rw [wanted, exists_place_cons, exists_place_singleton, ← asObject?_eq_none_iff,
      ← asSymbol?_eq_none_iff] at unsuited
    simp only [perform, getSlot]
    split
    next object slot => rw [object, slot] at unsuited; simp at unsuited
    next => exact ⟨_, rfl⟩
  | setSlot =>
    rw [wanted, exists_place_cons, exists_place_singleton, ← asObject?_eq_none_iff,
      ← asSymbol?_eq_none_iff] at unsuited
    simp only [perform, setSlot]
    split
    next object slot => rw [object, slot] at unsuited; simp at unsuited
    next => exact ⟨_, rfl⟩
  | concat =>
    rw [wanted, exists_place_cons, exists_place_singleton, ← asString?_eq_none_iff,
      ← asString?_eq_none_iff] at unsuited
    simp only [perform, concat]
    split
    next first second => rw [first, second] at unsuited; simp at unsuited
    next => exact ⟨_, rfl⟩
  | apply =>
    rw [wanted, exists_place_singleton, ← asCallable?_eq_none_iff] at unsuited
    rw [List.getD_cons_zero] at unsuited
    exact ⟨_, by rw [perform, apply, unsuited]⟩
  | subclass =>
    rw [wanted, exists_place_cons, exists_place_singleton, ← asClass?_eq_none_iff,
      ← asSymbol?_eq_none_iff] at unsuited
    simp only [perform, subclass]
    split
    next base symbol => rw [base, symbol] at unsuited; simp at unsuited
    next => exact ⟨_, rfl⟩
  | installMethod =>
    rw [wanted, exists_place_cons, exists_place_cons, exists_place_singleton,
      ← asClass?_eq_none_iff, ← asSymbol?_eq_none_iff, ← asCallable?_eq_none_iff] at unsuited
    simp only [perform, installMethod]
    split
    next target symbol callable => rw [target, symbol, callable] at unsuited; simp at unsuited
    next => exact ⟨_, rfl⟩
  | charCode | symbolName | stringLength | intern | head | tail | setHead | setTail
  | newInstance | className | baseClass => exact absurd trivial loud
  | identical | equal | printed | classOf | isNil | cons | always _ | negation | host _ =>
    obtain ⟨place, none_, -⟩ := unsuited
    exact absurd none_ List.not_mem_nil

/-- The quiet ones pass over it. -/
theorem perform_passed (quiet : behaviour.Quiet) (unsuited : behaviour.Unsuited args) :
    m.perform behaviour name args = m.answer (behaviour.passed args) := by
  unfold Unsuited at unsuited
  cases behaviour with
  | charCode =>
    rw [wanted, exists_place_singleton] at unsuited
    simp only [perform, charCode]
    split
    next char => rw [char] at unsuited; exact absurd rfl unsuited
    next => rfl
  | symbolName =>
    rw [wanted, exists_place_singleton, ← asSymbol?_eq_none_iff] at unsuited
    simp only [perform, symbolName, unsuited]
    rfl
  | stringLength =>
    rw [wanted, exists_place_singleton, ← asString?_eq_none_iff] at unsuited
    simp only [perform, stringLength, unsuited]
    rfl
  | intern =>
    rw [wanted, exists_place_singleton, ← asString?_eq_none_iff] at unsuited
    simp only [perform, intern, unsuited]
    rfl
  | head =>
    rw [wanted, exists_place_singleton, ← asPair?_eq_none_iff] at unsuited
    simp only [perform, head, unsuited]
    rfl
  | tail =>
    rw [wanted, exists_place_singleton, ← asPair?_eq_none_iff] at unsuited
    simp only [perform, tail, unsuited]
    rfl
  | setHead =>
    rw [wanted, exists_place_singleton, ← asPair?_eq_none_iff] at unsuited
    simp only [perform, setHead, unsuited]
    rfl
  | setTail =>
    rw [wanted, exists_place_singleton, ← asPair?_eq_none_iff] at unsuited
    simp only [perform, setTail, unsuited]
    rfl
  | newInstance =>
    rw [wanted, exists_place_singleton, ← asClass?_eq_none_iff] at unsuited
    simp only [perform, newInstance, unsuited]
    rfl
  | className =>
    rw [wanted, exists_place_singleton, ← asClass?_eq_none_iff] at unsuited
    simp only [perform, className, unsuited]
    rfl
  | baseClass =>
    rw [wanted, exists_place_singleton, ← asClass?_eq_none_iff] at unsuited
    simp only [perform, baseClass, unsuited]
    rfl
  | _ => exact quiet.elim

/-! ## Calls -/

theorem callPrimitive_of_accepts {p : Ref .primitive}
    (accepts : (m.heap.primitive p).Accepts args) :
    m.callPrimitive p args =
      m.perform (m.heap.primitive p).behaviour (m.heap.primitive p).name args := by
  unfold callPrimitive
  simp only
  split
  next expected arity => rw [if_pos (accepts expected arity)]
  next => rfl

/-- A call that is refused for the number of its arguments is reported. -/
theorem callPrimitive_of_not_accepts {p : Ref .primitive}
    (refuses : ¬ (m.heap.primitive p).Accepts args) :
    ∃ expected, m.callPrimitive p args =
      (.reply .nil, m.wrongArity (m.heap.primitive p).name expected args.length) := by
  unfold Primitive.Accepts at refuses
  push Not at refuses
  obtain ⟨expected, arity, other⟩ := refuses
  refine ⟨expected, ?_⟩
  unfold callPrimitive
  simp only [arity, if_neg other]

/-- How a primitive turns away arguments of the wrong kind. -/
structure TurnedAway (m : Machine) (p : Primitive) (args : List Value)
    (next : Activity × Machine) : Prop where
  /-- There is an answer at once. -/
  answered : ∃ v, next.1 = .reply v
  heap : next.2.heap = m.heap
  image : next.2.image = m.image
  frames : next.2.frames = m.frames
  /-- Unless it is quiet, it reports one failure of its own and answers nil. -/
  reported : ¬ p.behaviour.Quiet → next.1 = .reply .nil ∧ ∃ message : String,
    next.2.log = m.log.push ⟨.primitiveFailed, s!"{p.name}: {message}", m.currentLocation⟩
  /-- A quiet one reports nothing. -/
  passed : p.behaviour.Quiet → next = (.reply (p.behaviour.passed args), m)

/-- Arguments of the wrong kind are turned away by every standard primitive. -/
theorem turnedAway_of_unsuited {p : Ref .primitive}
    (accepts : (m.heap.primitive p).Accepts (receiver :: rest))
    (unsuited : (m.heap.primitive p).behaviour.Unsuited (receiver :: rest)) :
    TurnedAway m (m.heap.primitive p) (receiver :: rest) (m.callPrimitive p (receiver :: rest)) := by
  rw [callPrimitive_of_accepts accepts]
  by_cases quiet : (m.heap.primitive p).behaviour.Quiet
  · rw [perform_passed quiet unsuited]
    exact ⟨⟨_, rfl⟩, rfl, rfl, rfl, fun loud => absurd quiet loud, fun _ => rfl⟩
  · obtain ⟨message, declined⟩ := perform_unsuited (m.heap.primitive p).name quiet unsuited
    rw [declined]
    exact ⟨⟨_, rfl⟩, rfl, rfl, rfl, fun _ => ⟨rfl, message, rfl⟩, fun other => absurd other quiet⟩

/-- A machine with the standard classes, a class derived from the one of the tag, and one
object, an instance of it. -/
def derived (tag : Tag) : Machine :=
  let (h, image) := Image.create .empty none false
  let (h, image, c) := image.defineClass h "Derived" (some (image.classForTag tag)) .«instance»
  .idle (h.allocObject ⟨c, .empty⟩).1 image .standard

/-- The primitive by which an instance of a derived class answers the selector. -/
def Inherits (tag : Tag) (selector : String) (p : Primitive) : Prop :=
  ∃ r, (derived tag).image.handler? (derived tag).heap
      ((derived tag).image.classOf (derived tag).heap (.object ⟨0⟩)) selector =
        .ok (some ⟨(derived tag).image.classForTag tag, .primitive r⟩) ∧
    (derived tag).heap.primitive r = p

/-- A derived integer that is added to one is reported. -/
theorem turnedAway_derivedInteger :
    Inherits .integer "+" ⟨"+", some 2, .arithmetic .add⟩ ∧
      (derived .integer).heap.primitive ⟨9⟩ = ⟨"+", some 2, .arithmetic .add⟩ ∧
      Primitive.Accepts ⟨"+", some 2, .arithmetic .add⟩ [.object ⟨0⟩, .integer 1] ∧
      Unsuited (.arithmetic .add) [.object ⟨0⟩, .integer 1] ∧
      TurnedAway (derived .integer) ⟨"+", some 2, .arithmetic .add⟩ [.object ⟨0⟩, .integer 1]
        ((derived .integer).callPrimitive ⟨9⟩ [.object ⟨0⟩, .integer 1]) := by
  have accepts : Primitive.Accepts ⟨"+", some 2, .arithmetic .add⟩ [.object ⟨0⟩, .integer 1] :=
    fun expected two => (Option.some.inj two).symm
  have unsuited : Unsuited (.arithmetic .add) [.object ⟨0⟩, .integer 1] :=
    ⟨(0, .integer), by decide, by decide⟩
  exact ⟨⟨⟨9⟩, by decide +kernel, rfl⟩, rfl, accepts, unsuited,
    turnedAway_of_unsuited (m := derived .integer) (p := ⟨9⟩) accepts unsuited⟩

/-- A derived pair has no head to set: the value is lost, nothing is reported, and the
answer is not nil. -/
theorem setHead_unreported :
    Inherits .pair "setHead" ⟨"setHead", some 2, .setHead⟩ ∧
      Primitive.IsStandard ⟨"setHead", some 2, .setHead⟩ .pair ∧
      (derived .pair).heap.primitive ⟨27⟩ = ⟨"setHead", some 2, .setHead⟩ ∧
      Unsuited .setHead [.object ⟨0⟩, .integer 1] ∧
      (derived .pair).callPrimitive ⟨27⟩ [.object ⟨0⟩, .integer 1] =
        (.reply (.integer 1), derived .pair) ∧
      ¬ ∃ message, (derived .pair).callPrimitive ⟨27⟩ [.object ⟨0⟩, .integer 1] =
        (derived .pair).decline "setHead" message := by
  have call : (derived .pair).callPrimitive ⟨27⟩ [.object ⟨0⟩, .integer 1] =
      (.reply (.integer 1), derived .pair) := rfl
  refine ⟨⟨⟨27⟩, by decide +kernel, rfl⟩, by decide, rfl,
    ⟨(0, .pair), by decide, by decide⟩, call, ?_⟩
  rintro ⟨message, declined⟩
  rw [call] at declined
  cases congrArg Prod.fst declined

end Machine

end MessageMachine
