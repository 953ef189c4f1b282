/-
# The test for nil

Two handlers answer `isNil`. The one on `Object` compares the receiver with nil; the one on the
class of nil answers true without a look at the receiver. Which of them is found depends on the
base chain of the receiver's class, and programs may derive classes from the class of nil as from
any other. What they make of such a class is an instance, counts as true and is not nil, and it
answers true.

As long as nobody installs another handler this is all: at every moment of a session `isNil`
tells nil and the instances of classes derived from the class of nil from all other values.
-/

import MessageMachine.Proofs.Machine.Tandem
import MessageMachine.Proofs.Session.Moment

namespace MessageMachine

/-- No class has other handlers for the selector than in a new standard image. -/
def Heap.Untouched (h : Heap) (selector : String) : Prop :=
  ∀ c, h.handlersOn c selector = (Image.create .empty none false).1.handlersOn c selector

theorem Value.tag_mem_known (v : Value) : v.tag ∈ Tag.known := by
  cases v <;> simp [tag, Tag.known]

theorem Value.truthy_of_tag {v : Value} (made : v.tag = .«instance») : v.truthy = true := by
  cases v with
  | object r => rfl
  | _ => cases made

namespace Image

/-- The class of the value is the given one or derived from it. -/
def KindOf (image : Image) (h : Heap) (v : Value) (c : Ref .classObject) : Prop :=
  ∃ chain, image.ancestry h (image.classOf h v) = .ok chain ∧ c ∈ chain

/-! ## The handlers of a new standard image -/

/-- The place of the class `Object`. -/
def objectClass : Ref .classObject := ⟨0⟩

/-- The place of the class of nil. -/
def nilClass : Ref .classObject := ⟨1⟩

/-- The handler that compares the receiver with nil. -/
def comparing : Handler := ⟨objectClass, .primitive ⟨4⟩⟩

/-- The handler that answers true. -/
def affirming : Handler := ⟨nilClass, .primitive ⟨18⟩⟩

variable {h : Heap} {image : Image} {c : Ref .classObject} {chain : List (Ref .classObject)}

theorem size_classes_create : (create .empty none false).1.classes.size = 10 := by
  decide +kernel

theorem handlersOn_create (c : Ref .classObject) :
    (create .empty none false).1.handlersOn c "isNil" =
      if c = objectClass then [comparing.callable]
      else if c = nilClass then [affirming.callable] else [] := by
  obtain ⟨place⟩ := c
  by_cases inside : place < 10
  · have all : ∀ place < 10, (create .empty none false).1.handlersOn ⟨place⟩ "isNil" =
        if ⟨place⟩ = objectClass then [comparing.callable]
        else if ⟨place⟩ = nilClass then [affirming.callable] else [] := by
      decide +kernel
    exact all place inside
  · have outside : (create .empty none false).1.classes.size ≤ place :=
      size_classes_create ▸ Nat.le_of_not_lt inside
    rw [Heap.handlersOn_of_size_le outside, if_neg, if_neg]
    · rintro ⟨⟩
      exact inside (by decide)
    · rintro ⟨⟩
      exact inside (by decide)

theorem handlerOn?_of_untouched (untouched : h.Untouched "isNil") (c : Ref .classObject) :
    h.handlerOn? "isNil" c =
      if c = objectClass then some comparing
      else if c = nilClass then some affirming else none := by
  unfold Heap.handlerOn?
  rw [h.ownHandler?_eq, untouched c, handlersOn_create]
  by_cases object : c = objectClass
  · subst object
    rfl
  · by_cases nil_ : c = nilClass
    · subst nil_
      rfl
    · rw [if_neg object, if_neg object, if_neg nil_, if_neg nil_]
      rfl

/-- Every built-in class but `Object` is derived from `Object`. -/
theorem base?_create (inside : c.index < 10) :
    (create .empty none false).2.base? (create .empty none false).1 c =
      .ok (if c = objectClass then none else some objectClass) := by
  have all : ∀ place < 10,
      (create .empty none false).2.base? (create .empty none false).1 ⟨place⟩ =
        .ok (if ⟨place⟩ = objectClass then none else some objectClass) := by
    decide +kernel
  exact all c.index inside

theorem classForTag_create : ∀ tag ∈ Tag.known,
    ((create .empty none false).2.classForTag tag).index < 10 ∧
      ((create .empty none false).2.classForTag tag = nilClass ↔ tag = .nil) := by
  decide +kernel

/-! ## Base chains -/

theorem classOf_eq_classForTag {v : Value} (plain : v.tag ≠ .«instance») :
    image.classOf h v = image.classForTag v.tag := by
  cases v with
  | object r => exact absurd rfl plain
  | _ => rfl

section

variable (built : BuiltOn (create .empty none false).1 (create .empty none false).2 h image)
include built

theorem base?_of_builtOn (inside : c.index < 10) :
    image.base? h c = .ok (if c = objectClass then none else some objectClass) := by
  rw [built.bases c (size_classes_create ▸ inside), base?_create inside]

/-- Every base chain ends at `Object`. -/
theorem eq_objectClass_of_base? (top : image.base? h c = .ok none)
    (inside : c.index < h.classes.size) : c = objectClass := by
  have old : c.index < 10 := size_classes_create ▸ built.lt_of_base?_none top inside
  rw [base?_of_builtOn built old] at top
  by_contra other
  rw [if_neg other] at top
  cases top

theorem lt_of_base? {base : Ref .classObject} (next : image.base? h c = .ok (some base)) :
    base.index < h.classes.size := by
  obtain ⟨number, found⟩ := Array.mem_iff_getElem?.1 (mem_classes_of_base? next)
  exact built.order.known number base found

theorem base?_ne_objectClass {base : Ref .classObject}
    (next : image.base? h c = .ok (some base)) : c ≠ objectClass := by
  rintro rfl
  rw [base?_of_builtOn built (by decide), if_pos rfl] at next
  cases next

/-- A search for `isNil` comes to the handler that answers true if it passes the class of nil,
and otherwise to the one on `Object`. -/
theorem findSome?_isNil (untouched : h.Untouched "isNil") (lineage : Lineage image h c chain)
    (inside : c.index < h.classes.size) :
    chain.findSome? (h.handlerOn? "isNil") =
      some (if nilClass ∈ chain then affirming else comparing) := by
  induction lineage with
  | root top =>
    cases eq_objectClass_of_base? built top inside
    rw [List.findSome?_cons, handlerOn?_of_untouched untouched, if_pos rfl, if_neg]
    decide
  | @derived c base chain next _ ih =>
    rw [List.findSome?_cons, handlerOn?_of_untouched untouched,
      if_neg (base?_ne_objectClass built next)]
    by_cases here : c = nilClass
    · rw [if_pos here, if_pos (here ▸ List.mem_cons_self)]
    · have later : nilClass ∈ c :: chain ↔ nilClass ∈ chain := by
        rw [List.mem_cons, or_iff_right (Ne.symm here)]
      rw [if_neg here]
      simp only [later]
      exact ih (lt_of_base? built next)

/-- The class of nil is on the chain of no other built-in class. -/
theorem nilClass_mem_iff (lineage : Lineage image h c chain) (inside : c.index < 10) :
    nilClass ∈ chain ↔ c = nilClass := by
  cases lineage with
  | root _ => exact List.mem_singleton.trans eq_comm
  | @derived _ base rest next above =>
    have object : base = objectClass := by
      have other := base?_ne_objectClass built next
      rw [base?_of_builtOn built inside, if_neg other] at next
      exact (Option.some.inj (Except.ok.inj next)).symm
    subst object
    cases above with
    | root _ =>
      constructor
      · intro member
        rcases List.mem_cons.1 member with here | object
        · exact here.symm
        · exact absurd object (by decide)
      · rintro rfl
        exact List.mem_cons_self
    | derived next' _ => exact absurd rfl (base?_ne_objectClass built next')

theorem nilClass_mem_iff_eq_nil {v : Value} (plain : v.tag ≠ .«instance»)
    (lineage : Lineage image h (image.classOf h v) chain) : nilClass ∈ chain ↔ v = .nil := by
  obtain ⟨old, same⟩ := classForTag_create v.tag v.tag_mem_known
  rw [classOf_eq_classForTag plain, built.classForTag] at lineage
  rw [nilClass_mem_iff built lineage old, same]
  cases v with
  | nil => exact ⟨fun _ => rfl, fun _ => rfl⟩
  | _ => exact ⟨nofun, nofun⟩

/-- The chain comes by the class of nil for nil and for the instances derived from it. -/
theorem nilClass_mem_chain_iff {v : Value} (lineage : Lineage image h (image.classOf h v) chain) :
    nilClass ∈ chain ↔ v = .nil ∨ v.tag = .«instance» ∧ image.KindOf h v nilClass := by
  by_cases made : v.tag = .«instance»
  · have ancestry := ancestry_eq_ok_iff.2 lineage
    constructor
    · exact fun member => .inr ⟨made, chain, ancestry, member⟩
    · rintro (rfl | ⟨-, chain', ancestry', member⟩)
      · cases made
      · cases ancestry.symm.trans ancestry'
        exact member
  · rw [nilClass_mem_iff_eq_nil built made lineage]
    exact (or_iff_left fun both => made both.1).symm

theorem classOf_lt (housed : h.Housed) (v : Value) :
    (image.classOf h v).index < h.classes.size := by
  by_cases made : v.tag = .«instance»
  · cases v with
    | object r => exact housed r
    | _ => cases made
  · have old := (classForTag_create v.tag v.tag_mem_known).1
    rw [classOf_eq_classForTag made, built.classForTag]
    exact Nat.lt_of_lt_of_le old (size_classes_create ▸ built.size)

end

/-- The handler that a value has for `isNil`: the one that answers true if its class is the class
of nil or derived from it. -/
theorem handler?_isNil (built : BuiltOn (create .empty none false).1 (create .empty none false).2
    h image) (housed : h.Housed) (untouched : h.Untouched "isNil") (v : Value) :
    ∃ chain, Lineage image h (image.classOf h v) chain ∧
      image.handler? h (image.classOf h v) "isNil" =
        .ok (some (if nilClass ∈ chain then affirming else comparing)) := by
  obtain ⟨chain, lineage⟩ := built.order.owns.exists_lineage (image.classOf h v)
  refine ⟨chain, lineage, ?_⟩
  rw [lineage.handler?_eq, findSome?_isNil built untouched lineage (classOf_lt built housed v)]

end Image

/-! ## Answers -/

namespace Machine

variable {m : Machine} {v result : Value} {selector : String}

/-- A message without arguments is answered at once, and nothing else changes. -/
structure AnswersAtOnce (m : Machine) (v : Value) (selector : String) (result : Value) : Prop where
  /-- A host may send it. -/
  sent : m.enter (.send v selector []) = m.answer result
  /-- Code that sends it has put the receiver and the selector on top of its operands, and gives
  them up. -/
  called : ∀ frame outer offset, m.frames.toList = frame :: outer →
    frame.stackBase + 2 ≤ frame.sp → m.slot? (frame.sp - 2) = some v →
    m.slot? (frame.sp - 1) = some (.symbol selector) →
    m.call 1 offset = answer
      (truncate { m with frames := m.frames.setTop { frame with sp := frame.sp - 2 } }
        (frame.sp - 2)) result

theorem answersAtOnce_of_handler {owner : Ref .classObject} {p : Ref .primitive}
    (found : m.image.handler? m.heap (m.image.classOf m.heap v) selector =
      .ok (some ⟨owner, .primitive p⟩))
    (answers : ∀ k : Machine, k.heap = m.heap → k.callPrimitive p [v] = k.answer result) :
    AnswersAtOnce m v selector result where
  sent := by
    unfold enter
    simp only [found, invokeCallable, answers m rfl]
    rfl
  called := by
    intro frame outer offset frames room receiver top
    have operands : ¬ (1 < 1 ∨ frame.sp < frame.stackBase + (1 + 1)) := by omega
    rw [call_of_frames frames, if_neg operands]
    simp only [top, receiver, Value.asSymbol?, handled, found]
    have window : slots? { m with frames := m.frames.setTop { frame with sp := frame.sp - 2 } }
        (frame.sp - 2) 1 = some [v] := by
      unfold slots?
      have slot : slot? { m with frames := m.frames.setTop { frame with sp := frame.sp - 2 } }
          (frame.sp - 2) = some v := receiver
      simp [List.range'_succ, slot]
    simp only [window]
    exact answers _ rfl

/-- A standard primitive that takes the receiver alone. -/
theorem callPrimitive_of_primitives {p : Ref .primitive} {name : String} (behaviour : Behaviour)
    (primitives : m.heap.primitives = (Image.create .empty none false).1.primitives)
    (standard : (Image.create .empty none false).1.primitive p = ⟨name, some 1, behaviour⟩) :
    m.callPrimitive p [v] = m.perform behaviour name [v] := by
  have primitive : m.heap.primitive p = ⟨name, some 1, behaviour⟩ := by
    unfold Heap.primitive
    rw [primitives]
    exact standard
  unfold callPrimitive
  rw [primitive]
  rfl

/-- What a machine answers to `isNil`, and what this tells about the receiver. -/
structure TestsNil (m : Machine) (v : Value) (b : Bool) : Prop where
  answers : m.AnswersAtOnce v "isNil" (.boolean b)
  /-- True is the answer of nil, and of instances of classes derived from the class of nil. -/
  true_iff : b = true ↔ v.identical .nil = true ∨
    v.tag = .«instance» ∧ m.image.KindOf m.heap v (m.image.classForTag .nil)
  identical_iff : v.identical .nil = true ↔ v = .nil
  /-- These instances, but not nil, count as true. -/
  truthy_iff : b = true → (v.truthy = true ↔ v.tag = .«instance»)

/-- At every moment of a session, as long as no handler for it has been installed, `isNil` tells
nil and the instances of classes derived from the class of nil from all other values. -/
theorem exists_testsNil (moment : Session.Moment m.heap m.image)
    (untouched : m.heap.Untouched "isNil") (v : Value) : ∃ b, TestsNil m v b := by
  have built := Session.lasting_builtOn.moment moment
  have housed := Session.lasting_housed.moment moment
  have primitives := Session.lasting_primitives.moment moment
  obtain ⟨chain, lineage, found⟩ := Image.handler?_isNil built housed untouched v
  have place : m.image.classForTag .nil = Image.nilClass := by
    rw [built.classForTag]
    exact (Image.classForTag_create .nil (Value.tag_mem_known .nil)).2.2 rfl
  have member_iff := Image.nilClass_mem_chain_iff built lineage
  have identical : v.identical .nil = true ↔ v = .nil := by
    cases v <;> simp [Value.identical]
  refine ⟨decide (Image.nilClass ∈ chain), ?answers, ?true_iff, identical, ?truthy_iff⟩
  case answers =>
    by_cases member : Image.nilClass ∈ chain
    · rw [if_pos member] at found
      rw [decide_eq_true member]
      exact answersAtOnce_of_handler found fun k heap =>
        callPrimitive_of_primitives (.always true) (heap ▸ primitives) rfl
    · rw [if_neg member] at found
      have other : v ≠ .nil := fun nil_ => member (member_iff.2 (.inl nil_))
      rw [decide_eq_false member, ← decide_eq_false other]
      exact answersAtOnce_of_handler found fun k heap =>
        callPrimitive_of_primitives .isNil (heap ▸ primitives) rfl
  case true_iff => rw [decide_eq_true_iff, identical, place, member_iff]
  case truthy_iff =>
    intro true_
    rcases member_iff.1 (of_decide_eq_true true_) with rfl | ⟨made, -⟩
    · decide
    · exact ⟨fun _ => made, fun _ => Value.truthy_of_tag made⟩

end Machine

/-! ## An instance that passes for nil -/

theorem Heap.untouched_of_all {h : Heap} {selector : String}
    (size : (Image.create .empty none false).1.classes.size ≤ h.classes.size)
    (all : ∀ place < h.classes.size, h.handlersOn ⟨place⟩ selector =
      (Image.create .empty none false).1.handlersOn ⟨place⟩ selector) : h.Untouched selector := by
  intro c
  by_cases inside : c.index < h.classes.size
  · exact all c.index inside
  · have outside := Nat.le_of_not_lt inside
    rw [handlersOn_of_size_le outside, handlersOn_of_size_le (Nat.le_trans size outside)]

namespace Session

/-- A session in which a class was derived from the class of nil, and an instance made of it. -/
def nilDerived : Session :=
  ((create .standard false).evaluate 1000 "(defclass U UndefinedObject) (new U)" "a").session

theorem untouched_nilDerived : nilDerived.heap.Untouched "isNil" :=
  Heap.untouched_of_all (by decide +kernel) (by decide +kernel)

/-- A machine of that session on which nothing runs. -/
def nilDerivedIdle : Machine :=
  .idle nilDerived.heap nilDerived.image nilDerived.settings

theorem testsNil_nilDerived : Moment nilDerivedIdle.heap nilDerivedIdle.image ∧
    nilDerivedIdle.heap.Untouched "isNil" ∧ ∃ b, nilDerivedIdle.TestsNil (.object ⟨0⟩) b :=
  have moment : Moment nilDerivedIdle.heap nilDerivedIdle.image :=
    .between (.evaluate 1000 _ _ (.create .standard false))
  ⟨moment, untouched_nilDerived,
    Machine.exists_testsNil (m := nilDerivedIdle) moment untouched_nilDerived (.object ⟨0⟩)⟩

/-- The instance answers true, but it is not nil and counts as true. -/
theorem isNil_nilDerived : nilDerived.Reachable ∧ nilDerived.heap.Untouched "isNil" ∧
    nilDerived.heap.objects.size = 1 ∧
    (nilDerivedIdle.enter (.send (.object ⟨0⟩) "isNil" [])).1 = .reply (.boolean true) ∧
    (nilDerivedIdle.enter (.send (.object ⟨0⟩) "==" [.nil])).1 = .reply (.boolean false) ∧
    (.object ⟨0⟩ : Value) ≠ .nil ∧ (.object ⟨0⟩ : Value).truthy = true :=
  ⟨.evaluate 1000 _ _ (.create .standard false), untouched_nilDerived, by decide +kernel,
    by decide +kernel, by decide +kernel, nofun, rfl⟩

end Session

end MessageMachine
