/-
# What primitives do to the data

Everything that performing a behaviour can come to, with what is known of it. Two
behaviours change classes: one defines a class and one installs a handler. One enters
the machine again, with fewer arguments than it was given; apart from it, only
behaviours of the host do that. All others leave classes and image alone.

From this follows that the classes stay in order. If every class of the heap was
numbered by the image, this is still so after any run, and the standard image begins
like that.
-/

import MessageMachine.Image.Standard
import MessageMachine.Proofs.Image.Class
import MessageMachine.Proofs.Machine.Code
import MessageMachine.Proofs.Ownership

namespace MessageMachine

namespace Machine

/-! ## Effects -/

/-- What becomes of a behaviour that is performed with some arguments. -/
inductive Effect (m : Machine) (behaviour : Behaviour) (args : List Value) :
    Activity × Machine → Prop
  | answer (v : Value) : Effect m behaviour args (.reply v, m)
  | decline (message : String) :
      Effect m behaviour args (.reply .nil, m.report .primitiveFailed message)
  | overflow (what : Value.IntegerOverflow) :
      Effect m behaviour args (.abandon (.overflow what), m)
  | fail (f : HostFault) : Effect m behaviour args (.fault f, m)
  /-- Something was stored that is no class. -/
  | store {h : Heap} (v : Value) :
      h.classes = m.heap.classes → Effect m behaviour args (.reply v, { m with heap := h })
  | defineClass (name : String) (base : Ref .classObject) (v : Value) :
      Effect m behaviour args (.reply v,
        { m with
          heap := (m.image.defineClass m.heap name (some base) .«instance»).1
          image := (m.image.defineClass m.heap name (some base) .«instance»).2.1 })
  | install (c : Ref .classObject) (selector : String) (callable : Callable) (v : Value) :
      Effect m behaviour args (.reply v, { m with heap := m.heap.install c selector callable })
  | apply {f : Value} {rest : List Value} (callable : Callable) :
      args = f :: rest → rest ≠ [] →
      Effect m behaviour args (.request (.invoke callable rest), m)
  | enter {b : HostBehaviour} (r : Request) :
      behaviour = .host b → Effect m behaviour args (.request r, m)

variable {m : Machine} {behaviour : Behaviour} {args : List Value}

namespace Effect

theorem answerNumber (x : Binary64) : Effect m behaviour args (m.answerNumber x) := by
  unfold Machine.answerNumber
  split
  · exact .answer _
  · exact .overflow _

theorem answerString (text : String) : Effect m behaviour args (m.answerString text) := by
  unfold Machine.answerString
  split
  · exact .store _ rfl
  · exact .fail _

theorem answerFrom (result : Except HostFault Value) :
    Effect m behaviour args (m.answerFrom result) := by
  unfold Machine.answerFrom
  split
  · exact .answer _
  · exact .fail _

theorem withIntegers (name : String) (x y : Value) {go : Int → Int → Activity × Machine}
    (each : ∀ a b, Effect m behaviour args (go a b)) :
    Effect m behaviour args (m.withIntegers name x y go) := by
  unfold Machine.withIntegers
  split
  · exact .decline _
  · split
    · exact .decline _
    · exact each _ _

end Effect

theorem classes_listEndingIn (h : Heap) (last : Value) (values : List Value) :
    (h.listEndingIn last values).1.classes = h.classes := by
  induction values with
  | nil => rfl
  | cons v rest ih => exact ih

theorem classes_backtraceList (m : Machine) : m.backtraceList.1.classes = m.heap.classes := by
  unfold backtraceList
  generalize m.backtrace = entries
  induction entries with
  | nil => rfl
  | cons entry rest ih => exact ih

theorem effect_host (b : HostBehaviour) (name : String) (args : List Value) :
    Effect m (.host b) args (m.host b name args) := by
  unfold host
  cases b with
  | explode => exact .fail _
  | decline => exact .decline _
  | arguments => exact .store _ (classes_listEndingIn _ _ _)
  | frameDepth => exact .answerNumber _
  | operandDepth => exact .answerNumber _
  | backtrace => exact .store _ ((classes_listEndingIn _ _ _).trans (classes_backtraceList m))
  | execute =>
    simp only
    split
    · exact .enter _ rfl
    · exact .fail _
  | resend =>
    simp only
    split
    · exact .enter _ rfl
    · exact .fail _

theorem effect_apply (name : String) (args : List Value) :
    Effect m .apply args (m.apply name args) := by
  unfold apply
  split
  · exact .fail _
  · split
    · exact .decline _
    · split
      · exact .decline _
      · exact .apply _ rfl (List.cons_ne_nil _ _)

/-- Every behaviour has one of these effects. -/
theorem effect_perform (m : Machine) (behaviour : Behaviour) (name : String)
    (args : List Value) : Effect m behaviour args (m.perform behaviour name args) := by
  unfold perform
  cases behaviour with
  | identical | equal | classOf | isNil | always b | negation | head | tail => exact .answer _
  | printed => exact .answerString _
  | cons => exact .store _ rfl
  | respondsTo =>
    simp only [respondsTo]
    split
    · exact .decline _
    · exact .answerFrom _
  | getSlot =>
    simp only [getSlot]
    split
    · exact .answer _
    · exact .decline _
  | setSlot =>
    simp only [setSlot]
    split
    · exact .store _ rfl
    · exact .decline _
  | arithmetic op => exact .withIntegers _ _ _ fun _ _ => .answerNumber _
  | division op =>
    apply Effect.withIntegers
    intro a b
    split
    · exact .decline _
    · exact .answerNumber _
  | comparison op => exact .withIntegers _ _ _ fun _ _ => .answer _
  | charCode =>
    simp only [charCode]
    split
    · exact .answerNumber _
    · exact .answer _
  | symbolName =>
    simp only [symbolName]
    split
    · exact .answerString _
    · exact .answer _
  | stringLength =>
    simp only [stringLength]
    split
    · exact .answerNumber _
    · exact .answer _
  | concat =>
    simp only [concat]
    split
    · exact .answerString _
    · exact .decline _
  | intern =>
    simp only [intern]
    split
    · exact .answer _
    · exact .answer _
  | setHead =>
    simp only [setHead]
    split
    · exact .store _ rfl
    · exact .answer _
  | setTail =>
    simp only [setTail]
    split
    · exact .store _ rfl
    · exact .answer _
  | apply => exact effect_apply _ _
  | newInstance =>
    simp only [newInstance]
    split
    · exact .answer _
    · split
      · exact .store _ rfl
      · exact .decline _
  | subclass =>
    simp only [subclass]
    split
    · exact .defineClass _ _ _
    · exact .decline _
  | installMethod =>
    simp only [installMethod]
    split
    · exact .install _ _ _ _
    · exact .decline _
  | className =>
    simp only [className]
    split
    · exact .answerString _
    · exact .answer _
  | baseClass =>
    simp only [baseClass]
    split
    · exact .answerFrom _
    · exact .answer _
  | host b => exact effect_host b _ _

end Machine

/-! ## Classes in order -/

namespace Image

/-- Every class of the heap was numbered by the image, which knows no others, and there
is one. -/
structure InOrder (h : Heap) (image : Image) : Prop where
  owns : image.Owns h
  known : ∀ (number : Nat) (c : Ref .classObject),
    image.classes[number]? = some c → c.index < h.classes.size
  some_ : 0 < image.classes.size

variable {h h' : Heap} {image : Image}

/-- Nothing but the number and the base of each class matters. -/
theorem InOrder.congr (order : InOrder h image) (size : h'.classes.size = h.classes.size)
    (number : ∀ c, (h'.classAt c).number = (h.classAt c).number)
    (base : ∀ c, (h'.classAt c).base = (h.classAt c).base) : InOrder h' image where
  owns := by
    refine ⟨?_, ?_, ?_⟩
    · intro place c there
      rw [number]
      exact order.owns.numbered place c there
    · intro c inside
      rw [size] at inside
      rw [number]
      exact order.owns.listed c inside
    · intro c older found
      rw [base] at found
      rw [number]
      exact order.owns.older c older found
  known := by
    rw [size]
    exact order.known
  some_ := order.some_

theorem InOrder.of_classes (order : InOrder h image) (classes : h'.classes = h.classes) :
    InOrder h' image := by
  have same (c : Ref .classObject) : h'.classAt c = h.classAt c := by
    unfold Heap.classAt
    rw [classes]
  exact order.congr (congrArg Array.size classes) (fun c => congrArg Class.number (same c))
    fun c => congrArg Class.base (same c)

theorem InOrder.define (order : InOrder h image) (e : Environment) (name : String) (v : Value) :
    InOrder (e.define h name v) image :=
  order.of_classes rfl

theorem InOrder.install (order : InOrder h image) (c : Ref .classObject) (selector : String)
    (callable : Callable) : InOrder (h.install c selector callable) image :=
  order.congr (h.size_classes_install c selector callable) (h.number_install c selector callable)
    (h.base_install c selector callable)

/-- A class that is defined gets the next number, which is above that of its base. -/
theorem inOrder_defineClass (owns : image.Owns h)
    (known : ∀ (number : Nat) (c : Ref .classObject),
      image.classes[number]? = some c → c.index < h.classes.size)
    (name : String) (base : Option (Ref .classObject)) (tag : Tag)
    (founded : base ≠ none → 0 < image.classes.size) :
    InOrder (image.defineClass h name base tag).1 (image.defineClass h name base tag).2.1 := by
  have size := image.size_classes_defineClass h name base tag
  have table := image.classes_defineClass h name base tag
  have classAt := image.classAt_defineClass h name base tag
  generalize image.defineClass h name base tag = next at size table classAt
  refine ⟨⟨?_, ?_, ?_⟩, ?_, ?_⟩
  · intro number c there
    rw [table, Array.getElem?_push] at there
    rw [classAt]
    split at there
    next last =>
      cases there
      rw [if_pos rfl]
      exact last.symm
    next older =>
      rw [if_neg (Nat.ne_of_lt (known number c there))]
      exact owns.numbered number c there
  · intro c inside
    rw [size] at inside
    rw [classAt, table, Array.size_push]
    split
    next last => exact Nat.lt_succ_self _
    next older =>
      have lt : c.index < h.classes.size := by omega
      exact Nat.lt_succ_of_lt (owns.listed c lt)
  · intro c older found
    rw [classAt] at found ⊢
    split at found
    next last =>
      rw [if_pos last]
      cases base with
      | none => cases found
      | some b =>
        cases found
        have first := founded (Option.some_ne_none b)
        by_cases inside : b.index < h.classes.size
        · exact owns.listed b inside
        · show (h.classAt b).number < image.classes.size
          rw [Heap.classAt_of_size_le (Nat.le_of_not_lt inside)]
          exact first
    next earlier =>
      rw [if_neg earlier]
      exact owns.older c older found
  · intro number c there
    rw [table, Array.getElem?_push] at there
    rw [size]
    split at there
    · cases there
      exact Nat.lt_succ_self _
    · exact Nat.lt_succ_of_lt (known number c there)
  · rw [table, Array.size_push]
    exact Nat.succ_pos _

theorem InOrder.defineClass (order : InOrder h image) (name : String)
    (base : Option (Ref .classObject)) (tag : Tag) :
    InOrder (image.defineClass h name base tag).1 (image.defineClass h name base tag).2.1 :=
  inOrder_defineClass order.owns order.known name base tag fun _ => order.some_

/-! ## The standard image -/

theorem furnishing_inOrder : Furnishing InOrder where
  define := fun name tag order => order.defineClass name _ tag
  bind := fun e name v order => order.define e name v
  install := by
    intro h image tag p order
    have made : InOrder (h.allocPrimitive p).1 image := order.of_classes rfl
    exact made.install _ p.name _

theorem inOrder_withObject {h : Heap} (globals : Environment) (none_ : h.classes = #[]) :
    InOrder (withObject h globals).1 (withObject h globals).2 := by
  have size : h.classes.size = 0 := by rw [none_, Array.size_empty]
  have blank_ : (blank globals).Owns h := by
    refine ⟨?_, ?_, ?_⟩
    · intro number c there
      cases there
    · intro c inside
      rw [size] at inside
      exact absurd inside (Nat.not_lt_zero _)
    · intro c base found
      unfold Heap.classAt at found
      rw [none_] at found
      cases found
  have known : ∀ (number : Nat) (c : Ref .classObject),
      (blank globals).classes[number]? = some c → c.index < h.classes.size := by
    intro number c there
    cases there
  have first := inOrder_defineClass blank_ known "Object" none .unknown fun some_ => absurd rfl some_
  exact ⟨⟨first.owns.numbered, first.owns.listed, first.owns.older⟩, first.known, first.some_⟩

theorem inOrder_create : InOrder (create .empty none false).1 (create .empty none false).2 :=
  furnishing_inOrder.create (fun _ globals none_ => inOrder_withObject globals none_) none false

end Image

namespace Machine

/-- Whatever runs, the classes stay in order. -/
theorem stable_inOrder : Stable Image.InOrder where
  perform := by
    intro m behaviour name args order
    have effect := effect_perform m behaviour name args
    generalize m.perform behaviour name args = next at effect ⊢
    cases effect with
    | store v classes => exact order.of_classes classes
    | defineClass name base v => exact order.defineClass _ _ _
    | install c selector callable v => exact order.install _ _ _
    | _ => exact order
  define := fun h image name v order => order.define _ _ _

end Machine

end MessageMachine
