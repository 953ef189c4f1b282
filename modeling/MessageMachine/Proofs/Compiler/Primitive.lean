/-
# Primitives do the same on every machine

A standard primitive looks at the heap and the image and at nothing else, so it goes on
in the same way, changes the same data and reports the same on any two machines that
have these in common. That is what permits a direct evaluation to perform primitives on
a machine of its own. The behaviours that a host adds are the exception, since they may
look at the frames.
-/

import MessageMachine.Proofs.Compiler.Evaluation
import MessageMachine.Proofs.Machine.Effect
import MessageMachine.Proofs.Machine.Relocation

namespace MessageMachine

/-- No primitive of the heap has a behaviour that a host has added. -/
def Heap.Standard (h : Heap) : Prop :=
  ∀ p behaviour, (h.primitive p).behaviour ≠ .host behaviour

theorem Heap.Standard.congr {h h' : Heap} (standard : h.Standard)
    (same : h'.primitives = h.primitives) : h'.Standard := by
  intro p behaviour
  unfold Heap.primitive
  rw [same]
  exact standard p behaviour

/-- What a machine is about to do where an evaluation stops. -/
def Stop.activity : Stop → Machine.Activity
  | .abandoned why => .abandon why
  | .failed f => .fault f

namespace Machine

/-! ## Worlds of machines -/

/-- A report about the program is added to the world. -/
theorem world_note (m : Machine) (d : Diagnostic) (report : d.kind ≠ .trace) :
    (m.note d).world = { m.world with reports := m.world.reports ++ [(d.kind, d.message)] } := by
  simp [world, note, report]

theorem world_report (m : Machine) {kind : Diagnostic.Kind} (message : String)
    (location : Option Location) (report : kind ≠ .trace) :
    (m.report kind message location).world =
      { m.world with reports := m.world.reports ++ [(kind, message)] } :=
  world_note m _ report

/-- To report a problem and go on with nil is to complain about it. -/
theorem complain_report (m : Machine) {kind : Diagnostic.Kind} (message : String)
    (location : Option Location) (report : kind ≠ .trace) :
    Evaluation.complain kind message m.world =
      some (.ok .nil, (m.report kind message location).world) := by
  rw [Evaluation.complain_eq, world_report m message location report]

/-- The report about a wrong number of arguments is the complaint about it. -/
theorem complain_wrongArity (m : Machine) (name : String) (expected : Int) (actual : Nat) :
    Evaluation.wrongArity name expected actual m.world =
      some (.ok .nil, (m.wrongArity name expected actual).world) :=
  complain_report m _ none Diagnostic.Kind.noConfusion

theorem complain_notUnderstood (m : Machine) (receiver : Value) (selector : String) :
    Evaluation.complain .messageNotUnderstood
      s!"{m.heap.print receiver} ({(m.heap.classAt
        (m.image.classOf m.heap receiver)).name}) does not understand {selector}" m.world =
      some (.ok .nil, (m.notUnderstood receiver selector).2.world) :=
  complain_report m _ none Diagnostic.Kind.noConfusion

/-! ## Agreement -/

/-- The ways in which a standard primitive goes on. -/
inductive Goes : Activity → Prop
  | reply (v : Value) : Goes (.reply v)
  | stop (why : Stop) : Goes why.activity
  | invoke (callable : Callable) {args : List Value} :
      args ≠ [] → Goes (.request (.invoke callable args))

/-- Two machines with the same data go on in the same way. -/
structure Agree (m n : Machine) (next other : Activity × Machine) : Prop where
  goes : Goes next.1
  activity : next.1 = other.1
  heap : next.2.heap = other.2.heap
  image : next.2.image = other.2.image
  reports : ∃ added, next.2.world.reports = m.world.reports ++ added ∧
    other.2.world.reports = n.world.reports ++ added

/-- A standard primitive enters the machine again only to call what it is given. -/
theorem Effect.goes {m : Machine} {behaviour : Behaviour} {args : List Value}
    {next : Activity × Machine} (standard : ∀ added, behaviour ≠ .host added)
    (effect : Effect m behaviour args next) : Goes next.1 := by
  cases effect with
  | answer v => exact .reply v
  | decline message => exact .reply .nil
  | overflow what => exact .stop (.abandoned (.overflow what))
  | fail f => exact .stop (.failed f)
  | store v => exact .reply v
  | defineClass name base v => exact .reply v
  | install c selector callable v => exact .reply v
  | apply callable _ some_ => exact .invoke callable some_
  | enter r added => exact absurd added (standard _)

/-- Every standard behaviour does the same. -/
theorem agree_perform {m n : Machine} (heap : m.heap = n.heap) (image : m.image = n.image)
    (behaviour : Behaviour) (name : String) (args : List Value)
    (standard : ∀ added, behaviour ≠ .host added) :
    Agree m n (m.perform behaviour name args) (n.perform behaviour name args) := by
  have goes := (effect_perform m behaviour name args).goes standard
  have alike : Alike id m n _ _ :=
    alike_perform (heap.symm.trans m.heap.relocate_id.symm) image.symm standard name args
  generalize m.perform behaviour name args = next at goes alike ⊢
  generalize n.perform behaviour name args = other at alike ⊢
  cases alike with
  | same a => exact ⟨goes, rfl, heap, image, [], by simp, by simp⟩
  | data v h image =>
    exact ⟨goes, rfl, h.relocate_id.symm, rfl, [], by simp [world], by simp [world]⟩
  | decline message =>
    refine ⟨goes, rfl, heap, image, [(.primitiveFailed, message)], ?_, ?_⟩
    · rw [world_report m message none Diagnostic.Kind.noConfusion]
    · rw [world_report n message none Diagnostic.Kind.noConfusion]

/-! ## Calls of primitives -/

/-- A machine goes on as an evaluation in its world does. A function that a primitive
asks for is called next. -/
inductive Performed (apply : Callable → List Value → Evaluation Value) (m : Machine) :
    Activity → Option (Except Stop Value × World) → Prop
  | reply (v : Value) : Performed apply m (.reply v) (some (.ok v, m.world))
  | stop (why : Stop) : Performed apply m why.activity (some (.error why, m.world))
  | invoke (callable : Callable) {args : List Value} : args ≠ [] →
      Performed apply m (.request (.invoke callable args))
        (Evaluation.contain (apply callable args) m.world)

variable {apply : Callable → List Value → Evaluation Value}

/-- Performing a primitive on a machine is what its evaluation does. -/
theorem performed_perform (m : Machine) (p : Primitive) (args : List Value)
    (standard : ∀ added, p.behaviour ≠ .host added) :
    Performed apply (m.perform p.behaviour p.name args).2 (m.perform p.behaviour p.name args).1
      (Evaluation.perform apply p args m.world) := by
  have agree := agree_perform (m := m) (n := idle m.heap m.image .standard) rfl rfl p.behaviour
    p.name args standard
  show Performed _ _ _ (Evaluation.proceed apply
    ((idle m.heap m.image .standard).perform p.behaviour p.name args).1
    ((idle m.heap m.image .standard).perform p.behaviour p.name args).2 m.world)
  generalize (idle m.heap m.image .standard).perform p.behaviour p.name args = other at agree ⊢
  generalize m.perform p.behaviour p.name args = next at agree ⊢
  obtain ⟨a, k⟩ := next
  obtain ⟨b, n⟩ := other
  obtain ⟨goes, same, heap, image, added, reports, alone⟩ := agree
  have world : ({ n.world with reports := m.world.reports ++ n.world.reports } : World) =
      k.world := by
    have alone' : n.world.reports = added := alone
    rw [alone', ← show k.world.reports = m.world.reports ++ added from reports]
    have heap' : n.world.heap = k.world.heap := heap.symm
    have image' : n.world.image = k.world.image := image.symm
    simp only [heap', image']
  simp only at same
  subst same
  simp only [Evaluation.proceed, world]
  cases goes with
  | reply v => exact .reply v
  | invoke callable some_ => exact .invoke callable some_
  | stop why =>
    cases why with
    | abandoned why => exact .stop (.abandoned why)
    | failed f => exact .stop (.failed f)

/-- A primitive that is called on a machine goes on as its evaluation does. -/
theorem performed_callPrimitive (m : Machine) (standard : m.heap.Standard) (p : Ref .primitive)
    (args : List Value) :
    Performed apply (m.callPrimitive p args).2 (m.callPrimitive p args).1
      (Evaluation.callPrimitive apply (m.heap.primitive p) args m.world) := by
  unfold callPrimitive Evaluation.callPrimitive
  simp only
  have performed : Performed apply _ _ _ :=
    performed_perform m (m.heap.primitive p) args (standard p)
  cases (m.heap.primitive p).arity with
  | none => exact performed
  | some expected =>
    simp only
    by_cases fits : expected = args.length
    · rw [if_pos fits, if_pos fits]
      exact performed
    · rw [if_neg fits, if_neg fits]
      rw [complain_wrongArity]
      exact .reply .nil

end Machine

end MessageMachine
