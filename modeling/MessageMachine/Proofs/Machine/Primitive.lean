/-
# What primitives leave alone

A primitive changes the heap, the image and the log, and it says how to go on. It
has no hold on the frames, the segment or the entries: what it gives back is the
machine it was given, with its control state as it was. It never lets the
interpreter run on by itself, never gives up for any reason but an integer that
does not fit, and it fails like the host only where a class cannot be looked up, a
string would be too long or the behaviour is the host's own.

`Answers` collects this, `answers_perform` proves it of all behaviours, and the
callers of primitives are specified by it from here on. Nothing that a primitive
reports says that an execution was abandoned.
-/

import MessageMachine.Proofs.Machine.Window

namespace MessageMachine

/-- A report after which the execution goes on. -/
def Diagnostic.Recoverable (d : Diagnostic) : Prop :=
  d.kind ≠ .malformedBytecode ∧ d.kind ≠ .resourceExhausted

instance (d : Diagnostic) : Decidable d.Recoverable :=
  inferInstanceAs (Decidable (_ ∧ _))

namespace Machine

/-! ## Reports -/

/-- Only recoverable problems have been reported. -/
def Reports (m m' : Machine) : Prop :=
  ∃ added : List Diagnostic, m'.log.toList = m.log.toList ++ added ∧ ∀ d ∈ added, d.Recoverable

namespace Reports

theorem of_eq {m m' : Machine} (log : m'.log = m.log) : Reports m m' :=
  ⟨[], by rw [log, List.append_nil], by simp⟩

theorem trans {m m' m'' : Machine} (first : Reports m m') (second : Reports m' m'') :
    Reports m m'' := by
  obtain ⟨earlier, log, recoverable⟩ := first
  obtain ⟨later, log', recoverable'⟩ := second
  refine ⟨earlier ++ later, by rw [log', log, List.append_assoc], ?_⟩
  intro d inside
  rcases List.mem_append.1 inside with before | after
  · exact recoverable d before
  · exact recoverable' d after

theorem note (m : Machine) {d : Diagnostic} (recoverable : d.Recoverable) :
    Reports m (m.note d) :=
  ⟨[d], by simp [Machine.note], by simpa using recoverable⟩

end Reports

/-! ## Control state -/

/-- Nothing but the shared data and the log differ, and no method was made. -/
structure Undisturbed (m m' : Machine) : Prop where
  frames : m'.frames = m.frames
  segment : m'.segment = m.segment
  entries : m'.entries = m.entries
  settings : m'.settings = m.settings
  methods : m'.heap.methods = m.heap.methods
  primitives : m'.heap.primitives = m.heap.primitives
  reports : Reports m m'

namespace Undisturbed

@[refl] theorem refl (m : Machine) : Undisturbed m m :=
  ⟨rfl, rfl, rfl, rfl, rfl, rfl, .of_eq rfl⟩

theorem slot? {m m' : Machine} (u : Undisturbed m m') (slot : Nat) :
    m'.slot? slot = m.slot? slot := by
  unfold Machine.slot?
  rw [u.segment]

end Undisturbed

theorem undisturbed_note (m : Machine) {d : Diagnostic} (recoverable : d.Recoverable) :
    Undisturbed m (m.note d) :=
  ⟨rfl, rfl, rfl, rfl, rfl, rfl, .note m recoverable⟩

theorem undisturbed_report (m : Machine) {kind : Diagnostic.Kind} (message : String)
    (location : Option Location)
    (recoverable : kind ≠ .malformedBytecode ∧ kind ≠ .resourceExhausted) :
    Undisturbed m (m.report kind message location) :=
  undisturbed_note m recoverable

/-- Tracing does nothing but report. -/
theorem undisturbed_traceInstruction (m : Machine) (f : Frame) (i : Instruction) :
    Undisturbed m (m.traceInstruction f i) := by
  unfold traceInstruction
  split
  · exact undisturbed_note _ ⟨Diagnostic.Kind.noConfusion, Diagnostic.Kind.noConfusion⟩
  · exact .refl _

/-- A heap that differs in no method and no primitive may take the place of another. -/
theorem undisturbed_heap (m : Machine) (h : Heap) (image : Image)
    (methods : h.methods = m.heap.methods) (primitives : h.primitives = m.heap.primitives) :
    Undisturbed m { m with heap := h, image := image } :=
  ⟨rfl, rfl, rfl, rfl, methods, primitives, .of_eq rfl⟩

/-! ## Answers -/

/-- How a primitive that was performed on `m` goes on. -/
structure Answers (m : Machine) (next : Activity × Machine) : Prop where
  undisturbed : Undisturbed m next.2
  not_fetch : next.1 ≠ .fetch
  overflow : ∀ why, next.1 = .abandon why → ∃ what, why = .overflow what

theorem answers_reply {m m' : Machine} (u : Undisturbed m m') (v : Value) :
    Answers m (.reply v, m') where
  undisturbed := u
  not_fetch := by simp
  overflow := by simp

theorem answers_fault (m : Machine) (f : HostFault) : Answers m (.fault f, m) where
  undisturbed := .refl m
  not_fetch := by simp
  overflow := by simp

theorem answers_request (m : Machine) (r : Request) : Answers m (.request r, m) where
  undisturbed := .refl m
  not_fetch := by simp
  overflow := by simp

theorem answers_answer (m : Machine) (v : Value) : Answers m (m.answer v) :=
  answers_reply (.refl m) v

theorem answers_decline (m : Machine) (name message : String) :
    Answers m (m.decline name message) :=
  answers_reply (undisturbed_report m _ _ (by decide)) .nil

theorem answers_answerNumber (m : Machine) (x : Binary64) : Answers m (m.answerNumber x) := by
  unfold answerNumber
  split
  · exact answers_answer m _
  · exact ⟨.refl m, by simp, by simp⟩

theorem answers_answerBool (m : Machine) (b : Bool) : Answers m (m.answerBool b) :=
  answers_answer m _

theorem answers_answerString (m : Machine) (text : String) : Answers m (m.answerString text) := by
  unfold answerString
  split
  · exact answers_reply (undisturbed_heap m (m.heap.allocString text).1 m.image rfl rfl) _
  · exact answers_fault m _

theorem answers_answerFrom (m : Machine) (result : Except HostFault Value) :
    Answers m (m.answerFrom result) := by
  unfold answerFrom
  split
  · exact answers_answer m _
  · exact answers_fault m _

theorem answers_withIntegers (m : Machine) (name : String) (x y : Value)
    (go : Int → Int → Activity × Machine) (each : ∀ a b, Answers m (go a b)) :
    Answers m (m.withIntegers name x y go) := by
  unfold withIntegers
  split
  · exact answers_decline m _ _
  · split
    · exact answers_decline m _ _
    · exact each _ _

/-! ## Heaps that grow -/

/-- The heap holds the methods and primitives of another. -/
structure SameCode (h h' : Heap) : Prop where
  methods : h'.methods = h.methods
  primitives : h'.primitives = h.primitives

theorem SameCode.trans {h h' h'' : Heap} (first : SameCode h h') (second : SameCode h' h'') :
    SameCode h h'' :=
  ⟨second.methods.trans first.methods, second.primitives.trans first.primitives⟩

theorem sameCode_listEndingIn (h : Heap) (last : Value) (values : List Value) :
    SameCode h (h.listEndingIn last values).1 := by
  induction values with
  | nil => exact ⟨rfl, rfl⟩
  | cons v rest ih => exact ih.trans ⟨rfl, rfl⟩

theorem sameCode_define (h : Heap) (e : Environment) (name : String) (v : Value) :
    SameCode h (e.define h name v) :=
  ⟨rfl, rfl⟩

theorem sameCode_defineClass (image : Image) (h : Heap) (name : String)
    (base : Option (Ref .classObject)) (tag : Tag) :
    SameCode h (image.defineClass h name base tag).1 :=
  ⟨rfl, rfl⟩

theorem sameCode_backtraceList (m : Machine) : SameCode m.heap m.backtraceList.1 := by
  unfold backtraceList
  generalize m.backtrace = entries
  induction entries with
  | nil => exact ⟨rfl, rfl⟩
  | cons entry rest ih => exact ih.trans ⟨rfl, rfl⟩

/-- A value and a heap with the same code are an answer. -/
theorem answers_heap (m : Machine) (v : Value) {h : Heap} (image : Image)
    (same : SameCode m.heap h) : Answers m (.reply v, { m with heap := h, image := image }) :=
  answers_reply (undisturbed_heap m h image same.methods same.primitives) v

/-! ## Behaviours -/

theorem answers_apply (m : Machine) (name : String) (args : List Value) :
    Answers m (m.apply name args) := by
  unfold apply
  split
  · exact answers_fault m _
  · split
    · exact answers_decline m _ _
    · split
      · exact answers_decline m _ _
      · exact answers_request m _

theorem answers_newInstance (m : Machine) (name : String) (receiver : Value) :
    Answers m (m.newInstance name receiver) := by
  unfold newInstance
  split
  · exact answers_answer m _
  · simp only
    split
    · exact answers_heap m _ m.image ⟨rfl, rfl⟩
    · exact answers_decline m _ _

theorem answers_host (m : Machine) (behaviour : HostBehaviour) (name : String)
    (args : List Value) : Answers m (m.host behaviour name args) := by
  unfold host
  cases behaviour with
  | explode => exact answers_fault m _
  | decline => exact answers_decline m _ _
  | arguments => exact answers_heap m _ m.image (sameCode_listEndingIn _ _ _)
  | frameDepth => exact answers_answerNumber m _
  | operandDepth => exact answers_answerNumber m _
  | backtrace =>
    exact answers_heap m _ m.image ((sameCode_backtraceList m).trans (sameCode_listEndingIn _ _ _))
  | execute =>
    simp only
    split
    · exact answers_request m _
    · exact answers_fault m _
  | resend =>
    simp only
    split
    · exact answers_request m _
    · exact answers_fault m _

/-- Every behaviour answers. -/
theorem answers_perform (m : Machine) (behaviour : Behaviour) (name : String)
    (args : List Value) : Answers m (m.perform behaviour name args) := by
  unfold perform
  cases behaviour with
  | identical => exact answers_answerBool m _
  | equal => exact answers_answerBool m _
  | printed => exact answers_answerString m _
  | classOf => exact answers_answer m _
  | isNil => exact answers_answerBool m _
  | cons => exact answers_heap m _ m.image ⟨rfl, rfl⟩
  | respondsTo =>
    simp only [respondsTo]
    split
    · exact answers_decline m _ _
    · exact answers_answerFrom m _
  | getSlot =>
    simp only [getSlot]
    split
    · exact answers_answer m _
    · exact answers_decline m _ _
  | setSlot =>
    simp only [setSlot]
    split
    · exact answers_heap m _ m.image ⟨rfl, rfl⟩
    · exact answers_decline m _ _
  | arithmetic op => exact answers_withIntegers m _ _ _ _ fun _ _ => answers_answerNumber m _
  | division op =>
    refine answers_withIntegers m _ _ _ _ fun _ _ => ?_
    split
    · exact answers_decline m _ _
    · exact answers_answerNumber m _
  | comparison op => exact answers_withIntegers m _ _ _ _ fun _ _ => answers_answerBool m _
  | always b => exact answers_answerBool m _
  | negation => exact answers_answerBool m _
  | charCode =>
    simp only [charCode]
    split
    · exact answers_answerNumber m _
    · exact answers_answer m _
  | symbolName =>
    simp only [symbolName]
    split
    · exact answers_answerString m _
    · exact answers_answer m _
  | stringLength =>
    simp only [stringLength]
    split
    · exact answers_answerNumber m _
    · exact answers_answer m _
  | concat =>
    simp only [concat]
    split
    · exact answers_answerString m _
    · exact answers_decline m _ _
  | intern =>
    simp only [intern]
    split
    · exact answers_answer m _
    · exact answers_answer m _
  | head => exact answers_answer m _
  | tail => exact answers_answer m _
  | setHead =>
    simp only [setHead]
    split
    · exact answers_heap m _ m.image ⟨rfl, rfl⟩
    · exact answers_answer m _
  | setTail =>
    simp only [setTail]
    split
    · exact answers_heap m _ m.image ⟨rfl, rfl⟩
    · exact answers_answer m _
  | apply => exact answers_apply m _ _
  | newInstance => exact answers_newInstance m _ _
  | subclass =>
    simp only [subclass]
    split
    · exact answers_heap m _ _ (sameCode_defineClass _ _ _ _ _)
    · exact answers_decline m _ _
  | installMethod =>
    simp only [installMethod]
    split
    · exact answers_heap m _ m.image ⟨rfl, rfl⟩
    · exact answers_decline m _ _
  | className =>
    simp only [className]
    split
    · exact answers_answerString m _
    · exact answers_answer m _
  | baseClass =>
    simp only [baseClass]
    split
    · exact answers_answerFrom m _
    · exact answers_answer m _
  | host behaviour => exact answers_host m _ _ _

/-! ## Calls of primitives -/

theorem answers_wrongArity (m : Machine) (name : String) (expected : Int) (actual : Nat) :
    Answers m (.reply .nil, m.wrongArity name expected actual) :=
  answers_reply (undisturbed_report m _ _ (by decide)) .nil

theorem answers_notUnderstood (m : Machine) (receiver : Value) (selector : String) :
    Answers m (m.notUnderstood receiver selector) :=
  answers_reply (undisturbed_report m _ _ (by decide)) .nil

/-- A primitive answers whatever it is called with. -/
theorem answers_callPrimitive (m : Machine) (p : Ref .primitive) (args : List Value) :
    Answers m (m.callPrimitive p args) := by
  unfold callPrimitive
  simp only
  split
  · split
    · exact answers_perform m _ _ _
    · exact answers_wrongArity m _ _ _
  · exact answers_perform m _ _ _

end Machine

end MessageMachine
