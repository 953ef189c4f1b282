/-
# Machines that are watched

A machine may be set to report every instruction. Nothing that it does depends on this:
no step looks at the reports made so far, and the setting is read only to decide whether
to make one more of a kind that nothing else makes. `unwatched` is the machine that was never
set to trace. It takes the same steps, one for one, so it ends in the same way after as many
of them, in the same state apart from the setting, and its reports are those of the other
machine less the trace lines.
-/

import MessageMachine.Machine.Step
import MessageMachine.Proofs.Machine.Relocation

namespace MessageMachine

/-- A report that is made whether or not the machine traces. -/
def Diagnostic.Lasting (d : Diagnostic) : Bool :=
  d.kind ≠ .trace

def Settings.unwatched (s : Settings) : Settings :=
  { s with trace := false }

namespace Machine

/-- The machine with tracing off and without the trace lines made so far. -/
def unwatched (m : Machine) : Machine :=
  { m with
    settings := m.settings.unwatched
    log := m.log.filter Diagnostic.Lasting }

/-- What a machine goes on with, unwatched. -/
def unwatchedNext (next : Activity × Machine) : Activity × Machine :=
  (next.1, next.2.unwatched)

@[simp] theorem unwatchedNext_mk (activity : Activity) (m : Machine) :
    unwatchedNext (activity, m) = (activity, m.unwatched) :=
  rfl

variable (m : Machine)

@[simp] theorem heap_unwatched : m.unwatched.heap = m.heap := rfl
@[simp] theorem image_unwatched : m.unwatched.image = m.image := rfl
@[simp] theorem settings_unwatched : m.unwatched.settings = m.settings.unwatched := rfl
@[simp] theorem frames_unwatched : m.unwatched.frames = m.frames := rfl
@[simp] theorem segment_unwatched : m.unwatched.segment = m.segment := rfl
@[simp] theorem entries_unwatched : m.unwatched.entries = m.entries := rfl
@[simp] theorem log_unwatched : m.unwatched.log = m.log.filter Diagnostic.Lasting := rfl
@[simp] theorem slot?_unwatched (slot : Nat) : m.unwatched.slot? slot = m.slot? slot := rfl
@[simp] theorem stackTop_unwatched : m.unwatched.stackTop = m.stackTop := rfl

@[simp] theorem currentLocation_unwatched :
    m.unwatched.currentLocation = m.currentLocation :=
  rfl

/-- A change to anything but the setting and the reports is a change to the unwatched machine. -/
@[simp] theorem mk_unwatched (heap : Heap) (image : Image) (settings : Settings)
    (frames : FrameStack) (segment : Array (Option Value)) (entries : List Nat)
    (log : Array Diagnostic) :
    (⟨heap, image, settings.unwatched, frames, segment, entries,
        log.filter Diagnostic.Lasting⟩ : Machine) =
      unwatched ⟨heap, image, settings, frames, segment, entries, log⟩ :=
  rfl

/-! ## Reports -/

variable {m} in
theorem note_unwatched {d : Diagnostic} (lasting : d.Lasting = true) :
    m.unwatched.note d = (m.note d).unwatched := by
  simp only [note, unwatched, Array.filter_push, lasting, if_true]

variable {m} in
/-- A trace line is gone with all others. -/
theorem unwatched_note {d : Diagnostic} (line : d.Lasting = false) :
    (m.note d).unwatched = m.unwatched := by
  simp only [note, unwatched, Array.filter_push, line, Bool.false_eq_true, if_false]

@[simp] theorem report_unwatched {kind : Diagnostic.Kind} (message : String)
    (location : Option Location) (lasting : kind ≠ .trace) :
    m.unwatched.report kind message location = (m.report kind message location).unwatched :=
  note_unwatched (decide_eq_true lasting)

@[simp] theorem traceInstruction_unwatched (f : Frame) (i : Instruction) :
    m.unwatched.traceInstruction f i = (m.traceInstruction f i).unwatched := by
  have off : m.unwatched.settings.trace = false := rfl
  rw [traceInstruction, traceInstruction, off, if_neg Bool.false_ne_true]
  split
  · exact (unwatched_note rfl).symm
  · rfl

/-! ## Primitives -/

@[simp] theorem decline_unwatched (name message : String) :
    m.unwatched.decline name message = unwatchedNext (m.decline name message) := by
  simp [decline]

@[simp] theorem answerNumber_unwatched (x : Binary64) :
    m.unwatched.answerNumber x = unwatchedNext (m.answerNumber x) := by
  unfold answerNumber
  cases Value.ofNumber x <;> rfl

theorem host_unwatched (added : HostBehaviour) (name : String) (args : List Value) :
    m.unwatched.host added name args = unwatchedNext (m.host added name args) := by
  unfold host
  cases added with
  | explode => rfl
  | decline => exact m.decline_unwatched _ _
  | arguments => rfl
  | frameDepth => exact m.answerNumber_unwatched _
  | operandDepth => exact m.answerNumber_unwatched _
  | backtrace => rfl
  | execute => dsimp only; split <;> rfl
  | resend => dsimp only; split <;> rfl

/-- A standard behaviour sees data only, and those are the same. -/
@[simp] theorem perform_unwatched (behaviour : Behaviour) (name : String) (args : List Value) :
    m.unwatched.perform behaviour name args = unwatchedNext (m.perform behaviour name args) := by
  by_cases added : ∃ added, behaviour = .host added
  · obtain ⟨added, rfl⟩ := added
    exact m.host_unwatched added name args
  · have standard (added_ : HostBehaviour) : behaviour ≠ .host added_ :=
      fun same => added ⟨added_, same⟩
    have heap : m.unwatched.heap = m.heap.relocate id := (Heap.relocate_id m.heap).symm
    have alike := alike_perform heap m.image_unwatched standard name args
    generalize m.unwatched.perform behaviour name args = other at alike ⊢
    generalize m.perform behaviour name args = next at alike ⊢
    cases alike with
    | same a => rfl
    | data v h image =>
      rw [Heap.relocate_id]
      rfl
    | decline message => simp

/-! ## Operands and calls -/

@[simp] theorem truncate_unwatched (size : Nat) :
    m.unwatched.truncate size = (m.truncate size).unwatched :=
  rfl

@[simp] theorem push_unwatched (v : Value) : m.unwatched.push v = unwatchedNext (m.push v) := by
  unfold push
  cases frames : m.frames.toList with
  | nil => simp [frames]
  | cons frame rest =>
    simp only [frames_unwatched, frames]
    split <;> rfl

variable {m} in
/-- Popping is the same if what follows is. -/
theorem pop_unwatched {go go_ : Value → Machine → Activity × Machine}
    (following : ∀ v (m' : Machine), go_ v m'.unwatched = unwatchedNext (go v m')) :
    m.unwatched.pop go_ = unwatchedNext (m.pop go) := by
  unfold pop
  cases frames : m.frames.toList with
  | nil => simp [frames]
  | cons frame rest =>
    simp only [frames_unwatched, slot?_unwatched, frames]
    split
    · rfl
    · split
      · rfl
      · exact following _ { m with frames := m.frames.setTop { frame with sp := frame.sp - 1 } }

@[simp] theorem wrongArity_unwatched (name : String) (expected : Int) (actual : Nat) :
    m.unwatched.wrongArity name expected actual =
      (m.wrongArity name expected actual).unwatched := by
  simp [wrongArity]

@[simp] theorem notUnderstood_unwatched (receiver : Value) (selector : String) :
    m.unwatched.notUnderstood receiver selector =
      unwatchedNext (m.notUnderstood receiver selector) := by
  simp [notUnderstood]

@[simp] theorem callPrimitive_unwatched (p : Ref .primitive) (args : List Value) :
    m.unwatched.callPrimitive p args = unwatchedNext (m.callPrimitive p args) := by
  unfold callPrimitive
  simp only [heap_unwatched, perform_unwatched, wrongArity_unwatched]
  split
  · split <;> rfl
  · rfl

@[simp] theorem frameFor_unwatched (method : Ref .method) (argBase argCount : Nat) :
    m.unwatched.frameFor method argBase argCount = m.frameFor method argBase argCount :=
  rfl

@[simp] theorem slots?_unwatched (start count : Nat) :
    m.unwatched.slots? start count = m.slots? start count :=
  rfl

/-- A call pops the selector, looks the handler up and goes on in one of many ways, in each of
which the two machines agree. -/
theorem call_unwatched (count offset : Nat) :
    m.unwatched.call count offset = unwatchedNext (m.call count offset) := by
  unfold call
  cases frames : m.frames.toList with
  | nil => simp [frames]
  | cons frame rest =>
    simp only [frames_unwatched, heap_unwatched, image_unwatched, settings_unwatched,
      segment_unwatched, entries_unwatched, log_unwatched, slot?_unwatched, mk_unwatched,
      truncate_unwatched, frames, notUnderstood_unwatched, callPrimitive_unwatched,
      frameFor_unwatched, slots?_unwatched, wrongArity_unwatched, push_unwatched]
    split
    · rfl
    · split
      · split
        · simp
        · split
          · rfl
          · rfl
          · split <;> rfl
          · split
            · split <;> rfl
            · rfl
      · rfl

theorem leave_unwatched (result : Value) :
    m.unwatched.leave result = unwatchedNext (m.leave result) := by
  unfold leave
  cases frames : m.frames.toList with
  | nil => simp [frames]
  | cons frame rest =>
    simp only [frames_unwatched, heap_unwatched, image_unwatched, settings_unwatched,
      segment_unwatched, entries_unwatched, log_unwatched, mk_unwatched, frames, push_unwatched]
    split
    · split <;> rfl
    · rfl

/-! ## Instructions -/

@[simp] theorem jumpTo_unwatched (target : Int) :
    m.unwatched.jumpTo target = (m.jumpTo target).unwatched := by
  unfold jumpTo modifyFrame
  cases frames : m.frames.toList <;> simp [frames]

theorem execute_unwatched (f : Frame) (i : Instruction) :
    m.unwatched.execute f i = unwatchedNext (m.execute f i) := by
  unfold execute
  cases i.operation with
  | nop => rfl
  | loadConstant index =>
    simp only [heap_unwatched, push_unwatched]
    split <;> rfl
  | loadGlobal =>
    refine pop_unwatched fun nameValue m' => ?_
    simp only [heap_unwatched, image_unwatched, currentLocation_unwatched]
    split
    · simp
    · rename_i name _
      unfold Environment.lookupOrNil
      cases m'.image.globals.lookup? m'.heap name with
      | some v => exact m'.push_unwatched v
      | none =>
        have noted := note_unwatched (m := m')
          (show (Environment.undefined name m'.currentLocation).Lasting = true from rfl)
        exact (congrArg (·.push .nil) noted).trans (push_unwatched _ _)
  | call count => exact m.call_unwatched count i.offset
  | leave => exact pop_unwatched fun result m' => m'.leave_unwatched result
  | loadArgument index =>
    simp only [slot?_unwatched, push_unwatched]
    split
    · rfl
    · split <;> rfl
  | pop => exact pop_unwatched fun _ _ => rfl
  | defineGlobal =>
    refine pop_unwatched fun v m' => pop_unwatched fun nameValue m'' => ?_
    simp only [heap_unwatched, image_unwatched]
    split
    · rfl
    · exact push_unwatched { m'' with heap := m''.image.globals.define m''.heap _ v } v
  | jump distance => simp
  | jumpIfFalse distance =>
    refine pop_unwatched fun v m' => ?_
    rw [jumpTo_unwatched]
    split <;> rfl

/-- The trace line is made after the pointer has been moved and before anything else happens. -/
theorem executeNext_unwatched : m.unwatched.executeNext = unwatchedNext m.executeNext := by
  unfold executeNext
  cases frames : m.frames.toList with
  | nil => simp [frames]
  | cons frame rest =>
    simp only [frames_unwatched, heap_unwatched, image_unwatched, settings_unwatched,
      segment_unwatched, entries_unwatched, log_unwatched, mk_unwatched, frames,
      traceInstruction_unwatched, execute_unwatched]
    split <;> rfl

/-! ## Entries -/

theorem kind_ne_trace (why : Abort) : why.kind ≠ .trace := by
  cases why <;> simp [Abort.kind]

theorem unwind_unwatched (base : Nat) (why : Abort) :
    m.unwatched.unwind base why = unwatchedNext (m.unwind base why) := by
  simp [unwind, kind_ne_trace why]

theorem abandonEntry_unwatched (why : Abort) :
    m.unwatched.abandonEntry why = unwatchedNext (m.abandonEntry why) := by
  unfold abandonEntry
  simp only [entries_unwatched]
  split
  · rename_i base entries _
    exact unwind_unwatched { m with entries := entries } base why
  · exact m.unwind_unwatched _ why

theorem begin_unwatched (method : Ref .method) (argBase argCount : Nat) :
    m.unwatched.begin method argBase argCount =
      unwatchedNext (m.begin method argBase argCount) := by
  unfold begin
  rw [frameFor_unwatched]
  split <;> rfl

theorem invokeCallable_unwatched (callable : Callable) (args : List Value) :
    m.unwatched.invokeCallable callable args = unwatchedNext (m.invokeCallable callable args) := by
  unfold invokeCallable
  cases callable with
  | primitive p =>
    simp only [callPrimitive_unwatched]
    obtain ⟨activity, m'⟩ := m.callPrimitive p args
    cases activity <;> rfl
  | method r =>
    simp only [heap_unwatched, wrongArity_unwatched]
    split
    · exact begin_unwatched { m with segment := writeArgs m.segment m.stackTop args } r _ _
    · rfl

theorem enter_unwatched (r : Request) : m.unwatched.enter r = unwatchedNext (m.enter r) := by
  unfold enter
  cases r with
  | execute program =>
    simp only [heap_unwatched, stackTop_unwatched, begin_unwatched]
    split
    · rfl
    · simp
  | send receiver selector args =>
    simp only [heap_unwatched, image_unwatched, notUnderstood_unwatched, invokeCallable_unwatched]
    split <;> rfl
  | invoke callable args => exact m.invokeCallable_unwatched callable args

/-! ## Steps and runs -/

/-- What a step comes to, unwatched. -/
def Progress.unwatched : Progress → Progress
  | .running activity m => .running activity m.unwatched
  | .finished completion m => .finished completion m.unwatched

theorem Progress.ofActivity_unwatched (next : Activity × Machine) :
    Progress.ofActivity (unwatchedNext next) = (Progress.ofActivity next).unwatched :=
  rfl

theorem step_unwatched (activity : Activity) :
    step activity m.unwatched = (step activity m).unwatched := by
  unfold step
  cases activity with
  | fetch => simp only [executeNext_unwatched, Progress.ofActivity_unwatched]
  | request r => simp only [enter_unwatched, Progress.ofActivity_unwatched]
  | abandon why => simp only [abandonEntry_unwatched, Progress.ofActivity_unwatched]
  | reply v =>
    simp only [entries_unwatched, push_unwatched, Progress.ofActivity_unwatched]
    split <;> rfl
  | fault f =>
    simp only [entries_unwatched]
    split <;> rfl

/-- Watched or not, a machine takes the same steps. -/
theorem run_unwatched (fuel : Nat) (activity : Activity) :
    run fuel activity m.unwatched =
      ((run fuel activity m).1, (run fuel activity m).2.unwatched) := by
  induction fuel generalizing activity m with
  | zero => rfl
  | succ fuel ih =>
    rw [run, run, step_unwatched]
    cases step activity m with
    | running activity' m' => exact ih m' activity'
    | finished completion m' => rfl

end Machine

end MessageMachine
