/-
# Where failures of the host come from

A machine distinguishes mistakes of a program, which give up one entry and are
reported, from failures of the host, which take everything down. The second kind
must not be within reach of a program. `fault_of_step` shows that it is not, as
long as the classes in use belong to the image, but for one limit: a step fails like
the host only if it performs a behaviour that the host has added, applies a function
that nobody has passed, or makes a string that is too long for the host. The last always
fails, `step_of_makesOverlong`.
-/

import MessageMachine.Proofs.Machine.Guard
import MessageMachine.Proofs.Machine.Invariant
import MessageMachine.Proofs.Ownership

namespace MessageMachine.Machine

/-! ## Primitives that a step performs -/

/-- A step calls a primitive with some arguments. -/
inductive Performs : Activity → Machine → Ref .primitive → List Value → Prop
  | call {m : Machine} {f : Frame} {outer : List Frame} {i : Instruction} {n : Nat}
      {receiver : Value} {selector : String} {owner : Ref .classObject} {p : Ref .primitive}
      {args : List Value} :
      m.frames.toList = f :: outer →
      Instruction.decode (m.heap.method f.method).code f.ip = .ok i →
      i.operation = .call n → 1 ≤ n → f.stackBase + (n + 1) ≤ f.sp →
      m.slot? (f.sp - 1) = some (.symbol selector) →
      m.slot? (f.sp - (n + 1)) = some receiver →
      m.image.handler? m.heap (m.image.classOf m.heap receiver) selector =
        .ok (some ⟨owner, .primitive p⟩) →
      m.slots? (f.sp - (n + 1)) n = some args → Performs .fetch m p args
  | send {m : Machine} {receiver : Value} {selector : String} {rest : List Value}
      {owner : Ref .classObject} {p : Ref .primitive} :
      m.image.handler? m.heap (m.image.classOf m.heap receiver) selector =
        .ok (some ⟨owner, .primitive p⟩) →
      Performs (.request (.send receiver selector rest)) m p (receiver :: rest)
  | invoke {m : Machine} {p : Ref .primitive} {args : List Value} :
      Performs (.request (.invoke (.primitive p) args)) m p args

/-- The string that a behaviour makes for its answer. -/
inductive Makes (h : Heap) (args : List Value) : Behaviour → String → Prop
  | printed : Makes h args .printed (h.print (args.getD 0 .nil))
  | symbolName {name : String} :
      (args.getD 0 .nil).asSymbol? = some name → Makes h args .symbolName name
  | concat {r s : Ref .string} :
      (args.getD 0 .nil).asString? = some r → (args.getD 1 .nil).asString? = some s →
      Makes h args .concat (h.stringText r ++ h.stringText s)
  | className {c : Ref .classObject} :
      (args.getD 0 .nil).asClass? = some c → Makes h args .className (h.classAt c).name

/-- How a primitive that was called with some arguments may fail like the host. -/
inductive MayFail (h : Heap) (p : Ref .primitive) (args : List Value) : HostFault → Prop
  /-- It is the host's own. -/
  | host {behaviour : HostBehaviour} (f : HostFault) :
      (h.primitive p).behaviour = .host behaviour → MayFail h p args f
  /-- It applies functions, and the host has called it without any argument. -/
  | bare : (h.primitive p).behaviour = .apply → args = [] → MayFail h p args .missing
  /-- It makes a string that would be longer than any of the host. -/
  | overlong {text : String} :
      (h.primitive p).Accepts args → Makes h args (h.primitive p).behaviour text →
      ¬ HostText.Fits text → MayFail h p args (.outOfRange .overlong)

/-- The next step calls a primitive that makes a string longer than any of the host. -/
def MakesOverlong (a : Activity) (m : Machine) : Prop :=
  ∃ p args text, Performs a m p args ∧ (m.heap.primitive p).Accepts args ∧
    Makes m.heap args (m.heap.primitive p).behaviour text ∧ ¬ HostText.Fits text

/-! ## Behaviours that do not fail -/

variable {m m' : Machine} {f : HostFault}

theorem answer_ne_fault (v : Value) : m.answer v ≠ (.fault f, m') := by
  simp [answer]

theorem decline_ne_fault (name message : String) : m.decline name message ≠ (.fault f, m') := by
  simp [decline]

theorem answerNumber_ne_fault (x : Binary64) : m.answerNumber x ≠ (.fault f, m') := by
  unfold answerNumber
  split <;> simp [answer]

/-- A string can be answered unless it is too long. -/
theorem fault_of_answerString {text : String} (failed : m.answerString text = (.fault f, m')) :
    ¬ HostText.Fits text ∧ f = .outOfRange .overlong := by
  unfold answerString at failed
  split at failed
  · simp at failed
  next unfit => exact ⟨unfit, (Activity.fault.inj (congrArg Prod.fst failed)).symm⟩

theorem withIntegers_ne_fault (name : String) (x y : Value)
    (go : Int → Int → Activity × Machine) (each : ∀ a b, go a b ≠ (.fault f, m')) :
    m.withIntegers name x y go ≠ (.fault f, m') := by
  unfold withIntegers
  split
  · exact decline_ne_fault _ _
  · split
    · exact decline_ne_fault _ _
    · exact each _ _

/-- What is found in an image that owns all classes can be answered. -/
theorem answerFrom_ne_fault {result : Except HostFault Value} (found : ∃ v, result = .ok v) :
    m.answerFrom result ≠ (.fault f, m') := by
  obtain ⟨v, rfl⟩ := found
  exact answer_ne_fault v

theorem respondsTo_ne_fault (owns : m.image.Owns m.heap) (name : String)
    (receiver selector : Value) : m.respondsTo name receiver selector ≠ (.fault f, m') := by
  unfold respondsTo
  split
  · exact decline_ne_fault _ _
  · next selector _ =>
    obtain ⟨handler, found⟩ := owns.handler?_ok (m.image.classOf m.heap receiver) selector
    refine answerFrom_ne_fault ⟨.boolean handler.isSome, ?_⟩
    rw [Image.respondsTo, found]
    rfl

theorem baseClass_ne_fault (owns : m.image.Owns m.heap) (receiver : Value) :
    m.baseClass receiver ≠ (.fault f, m') := by
  unfold baseClass
  split
  · next c _ =>
    rcases owns.base?_eq c with top | ⟨base, next, -⟩
    · refine answerFrom_ne_fault ⟨.nil, ?_⟩
      rw [top]
      rfl
    · refine answerFrom_ne_fault ⟨.classObject base, ?_⟩
      rw [next]
      rfl
  · exact answer_ne_fault _

theorem apply_ne_fault (name : String) {args : List Value} (some_ : args ≠ []) :
    m.apply name args ≠ (.fault f, m') := by
  unfold apply
  split
  · exact absurd rfl some_
  · split
    · exact decline_ne_fault _ _
    · split
      · exact decline_ne_fault _ _
      · simp

/-- A behaviour that fails is the host's own, applies nothing or makes too long a string. -/
theorem fault_of_perform (owns : m.image.Owns m.heap) {p : Ref .primitive}
    {behaviour : Behaviour} (same : (m.heap.primitive p).behaviour = behaviour) {name : String}
    {args : List Value} (accepts : (m.heap.primitive p).Accepts args)
    (failed : m.perform behaviour name args = (.fault f, m')) :
    MayFail m.heap p args f := by
  have overlong : ∀ {text : String}, Makes m.heap args behaviour text →
      m.answerString text = (.fault f, m') → MayFail m.heap p args f := by
    intro text makes failed
    obtain ⟨unfit, rfl⟩ := fault_of_answerString failed
    exact .overlong accepts (same ▸ makes) unfit
  unfold perform at failed
  cases behaviour with
  | host b => exact .host f same
  | respondsTo => exact absurd failed (respondsTo_ne_fault owns _ _ _)
  | baseClass => exact absurd failed (baseClass_ne_fault owns _)
  | apply =>
    by_cases bare : args = []
    · subst bare
      cases failed
      exact .bare same rfl
    · exact absurd failed (apply_ne_fault _ bare)
  | arithmetic op =>
    exact absurd failed (withIntegers_ne_fault _ _ _ _ fun _ _ => answerNumber_ne_fault _)
  | comparison op =>
    exact absurd failed (withIntegers_ne_fault _ _ _ _ fun _ _ => answer_ne_fault _)
  | division op =>
    refine absurd failed (withIntegers_ne_fault _ _ _ _ fun _ _ => ?_)
    split
    · exact decline_ne_fault _ _
    · exact answerNumber_ne_fault _
  | identical => exact absurd failed (answer_ne_fault _)
  | equal => exact absurd failed (answer_ne_fault _)
  | printed => exact overlong .printed failed
  | classOf => exact absurd failed (answer_ne_fault _)
  | isNil => exact absurd failed (answer_ne_fault _)
  | always b => exact absurd failed (answer_ne_fault _)
  | negation => exact absurd failed (answer_ne_fault _)
  | head => exact absurd failed (answer_ne_fault _)
  | tail => exact absurd failed (answer_ne_fault _)
  | cons => simp [cons] at failed
  | getSlot =>
    simp only [getSlot] at failed
    split at failed
    · exact absurd failed (answer_ne_fault _)
    · exact absurd failed (decline_ne_fault _ _)
  | setSlot =>
    simp only [setSlot] at failed
    split at failed
    · simp at failed
    · exact absurd failed (decline_ne_fault _ _)
  | charCode =>
    simp only [charCode] at failed
    split at failed
    · exact absurd failed (answerNumber_ne_fault _)
    · exact absurd failed (answer_ne_fault _)
  | symbolName =>
    simp only [symbolName] at failed
    split at failed
    next symbol => exact overlong (.symbolName symbol) failed
    · exact absurd failed (answer_ne_fault _)
  | stringLength =>
    simp only [stringLength] at failed
    split at failed
    · exact absurd failed (answerNumber_ne_fault _)
    · exact absurd failed (answer_ne_fault _)
  | concat =>
    simp only [concat] at failed
    split at failed
    next first second => exact overlong (.concat first second) failed
    · exact absurd failed (decline_ne_fault _ _)
  | intern =>
    simp only [intern] at failed
    split at failed
    · exact absurd failed (answer_ne_fault _)
    · exact absurd failed (answer_ne_fault _)
  | setHead =>
    simp only [setHead] at failed
    split at failed
    · simp at failed
    · exact absurd failed (answer_ne_fault _)
  | setTail =>
    simp only [setTail] at failed
    split at failed
    · simp at failed
    · exact absurd failed (answer_ne_fault _)
  | newInstance =>
    simp only [newInstance] at failed
    split at failed
    · exact absurd failed (answer_ne_fault _)
    · split at failed
      · simp at failed
      · exact absurd failed (decline_ne_fault _ _)
  | subclass =>
    simp only [subclass] at failed
    split at failed
    · simp at failed
    · exact absurd failed (decline_ne_fault _ _)
  | installMethod =>
    simp only [installMethod] at failed
    split at failed
    · simp at failed
    · exact absurd failed (decline_ne_fault _ _)
  | className =>
    simp only [className] at failed
    split at failed
    next target => exact overlong (.className target) failed
    · exact absurd failed (answer_ne_fault _)

/-! ## Steps that fail -/

theorem fault_of_callPrimitive (owns : m.image.Owns m.heap) {p : Ref .primitive}
    {args : List Value} (failed : m.callPrimitive p args = (.fault f, m')) :
    MayFail m.heap p args f := by
  by_cases accepts : (m.heap.primitive p).Accepts args
  · rw [callPrimitive_of_accepts accepts] at failed
    exact fault_of_perform owns rfl accepts failed
  · obtain ⟨expected, refused⟩ := callPrimitive_of_not_accepts accepts
    cases (congrArg Prod.fst failed).symm.trans (congrArg Prod.fst refused)

theorem push_ne_fault {g : Frame} {outer : List Frame} (frames : m.frames.toList = g :: outer)
    (v : Value) : m.push v ≠ (.fault f, m') := by
  unfold push
  simp only [frames]
  split <;> simp

/-- A call instruction fails in the primitive that it calls. -/
theorem fault_of_call (owns : m.image.Owns m.heap) {g : Frame} {outer : List Frame}
    (frames : m.frames.toList = g :: outer) (filled : ∀ slot < g.sp, ∃ v, m.slot? slot = some v)
    {count offset : Nat} (failed : m.call count offset = (.fault f, m')) :
    ∃ selector receiver owner p args, 1 ≤ count ∧ g.stackBase + (count + 1) ≤ g.sp ∧
      m.slot? (g.sp - 1) = some (.symbol selector) ∧
      m.slot? (g.sp - (count + 1)) = some receiver ∧
      m.image.handler? m.heap (m.image.classOf m.heap receiver) selector =
        .ok (some ⟨owner, .primitive p⟩) ∧
      m.slots? (g.sp - (count + 1)) count = some args ∧ MayFail m.heap p args f := by
  have lowered := toList_setTop_cons frames { g with sp := g.sp - (count + 1) }
  unfold call at failed
  simp only [frames] at failed
  split at failed
  · simp at failed
  · next fit =>
    obtain ⟨selectorValue, top⟩ := filled (g.sp - 1) (by omega)
    obtain ⟨receiver, first⟩ := filled (g.sp - (count + 1)) (by omega)
    rw [top, first] at failed
    simp only at failed
    split at failed
    · exact absurd failed (@push_ne_fault _ m' f _ outer lowered .nil)
    · next selector symbol =>
      have symbolic : selectorValue = .symbol selector := by
        cases selectorValue <;> simp_all [Value.asSymbol?]
      obtain ⟨found, looked⟩ := owns.handler?_ok (m.image.classOf m.heap receiver) selector
      simp only [looked] at failed
      cases found with
      | none => simp [notUnderstood] at failed
      | some handler =>
        obtain ⟨owner, callable⟩ := handler
        cases callable with
        | method r =>
          simp only at failed
          split at failed
          · split at failed <;> simp at failed
          · exact absurd failed (@push_ne_fault _ m' f _ outer lowered .nil)
        | primitive p =>
          obtain ⟨args, copied⟩ := slots?_eq_some m (g.sp - (count + 1)) count
            fun slot lt => filled slot (by omega)
          let caller : Machine :=
            { m with frames := m.frames.setTop { g with sp := g.sp - (count + 1) } }
          have copied' : caller.slots? (g.sp - (count + 1)) count = some args := copied
          simp only [caller] at copied'
          simp only [copied'] at failed
          have mayFail : MayFail m.heap p args f :=
            fault_of_callPrimitive (m := caller.truncate (g.sp - (count + 1))) owns failed
          exact ⟨selector, receiver, owner, p, args, by omega, by omega, symbolic ▸ top, first,
            looked, copied, mayFail⟩

/-- A request fails in the primitive that it calls. -/
theorem fault_of_enter (owns : m.image.Owns m.heap) {r : Request}
    (failed : m.enter r = (.fault f, m')) :
    ∃ p args, Performs (.request r) m p args ∧ MayFail m.heap p args f := by
  have begin_ne : ∀ (n : Machine) (method : Ref .method) (argBase argCount : Nat),
      n.begin method argBase argCount ≠ (.fault f, m') := by
    intro n method argBase argCount
    unfold Machine.begin
    split <;> simp
  have invoking : ∀ (callable : Callable) (args : List Value),
      m.invokeCallable callable args = (.fault f, m') →
        ∃ p, callable = .primitive p ∧ MayFail m.heap p args f := by
    intro callable args failed
    cases callable with
    | primitive p =>
      have failed' : m.callPrimitive p args = (.fault f, m') := by
        simp only [invokeCallable] at failed
        split at failed
        · simp at failed
        · exact failed
      exact ⟨p, rfl, fault_of_callPrimitive owns failed'⟩
    | method method =>
      simp only [invokeCallable] at failed
      split at failed
      · exact absurd failed (begin_ne _ _ _ _)
      · simp at failed
  unfold enter at failed
  cases r with
  | execute program =>
    simp only at failed
    split at failed
    · exact absurd failed (begin_ne _ _ _ _)
    · simp at failed
  | send receiver selector rest =>
    obtain ⟨found, looked⟩ := owns.handler?_ok (m.image.classOf m.heap receiver) selector
    simp only [looked] at failed
    cases found with
    | none => simp [notUnderstood] at failed
    | some handler =>
      obtain ⟨owner, callable⟩ := handler
      obtain ⟨p, rfl, mayFail⟩ := invoking _ _ failed
      exact ⟨p, _, .send looked, mayFail⟩
  | invoke callable args =>
    obtain ⟨p, rfl, mayFail⟩ := invoking _ _ failed
    exact ⟨p, args, .invoke, mayFail⟩

/-- The instruction at hand is executed with the pointer past it, and nothing but frames and
reports is different then. -/
theorem exists_execute_of_decode {g : Frame} {outer : List Frame} {i : Instruction}
    (frames : m.frames.toList = g :: outer)
    (decoded : Instruction.decode (m.heap.method g.method).code g.ip = .ok i) :
    ∃ k : Machine, m.executeNext = k.execute { g with ip := i.next } i ∧
      k.frames.toList = { g with ip := i.next } :: outer ∧ k.heap = m.heap ∧
      k.image = m.image ∧ k.slot? = m.slot? := by
  have advanced := toList_setTop_cons frames { g with ip := i.next }
  refine ⟨_, by simp only [executeNext, frames, decoded]; rfl, ?_, ?_, ?_, ?_⟩
  · unfold traceInstruction
    split <;> exact advanced
  all_goals
    unfold traceInstruction
    split <;> rfl

/-- A step that fails passes a failure on, or a primitive that it calls fails. -/
theorem fault_of_step {a : Activity} (sound : Sound a m) (owns : m.image.Owns m.heap)
    (failed : step a m = .running (.fault f) m') :
    a = .fault f ∨ ∃ p args, Performs a m p args ∧ MayFail m.heap p args f := by
  have transition := transition_of_step sound failed
  cases transition with
  | propagate => exact .inl rfl
  | @respond _ _ r =>
    right
    have ran : m.enter r = (.fault f, m') := by
      simpa [step, Progress.ofActivity, Prod.ext_iff] using failed
    exact fault_of_enter owns ran
  | @await _ _ g outer i n _ frames decoded calls positive covered =>
    right
    have top : m.stackTop = g.sp := by rw [stackTop_eq, frames, topOf_cons]
    have filled : ∀ slot < g.sp, ∃ v, m.slot? slot = some v :=
      fun slot lt => sound.filled slot (top ▸ lt)
    obtain ⟨k, executes, advanced, heap, image, slots⟩ := exists_execute_of_decode frames decoded
    have ran : k.call n i.offset = (.fault f, m') := by
      rw [← show k.execute { g with ip := i.next } i = k.call n i.offset by
        simp only [execute, calls], ← executes]
      simpa [step, Progress.ofActivity, Prod.ext_iff] using failed
    obtain ⟨selector, receiver, owner, p, args, positive, covered, symbol, first, looked, copied,
        mayFail⟩ :=
      fault_of_call (by rwa [heap, image]) advanced (by rwa [slots]) ran
    rw [slots] at symbol first
    rw [heap, image] at looked
    rw [heap] at mayFail
    have copied' : m.slots? (g.sp - (n + 1)) n = some args := by
      unfold slots? at copied ⊢
      rwa [slots] at copied
    exact ⟨p, args, .call frames decoded calls positive covered symbol first looked copied',
      mayFail⟩

/-! ## Strings that are too long -/

end MessageMachine.Machine
