/-
# Requests of standard primitives

A primitive of the standard image asks the machine for one thing only, to call a
function. The function is its own first argument and the others are passed on, so what
it asks for has fewer arguments than it was called with itself, and one at least. This
is what code can count on: it never has a program run or a message sent by anyone but
itself, and a chain of requests comes to an end.
-/

import MessageMachine.Proofs.Compiler.Instruction
import MessageMachine.Proofs.Machine.Effect

namespace MessageMachine.Machine

variable {m m' : Machine} {r : Request}

/-- A request passes some arguments, but fewer than a given number. -/
def Request.PassesBelow (r : Request) (count : Nat) : Prop :=
  r.args ≠ [] ∧ r.args.length < count

/-! ## Calls of primitives -/

theorem request_of_callPrimitive (standard : m.heap.Standard) {p : Ref .primitive}
    {args : List Value} (asked : m.callPrimitive p args = (.request r, m')) :
    r.PassesBelow args.length := by
  have of_effect : ∀ {next : Activity × Machine},
      Effect m (m.heap.primitive p).behaviour args next → next = (.request r, m') →
        r.PassesBelow args.length := by
    rintro next effect rfl
    cases effect with
    | apply callable shape some_ =>
      rw [shape]
      exact ⟨some_, Nat.lt_succ_self _⟩
    | enter _ host => exact absurd host (standard p _)
  unfold callPrimitive at asked
  simp only at asked
  split at asked
  · split at asked
    · exact of_effect (effect_perform m _ _ _) asked
    · cases asked
  · exact of_effect (effect_perform m _ _ _) asked

theorem push_ne_request (v : Value) : m.push v ≠ (.request r, m') := by
  unfold push
  split
  · exact nofun
  · simp only
    split
    · exact nofun
    · exact nofun

/-- A call instruction has a primitive ask for something. -/
theorem request_of_call (standard : m.heap.Standard) {count offset : Nat}
    (asked : m.call count offset = (.request r, m')) : r.PassesBelow count := by
  unfold call at asked
  split at asked
  · cases asked
  · simp only at asked
    split at asked
    · cases asked
    · split at asked
      · split at asked
        · exact absurd asked (push_ne_request _)
        · split at asked
          · cases asked
          · cases asked
          · split at asked
            · cases asked
            next args copied =>
              have length := (getElem?_of_slots? copied).1
              have passes := request_of_callPrimitive (by exact standard) asked
              rwa [length] at passes
          · split at asked
            · split at asked
              · cases asked
              · cases asked
            · exact absurd asked (push_ne_request _)
      · cases asked

/-- A request has a primitive ask for something. -/
theorem request_of_enter (standard : m.heap.Standard) {r' : Request}
    (asked : m.enter r' = (.request r, m')) : r.PassesBelow r'.args.length := by
  have begin_ne : ∀ (n : Machine) (method : Ref .method) (argBase argCount : Nat),
      n.begin method argBase argCount ≠ (.request r, m') := by
    intro n method argBase argCount
    unfold Machine.begin
    split
    · exact nofun
    · exact nofun
  have invoking : ∀ (callable : Callable) (args : List Value),
      m.invokeCallable callable args = (.request r, m') → r.PassesBelow args.length := by
    intro callable args asked
    cases callable with
    | primitive p =>
      simp only [invokeCallable] at asked
      split at asked
      · cases asked
      · exact request_of_callPrimitive standard asked
    | method method =>
      simp only [invokeCallable] at asked
      split at asked
      · exact absurd asked (begin_ne _ _ _ _)
      · cases asked
  unfold enter at asked
  cases r' with
  | execute program =>
    simp only at asked
    split at asked
    · exact absurd asked (begin_ne _ _ _ _)
    · cases asked
  | send receiver selector args =>
    simp only at asked
    split at asked
    · cases asked
    · cases asked
    · exact invoking _ _ asked
  | invoke callable args => exact invoking _ _ asked

/-! ## Steps -/

theorem eq_of_running_eq {a : Activity} {next : Activity × Machine}
    (same : Progress.running a m = .ofActivity next) : next = (a, m) := by
  obtain ⟨b, k⟩ := next
  cases same
  rfl

/-- A step executes the instruction at hand, the pointer being past it. -/
theorem step_fetch {f : Frame} {outer : List Frame} {i : Instruction}
    (frames : m.frames.toList = f :: outer)
    (decoded : Instruction.decode (m.heap.method f.method).code f.ip = .ok i) :
    ∃ n, step .fetch m = .ofActivity (n.execute { f with ip := i.next } i) ∧
      Stands m n { f with ip := i.next } outer ∧ n.heap = m.heap := by
  have moved := (Stands.refl frames).setTop { f with ip := i.next } (Nat.le_refl _)
  have traced := undisturbed_traceInstruction
    { m with frames := m.frames.setTop { f with ip := i.next } } { f with ip := i.next } i
  refine ⟨_, ?_, moved.undisturbed traced, ?_⟩
  · show Progress.ofActivity m.executeNext = _
    unfold executeNext
    simp only [frames, decoded]
  · unfold traceInstruction
    split
    · rfl
    · rfl

/-- What a call instruction has a primitive ask for. -/
theorem request_of_fetch (standard : m.heap.Standard) (sound : Sound .fetch m)
    (ran : step .fetch m = .running (.request r) m') :
    ∃ f outer i n, m.frames.toList = f :: outer ∧
      Instruction.decode (m.heap.method f.method).code f.ip = .ok i ∧ i.operation = .call n ∧
      n + 1 ≤ f.depth ∧ r.PassesBelow n := by
  cases transition_of_step sound ran with
  | @await _ _ f outer i n _ frames decoded calls positive covered =>
    refine ⟨f, outer, i, n, frames, decoded, calls, covered, ?_⟩
    obtain ⟨line, executed, -, heap⟩ := step_fetch frames decoded
    rw [ran] at executed
    unfold execute at executed
    simp only [calls] at executed
    exact request_of_call (heap ▸ standard) (eq_of_running_eq executed)

theorem request_of_request (standard : m.heap.Standard) {r' : Request}
    (ran : step (.request r') m = .running (.request r) m') : r.PassesBelow r'.args.length :=
  request_of_enter standard (eq_of_running_eq ran.symm)

/-- A constant that is loaded is the value that gets pushed. -/
theorem slot_of_loadConstant {f : Frame} {outer : List Frame} {i : Instruction} {index : Nat}
    {v : Value} (frames : m.frames.toList = f :: outer)
    (decoded : Instruction.decode (m.heap.method f.method).code f.ip = .ok i)
    (loads : i.operation = .loadConstant index)
    (pooled : (m.heap.method f.method).constants[index]? = some v)
    (ran : step .fetch m = .running .fetch m') : m'.slot? f.sp = some v := by
  obtain ⟨line, executed, st, heap⟩ := step_fetch frames decoded
  rw [ran] at executed
  unfold execute at executed
  simp only [loads, heap, pooled] at executed
  by_cases room : (f.sp : Int) < f.limit
  · obtain ⟨k, pushing, pushed⟩ := st.push room v
    rw [pushing] at executed
    cases executed
    exact pushed.top
  · rw [st.push_full (Int.not_lt.1 room) v] at executed
    cases executed

/-- A program that is executed is the method that is entered. -/
theorem frames_of_execute {program : Ref .method}
    (ran : step (.request (.execute program)) m = .running .fetch m') :
    m'.frames.toList = entering m.heap program m.stackTop 0 :: m.frames.toList := by
  have entered := eq_of_running_eq ran.symm
  unfold enter at entered
  simp only at entered
  split at entered
  · unfold begin at entered
    rcases frameFor_cases m program m.stackTop 0 with ⟨made, -⟩ | refused | refused
    · rw [made] at entered
      cases entered
      rfl
    · rw [refused] at entered
      cases entered
    · rw [refused] at entered
      cases entered
  · cases entered

end MessageMachine.Machine
