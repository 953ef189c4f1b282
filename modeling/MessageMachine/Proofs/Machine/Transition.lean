/-
# Transitions

What one step does to frames, segment and entries, stated once. The instruction
set has ten operations and a step has twelve outcomes that differ in their control
effect; `Transition` lists these with everything that is known when they happen,
guards included. `transition_of_step` is the inversion: a step of a sound machine
is one of them. Invariants of runs are derived from it and never open the
interpreter again.

Two predicates describe a machine relative to the one that a step began with. In
`Stands` the innermost frame has changed and nothing below its operand pointer has;
in `Pushed` one value has been put on top of it.
-/

import MessageMachine.Proofs.Machine.Primitive
import MessageMachine.StackDepth

namespace MessageMachine.Machine

/-! ## The innermost frame -/

/-- `m` is `origin` with `f` for its innermost frame. Slots below the operand
pointer of `f` are as they were. -/
structure Stands (origin m : Machine) (f : Frame) (outer : List Frame) : Prop where
  frames : m.frames.toList = f :: outer
  kept : ∀ slot < f.sp, m.slot? slot = origin.slot? slot
  entries : m.entries = origin.entries
  settings : m.settings = origin.settings
  methods : m.heap.methods = origin.heap.methods
  reports : Reports origin m

/-- `m` is `origin` with `f` for its innermost frame, and `v` pushed on it. -/
structure Pushed (origin m : Machine) (f : Frame) (outer : List Frame) (v : Value) : Prop where
  frames : m.frames.toList = { f with sp := f.sp + 1 } :: outer
  kept : ∀ slot < f.sp, m.slot? slot = origin.slot? slot
  top : m.slot? f.sp = some v
  entries : m.entries = origin.entries
  settings : m.settings = origin.settings
  methods : m.heap.methods = origin.heap.methods
  reports : Reports origin m

theorem toList_setTop_cons {s : FrameStack} {f : Frame} {outer : List Frame}
    (frames : s.toList = f :: outer) (g : Frame) : (s.setTop g).toList = g :: outer := by
  rw [FrameStack.toList_setTop, frames]
  rfl

namespace Stands

variable {origin m : Machine} {f : Frame} {outer : List Frame}

theorem refl (frames : m.frames.toList = f :: outer) : Stands m m f outer :=
  ⟨frames, fun _ _ => rfl, rfl, rfl, rfl, .of_eq rfl⟩

/-- Another frame takes the place of the innermost, with no more operands. -/
theorem setTop (st : Stands origin m f outer) (g : Frame) (le : g.sp ≤ f.sp) :
    Stands origin { m with frames := m.frames.setTop g } g outer :=
  ⟨toList_setTop_cons st.frames g, fun slot lt => st.kept slot (by omega), st.entries,
    st.settings, st.methods, st.reports⟩

/-- What primitives and reports do makes no difference. -/
theorem undisturbed {m' : Machine} (st : Stands origin m f outer) (u : Undisturbed m m') :
    Stands origin m' f outer :=
  ⟨u.frames ▸ st.frames, fun slot lt => (u.slot? slot).trans (st.kept slot lt),
    u.entries.trans st.entries, u.settings.trans st.settings, u.methods.trans st.methods,
    st.reports.trans u.reports⟩

/-- The segment may be cut off above the operands. -/
theorem truncate (st : Stands origin m f outer) : Stands origin (m.truncate f.sp) f outer := by
  refine ⟨st.frames, fun slot lt => ?_, st.entries, st.settings, st.methods, st.reports⟩
  simp only [slot?, Machine.truncate, slot_resize, if_pos lt]
  exact st.kept slot lt

/-- Pushing where there is room. -/
theorem push (st : Stands origin m f outer) (room : (f.sp : Int) < f.limit) (v : Value) :
    ∃ m', m.push v = (.fetch, m') ∧ Pushed origin m' f outer v := by
  have open_ : ¬ f.limit ≤ (f.sp : Int) := by omega
  let pushed : Machine := { m with
    segment := writeSlot m.segment f.sp v
    frames := m.frames.setTop { f with sp := f.sp + 1 } }
  have step : m.push v = (.fetch, pushed) := by
    simp only [Machine.push, st.frames, if_neg open_, pushed]
  have below : ∀ slot < f.sp, pushed.slot? slot = origin.slot? slot := by
    intro slot lt
    have other : ¬ slot = f.sp := by omega
    rw [← st.kept slot lt]
    simp only [slot?, pushed, slot_writeSlot, if_neg other]
  have here : pushed.slot? f.sp = some v := by
    simp only [slot?, pushed, slot_writeSlot, if_true]
  exact ⟨pushed, step, toList_setTop_cons st.frames _, below, here, st.entries, st.settings,
    st.methods, st.reports⟩

/-- Pushing where there is none. -/
theorem push_full (st : Stands origin m f outer) (full : f.limit ≤ (f.sp : Int)) (v : Value) :
    m.push v = (.abandon (.exhausted (.operands (m.heap.method f.method).name
      (m.heap.method f.method).maxStack)), m) := by
  simp only [Machine.push, st.frames, if_pos full]

/-- Popping an operand that is there. -/
theorem pop (st : Stands origin m f outer) (covered : f.stackBase < f.sp) {v : Value}
    (filled : origin.slot? (f.sp - 1) = some v) (go : Value → Machine → Activity × Machine) :
    m.pop go = go v { m with frames := m.frames.setTop { f with sp := f.sp - 1 } } := by
  have some_ : ¬ f.sp ≤ f.stackBase := by omega
  have here : m.slot? (f.sp - 1) = some v := (st.kept _ (by omega)).trans filled
  simp only [Machine.pop, st.frames, if_neg some_, here]

/-- Popping where there is no operand. -/
theorem pop_empty (st : Stands origin m f outer) (empty : f.sp ≤ f.stackBase)
    (go : Value → Machine → Activity × Machine) :
    m.pop go = (.abandon (.malformed (.at (.operandUnderflow (m.heap.method f.method).name)
      f.ip)), m) := by
  simp only [Machine.pop, st.frames, if_pos empty]

end Stands

/-! ## Entering methods -/

/-- The frame of a method that has just been called. -/
def entering (h : Heap) (r : Ref .method) (argBase argCount : Nat) : Frame :=
  ⟨r, 0, argBase, argCount, argBase + argCount, argBase + argCount,
    ((argBase + argCount : Nat) : Int) + (h.method r).maxStack⟩

/-- The arguments that a request passes, the receiver first. -/
def Request.args : Request → List Value
  | .execute _ => []
  | .send receiver _ args => receiver :: args
  | .invoke _ args => args

/-- There is room for the frame of a method. -/
structure HasRoom (m : Machine) (r : Ref .method) (argBase argCount : Nat) : Prop where
  frames : (m.frames.toList.length : Int) < m.settings.maxFrames
  slots : ((argBase + argCount : Nat) : Int) + (m.heap.method r).maxStack ≤
    m.settings.maxStackSlots

/-- A frame is made where there is room, and the limit that forbids it is told otherwise. -/
theorem frameFor_cases (m : Machine) (r : Ref .method) (argBase argCount : Nat) :
    (m.frameFor r argBase argCount = .ok (entering m.heap r argBase argCount) ∧
      m.HasRoom r argBase argCount) ∨
    m.frameFor r argBase argCount =
      .error (.frames m.settings.maxFrames (m.heap.method r).name) ∨
    m.frameFor r argBase argCount =
      .error (.segment m.settings.maxStackSlots (m.heap.method r).name) := by
  unfold frameFor
  simp only [m.frames.size_eq]
  split
  · exact .inr (.inl rfl)
  · split
    · exact .inr (.inr rfl)
    · next frames slots => exact .inl ⟨rfl, by omega, by omega⟩

/-! ## Mishaps -/

/-- Why the code of a frame is given up at its next instruction. -/
inductive Mishap (m : Machine) (f : Frame) : Abort → Prop
  | undecodable {fault : MalformedCode} :
      Instruction.decode (m.heap.method f.method).code f.ip = .error fault →
      Mishap m f (.malformed fault)
  | constant {i : Instruction} {index : Nat} :
      Instruction.decode (m.heap.method f.method).code f.ip = .ok i →
      i.operation = .loadConstant index → (m.heap.method f.method).constants.size ≤ index →
      Mishap m f (.malformed (.at (.constantOutOfRange index) i.offset))
  | argument {i : Instruction} {index : Nat} :
      Instruction.decode (m.heap.method f.method).code f.ip = .ok i →
      i.operation = .loadArgument index → f.argCount ≤ index →
      Mishap m f (.malformed (.at (.argumentOutOfRange index) i.offset))
  | underflow {i : Instruction} {why : Abort} :
      Instruction.decode (m.heap.method f.method).code f.ip = .ok i →
      f.depth < i.operation.pops ∨ i.operation = .call 0 → Mishap m f why
  | overflow {i : Instruction} {why : Abort} :
      Instruction.decode (m.heap.method f.method).code f.ip = .ok i →
      i.operation.pops = 0 → i.operation.pushes = 1 → f.limit ≤ (f.sp : Int) → Mishap m f why
  | name {i : Instruction} {v : Value} {printed : String} :
      Instruction.decode (m.heap.method f.method).code f.ip = .ok i →
      i.operation = .defineGlobal → m.slot? (f.sp - 2) = some v → v.asSymbol? = none →
      Mishap m f (.malformed (.at (.nameNotSymbol printed) i.offset))
  | frames {i : Instruction} {n : Nat} {limit : Int} {method : String} :
      Instruction.decode (m.heap.method f.method).code f.ip = .ok i → i.operation = .call n →
      Mishap m f (.exhausted (.frames limit method))
  | segment {i : Instruction} {n : Nat} {limit : Int} {method : String} :
      Instruction.decode (m.heap.method f.method).code f.ip = .ok i → i.operation = .call n →
      Mishap m f (.exhausted (.segment limit method))

/-! ## The twelve outcomes -/

inductive Transition : Activity → Machine → Activity → Machine → Prop
  /-- An instruction that leaves no value. -/
  | advance {m m' : Machine} {f : Frame} {outer : List Frame} {i : Instruction} {ip : Int} :
      m.frames.toList = f :: outer →
      Instruction.decode (m.heap.method f.method).code f.ip = .ok i →
      ip ∈ i.successors → i.operation.pops ≤ f.depth → i.operation.pushes = 0 →
      Stands m m' { f with ip := ip, sp := f.sp - i.operation.pops } outer →
      Transition .fetch m .fetch m'
  /-- An instruction that leaves a value. -/
  | produce {m m' : Machine} {f : Frame} {outer : List Frame} {i : Instruction} {v : Value} :
      m.frames.toList = f :: outer →
      Instruction.decode (m.heap.method f.method).code f.ip = .ok i →
      (i.next : Int) ∈ i.successors → i.operation.pops ≤ f.depth → i.operation.pushes = 1 →
      ((f.sp - i.operation.pops : Nat) : Int) < f.limit →
      Pushed m m' { f with ip := i.next, sp := f.sp - i.operation.pops } outer v →
      Transition .fetch m .fetch m'
  /-- A call that is answered without running code, now or by whoever has control. -/
  | await {m m' : Machine} {f : Frame} {outer : List Frame} {i : Instruction} {n : Nat}
      {a : Activity} :
      m.frames.toList = f :: outer →
      Instruction.decode (m.heap.method f.method).code f.ip = .ok i →
      i.operation = .call n → 1 ≤ n → n + 1 ≤ f.depth → a ≠ .fetch →
      (∀ why, a = .abandon why → ∃ what, why = .overflow what) →
      Stands m m' { f with ip := i.next, sp := f.sp - (n + 1) } outer →
      Transition .fetch m a m'
  /-- A call of a method, whose frame lies over the arguments. -/
  | call {m m' : Machine} {f : Frame} {outer : List Frame} {i : Instruction} {n : Nat}
      {r : Ref .method} :
      m.frames.toList = f :: outer →
      Instruction.decode (m.heap.method f.method).code f.ip = .ok i →
      i.operation = .call n → 1 ≤ n → n + 1 ≤ f.depth →
      (m.heap.method r).argCount = n → m.HasRoom r (f.sp - (n + 1)) n →
      m'.frames.toList = entering m.heap r (f.sp - (n + 1)) n ::
        { f with ip := i.next, sp := f.sp - (n + 1) } :: outer →
      (∀ slot < f.sp, m'.slot? slot = m.slot? slot) → m'.entries = m.entries →
      m'.settings = m.settings → m'.heap.methods = m.heap.methods → Reports m m' →
      Transition .fetch m .fetch m'
  /-- A return from the first frame of an entry. -/
  | handOut {m m' : Machine} {f : Frame} {outer : List Frame} {i : Instruction} {v : Value}
      {entries : List Nat} :
      m.frames.toList = f :: outer →
      Instruction.decode (m.heap.method f.method).code f.ip = .ok i →
      i.operation = .leave → 1 ≤ f.depth → m.entries = outer.length :: entries →
      m'.frames.toList = outer → (∀ slot < f.argBase, m'.slot? slot = m.slot? slot) →
      m'.entries = entries → m'.settings = m.settings → m'.heap.methods = m.heap.methods →
      Reports m m' → Transition .fetch m (.reply v) m'
  /-- A return to the caller. -/
  | giveBack {m m' : Machine} {f g : Frame} {outer : List Frame} {i : Instruction} {v : Value} :
      m.frames.toList = f :: g :: outer →
      Instruction.decode (m.heap.method f.method).code f.ip = .ok i →
      i.operation = .leave → 1 ≤ f.depth → Nested (outer.length + 1) m.entries →
      Pushed m m' g outer v →
      Transition .fetch m .fetch m'
  /-- The code is given up. -/
  | mishap {m m' : Machine} {f : Frame} {outer : List Frame} {ip : Int} {sp : Nat} {why : Abort} :
      m.frames.toList = f :: outer → Mishap m f why → f.stackBase ≤ sp → sp ≤ f.sp →
      Stands m m' { f with ip := ip, sp := sp } outer →
      Transition .fetch m (.abandon why) m'
  /-- The result of a call arrives from outside the code. -/
  | receive {m m' : Machine} {f : Frame} {outer : List Frame} {v : Value} :
      m.frames.toList = f :: outer → Pushed m m' f outer v →
      Transition (.reply v) m .fetch m'
  /-- A request that is answered without running code. -/
  | respond {m m' : Machine} {r : Request} {a : Activity} :
      Undisturbed m m' → a ≠ .fetch → (∀ why, a ≠ .abandon why) →
      Transition (.request r) m a m'
  /-- A request that is given up before its first instruction. -/
  | refuse {m m' : Machine} {r : Request} {why : Abort} :
      m'.frames = m.frames → (∀ slot < m.stackTop, m'.slot? slot = m.slot? slot) →
      m'.entries = m.frames.toList.length :: m.entries → m'.settings = m.settings →
      m'.heap.methods = m.heap.methods → (∀ fault, why ≠ .malformed fault) →
      (∀ name capacity, why ≠ .exhausted (.operands name capacity)) → Reports m m' →
      Transition (.request r) m (.abandon why) m'
  /-- A request that runs a method. -/
  | begin {m m' : Machine} {r : Request} {method : Ref .method} :
      (m.heap.method method).argCount = r.args.length →
      m.HasRoom method m.stackTop r.args.length →
      m'.frames.toList = entering m.heap method m.stackTop r.args.length :: m.frames.toList →
      (∀ slot < m.stackTop, m'.slot? slot = m.slot? slot) →
      (∀ index < r.args.length, m'.slot? (m.stackTop + index) = r.args[index]?) →
      m'.entries = m.frames.toList.length :: m.entries → m'.settings = m.settings →
      m'.heap.methods = m.heap.methods → Reports m m' →
      Transition (.request r) m .fetch m'
  /-- The innermost entry is given up and answers nil. -/
  | unwind {m m' : Machine} {why : Abort} {base : Nat} {entries : List Nat} :
      (m.entries = base :: entries ∨
        m.entries = [] ∧ entries = [] ∧ base = m.frames.toList.length) →
      m'.frames.toList = m.frames.toList.drop (m.frames.toList.length - base) →
      (∀ slot < m'.stackTop, m'.slot? slot = m.slot? slot) → m'.entries = entries →
      m'.settings = m.settings → m'.heap.methods = m.heap.methods →
      (∃ location, m'.log = m.log.push
        ⟨why.kind, s!"Execution abandoned: {why.message}", location⟩) →
      Transition (.abandon why) m (.reply .nil) m'
  /-- A failure of the host takes down the innermost entry. -/
  | propagate {m m' : Machine} {f : HostFault} {base : Nat} {entries : List Nat} :
      m.entries = base :: entries →
      m'.frames.toList = m.frames.toList.drop (m.frames.toList.length - base) →
      (∀ slot < m'.stackTop, m'.slot? slot = m.slot? slot) → m'.entries = entries →
      m'.settings = m.settings → m'.heap.methods = m.heap.methods → m'.log = m.log →
      Transition (.fault f) m (.fault f) m'

/-! ## Executing an instruction -/

/-- A machine that is about to execute an instruction of its innermost frame. -/
structure Executing (m : Machine) (f : Frame) (outer : List Frame) (i : Instruction) : Prop where
  frames : m.frames.toList = f :: outer
  decoded : Instruction.decode (m.heap.method f.method).code f.ip = .ok i
  fits : f.Fits m.heap m.settings (topOf outer)
  filled : ∀ slot < f.sp, ∃ v, m.slot? slot = some v

/-- The innermost frame of an executing machine after `taken` operands have been
taken from it. -/
def taking (f : Frame) (i : Instruction) (taken : Nat) : Frame :=
  { f with ip := i.next, sp := f.sp - taken }

theorem next_mem_successors {i : Instruction} (leaves : i.operation.pushes = 1) :
    (i.next : Int) ∈ i.successors := by
  unfold Instruction.successors
  cases h : i.operation <;> simp_all [Operation.pushes]

namespace Executing

variable {m n : Machine} {f : Frame} {outer : List Frame} {i : Instruction}

/-- An instruction that leaves a value leaves it, or there is no room. There is
room for as many values as it has taken. -/
theorem push (ex : Executing m f outer i)
    (st : Stands m n (taking f i i.operation.pops) outer)
    (covered : i.operation.pops ≤ f.depth) (leaves : i.operation.pushes = 1) (v : Value) :
    Transition .fetch m (n.push v).1 (n.push v).2 := by
  have depth := ex.fits.sp_eq
  have le := ex.fits.sp_le
  by_cases room : ((f.sp - i.operation.pops : Nat) : Int) < f.limit
  · obtain ⟨m', step, pushed⟩ := st.push room v
    rw [step]
    exact .produce ex.frames ex.decoded (next_mem_successors leaves) covered leaves room pushed
  · have none_taken : i.operation.pops = 0 := by omega
    have full : f.limit ≤ (f.sp : Int) := by omega
    rw [st.push_full (by simpa [taking] using by omega) v]
    exact .mishap ex.frames (.overflow ex.decoded none_taken leaves full)
      (show f.stackBase ≤ f.sp - i.operation.pops by omega) (Nat.sub_le _ _) st

/-- An instruction takes one more operand, or there is none. -/
theorem pop (ex : Executing m f outer i) {taken : Nat} (st : Stands m n (taking f i taken) outer)
    (covered : taken ≤ f.depth) (needs : taken < i.operation.pops)
    (go : Value → Machine → Activity × Machine)
    (each : ∀ v n', taken < f.depth → m.slot? (f.sp - (taken + 1)) = some v →
      n'.entries = n.entries →
      Stands m n' (taking f i (taken + 1)) outer → Transition .fetch m (go v n').1 (go v n').2) :
    Transition .fetch m (n.pop go).1 (n.pop go).2 := by
  have depth := ex.fits.sp_eq
  by_cases more : taken < f.depth
  · obtain ⟨v, filled⟩ := ex.filled (f.sp - (taken + 1)) (by omega)
    rw [st.pop (show f.stackBase < f.sp - taken by omega) filled go]
    exact each v _ more filled rfl (st.setTop (taking f i (taken + 1))
      (show f.sp - (taken + 1) ≤ f.sp - taken by omega))
  · rw [st.pop_empty (show f.sp - taken ≤ f.stackBase by omega) go]
    exact .mishap ex.frames (.underflow ex.decoded (.inl (by omega)))
      (show f.stackBase ≤ f.sp - taken by omega) (Nat.sub_le _ _) st

end Executing

end MessageMachine.Machine
