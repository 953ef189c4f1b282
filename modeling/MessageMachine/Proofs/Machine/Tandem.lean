/-
# Steps on mirrored heaps

Machines on mirrored heaps take the same steps, one for one, and come to the end together.
There is a lemma for each function that a step is made of; the step follows from them, and a
run by induction on its fuel. Since both heaps change alike with every step, a run has the
effect of one long change: in the end they mirror each other as before, and in between nothing
has been touched.
-/

import MessageMachine.Proofs.Machine.Lockstep
import MessageMachine.Proofs.Machine.Mirroring

namespace MessageMachine.Machine

open Heap (Carries)

variable {ρ : Renaming} {m n : Machine} {v : Value} {frame : Frame} {rest : List Frame}

/-- What comes of a message whose operands begin at a slot, when they have been given up. -/
def handled (m : Machine) (window count : Nat) (receiver : Value) (selector : String) :
    Activity × Machine :=
  match m.image.handler? m.heap (m.image.classOf m.heap receiver) selector with
  | .error f => (.fault f, m)
  | .ok none => (m.truncate window).notUnderstood receiver selector
  | .ok (some ⟨_, .primitive p⟩) =>
    match m.slots? window count with
    | none => (.fault .missing, m)
    | some args => (m.truncate window).callPrimitive p args
  | .ok (some ⟨_, .method r⟩) =>
    let target := m.heap.method r
    if target.argCount = count then m.proceed r window count
    else ((m.truncate window).wrongArity target.name target.argCount count).push .nil

theorem call_of_frames (frames : m.frames.toList = frame :: rest) (count offset : Nat) :
    m.call count offset =
      if count < 1 ∨ frame.sp < frame.stackBase + (count + 1) then
        (.abandon (.malformed (.at (.callWindow count) offset)), m)
      else
        let window := frame.sp - (count + 1)
        match m.slot? (frame.sp - 1), m.slot? window with
        | some selectorValue, some receiver =>
          let lowered := { m with frames := m.frames.setTop { frame with sp := window } }
          match selectorValue.asSymbol? with
          | none =>
            let message := s!"Selector is not a symbol: {m.heap.print selectorValue}"
            ((lowered.truncate window).report .messageNotUnderstood message).push .nil
          | some selector => lowered.handled window count receiver selector
        | _, _ => (.fault .missing, m) := by
  unfold call
  rw [frames]
  rfl

namespace Mirrors

variable (mirrors : m.Mirrors ρ n)
include mirrors

/-! ## Frames and operands -/

theorem fault (f : HostFault) : Tandem ρ m.heap n.heap (.fault f, m) (.fault f, n) :=
  .same mirrors (a := .fault f) trivial

theorem abandon (why : Abort) : Tandem ρ m.heap n.heap (.abandon why, m) (.abandon why, n) :=
  .same mirrors (a := .abandon why) trivial

theorem fetch : Tandem ρ m.heap n.heap (.fetch, m) (.fetch, n) :=
  .same mirrors (a := .fetch) trivial

theorem method_top (frames : m.frames.toList = frame :: rest) :
    (m.heap.method frame.method).Mirrors ρ (n.heap.method frame.method) :=
  mirrors.heap.method (mirrors.methods frame (frames ▸ List.mem_cons_self))

/-- The innermost frame goes on, or another one of the same method. -/
theorem setTop (frames : m.frames.toList = frame :: rest) (next : Frame)
    (same : next.method = frame.method) :
    ({ m with frames := m.frames.setTop next } : Machine).Mirrors ρ
      { n with frames := m.frames.setTop next } := by
  refine mirrors.setFrames fun f member => ?_
  rw [toList_setTop_cons frames] at member
  rcases List.mem_cons.1 member with rfl | outer
  · rw [same]
    exact mirrors.methods frame (frames ▸ List.mem_cons_self)
  · exact mirrors.methods f (frames ▸ List.mem_cons_of_mem _ outer)

theorem push (has : m.heap.Has v) :
    Tandem ρ m.heap n.heap (m.push v) (n.push (v.rename ρ)) := by
  unfold Machine.push
  rw [mirrors.frames]
  cases frames : m.frames.toList with
  | nil => exact mirrors.fault _
  | cons frame rest =>
    have method := mirrors.method_top frames
    simp only [method.name, method.maxStack]
    split
    · exact mirrors.abandon _
    · have raised := mirrors.setTop frames { frame with sp := frame.sp + 1 } rfl
      exact fetch (raised.setSegment (mirrors.segment.writeSlot frame.sp has))

/-- Popping is the same if what follows is. -/
theorem pop {go go' : Value → Machine → Activity × Machine}
    (following : ∀ v frames,
      ({ m with frames := frames } : Machine).Mirrors ρ { n with frames := frames } →
      m.heap.Has v →
      Tandem ρ m.heap n.heap (go v { m with frames := frames })
        (go' (v.rename ρ) { n with frames := frames })) :
    Tandem ρ m.heap n.heap (m.pop go) (n.pop go') := by
  unfold Machine.pop
  rw [mirrors.frames]
  cases frames : m.frames.toList with
  | nil => exact mirrors.fault _
  | cons frame rest =>
    have method := mirrors.method_top frames
    simp only [method.name, mirrors.slot?]
    split
    · exact mirrors.abandon _
    · cases held : m.slot? (frame.sp - 1) with
      | none => exact mirrors.fault _
      | some v =>
        have lowered := mirrors.setTop frames { frame with sp := frame.sp - 1 } rfl
        exact following v _ lowered (mirrors.segment.has _ v held)

/-! ## Calls -/

theorem wrongArity (name : String) (expected : Int) (actual : Nat) :
    (m.wrongArity name expected actual).Mirrors ρ (n.wrongArity name expected actual) :=
  mirrors.report _ _ _ _

theorem notUnderstood (has : m.heap.Has v) (selector : String) :
    Tandem ρ m.heap n.heap (m.notUnderstood v selector)
      (n.notUnderstood (v.rename ρ) selector) := by
  unfold Machine.notUnderstood
  rw [mirrors.image, Image.classOf_mirrored mirrors.heap, mirrors.heap.classAt,
    mirrors.heap.print has]
  exact .same (mirrors.report _ _ _ _) (a := .reply .nil) trivial

theorem callPrimitive (p : Ref .primitive) {args : List Value}
    (known : ∀ v ∈ args, m.heap.Has v) :
    Tandem ρ m.heap n.heap (m.callPrimitive p args)
      (n.callPrimitive p (args.map (·.rename ρ))) := by
  have performed := mirrors.perform (mirrors.standard p) (m.heap.primitive p).name known
  unfold Machine.callPrimitive
  simp only [mirrors.heap.primitive, List.length_map]
  split
  · split
    · exact performed
    · exact .same (mirrors.wrongArity _ _ _) (a := .reply .nil) trivial
  · exact performed

theorem slots? (start count : Nat) :
    n.slots? start count = (m.slots? start count).map (List.map (·.rename ρ)) ∧
      ∀ args, m.slots? start count = some args → ∀ v ∈ args, m.heap.Has v := by
  unfold Machine.slots?
  induction List.range' start count with
  | nil => exact ⟨rfl, fun args copied => by cases copied; exact fun v => nofun⟩
  | cons slot slots ih =>
    obtain ⟨copied, known⟩ := ih
    rw [List.mapM_cons, List.mapM_cons, copied, mirrors.slot?]
    cases first : m.slot? slot with
    | none => exact ⟨rfl, fun args => nofun⟩
    | some v =>
      cases others : slots.mapM m.slot? with
      | none => exact ⟨rfl, fun args => nofun⟩
      | some args =>
        refine ⟨rfl, fun all copied => ?_⟩
        cases copied
        exact List.forall_mem_cons.2 ⟨mirrors.segment.has _ v first, known args others⟩

theorem frameFor {r : Ref .method} (has : m.heap.Has (.callable (.method r)))
    (argBase argCount : Nat) : n.frameFor r argBase argCount = m.frameFor r argBase argCount := by
  have method := mirrors.heap.method has
  unfold Machine.frameFor
  simp only [mirrors.settings, mirrors.frames, method.name, method.maxStack]

theorem proceed {r : Ref .method} (has : m.heap.Has (.callable (.method r)))
    (argBase argCount : Nat) :
    Tandem ρ m.heap n.heap (m.proceed r argBase argCount) (n.proceed r argBase argCount) := by
  unfold Machine.proceed
  rw [mirrors.frameFor has, mirrors.frames]
  cases made : m.frameFor r argBase argCount with
  | error what => exact mirrors.abandon _
  | ok callee =>
    have method : callee.method = r := by
      unfold Machine.frameFor at made
      simp only at made
      split at made
      · cases made
      · split at made
        · cases made
        · cases made
          rfl
    have pushed : ∀ f ∈ (m.frames.push callee).toList,
        m.heap.Has (.callable (.method f.method)) :=
      List.forall_mem_cons.2 ⟨method ▸ has, mirrors.methods⟩
    exact fetch (mirrors.setFrames pushed)

theorem handled {receiver : Value} (has : m.heap.Has receiver) (window count : Nat)
    (selector : String) : Tandem ρ m.heap n.heap (m.handled window count receiver selector)
      (n.handled window count (receiver.rename ρ) selector) := by
  unfold Machine.handled
  rw [mirrors.image, Image.classOf_mirrored mirrors.heap, Image.handler?_mirrored mirrors.heap]
  cases found : m.image.handler? m.heap (m.image.classOf m.heap receiver) selector with
  | error f => exact mirrors.fault f
  | ok handler =>
    cases handler with
    | none => exact (mirrors.truncate window).notUnderstood has selector
    | some handler =>
      have callableHas := m.image.has_of_handler? mirrors.heap found
      obtain ⟨owner, callable⟩ := handler
      cases callable with
      | primitive p =>
        obtain ⟨copied, known⟩ := mirrors.slots? window count
        simp only [copied]
        cases args_eq : m.slots? window count with
        | none => exact mirrors.fault _
        | some args => exact (mirrors.truncate window).callPrimitive p (known args args_eq)
      | method r =>
        have method := mirrors.heap.method callableHas
        simp only [method.name, method.argCount]
        split
        · exact mirrors.proceed callableHas window count
        · exact ((mirrors.truncate window).wrongArity _ _ _).push (v := .nil) trivial

theorem call (count offset : Nat) :
    Tandem ρ m.heap n.heap (m.call count offset) (n.call count offset) := by
  cases frames : m.frames.toList with
  | nil =>
    have frames' : n.frames.toList = [] := mirrors.frames ▸ frames
    unfold Machine.call
    rw [frames, frames']
    exact mirrors.fault _
  | cons frame rest =>
    have frames' : n.frames.toList = frame :: rest := mirrors.frames ▸ frames
    rw [call_of_frames frames, call_of_frames frames']
    simp only [mirrors.slot?, mirrors.frames]
    split
    · exact mirrors.abandon _
    cases selectorHeld : m.slot? (frame.sp - 1) with
    | none => exact mirrors.fault _
    | some selectorValue =>
      cases receiverHeld : m.slot? (frame.sp - (count + 1)) with
      | none => exact mirrors.fault _
      | some receiver =>
        have selectorHas := mirrors.segment.has _ _ selectorHeld
        have receiverHas := mirrors.segment.has _ _ receiverHeld
        have lowered := mirrors.setTop frames { frame with sp := frame.sp - (count + 1) } rfl
        simp only [Option.map_some, Value.asSymbol?_rename, mirrors.heap.print selectorHas]
        cases selectorValue.asSymbol? with
        | none => exact ((lowered.truncate _).report _ _ _ _).push (v := .nil) trivial
        | some selector => exact lowered.handled receiverHas _ count selector

theorem leave (has : m.heap.Has v) :
    Tandem ρ m.heap n.heap (m.leave v) (n.leave (v.rename ρ)) := by
  unfold Machine.leave
  rw [mirrors.frames]
  cases frames : m.frames.toList with
  | nil => exact mirrors.fault _
  | cons frame rest =>
    have outer : ∀ f ∈ m.frames.pop.toList, m.heap.Has (.callable (.method f.method)) :=
      fun f member => mirrors.methods f (List.mem_of_mem_tail member)
    have cut := (mirrors.setFrames outer).setSegment (mirrors.segment.resize frame.argBase)
    have popped := cut.setEntries m.entries
    simp only [mirrors.entries]
    split
    · split
      · exact .same (cut.setEntries _) (a := .reply v) has
      · exact popped.push has
    · exact popped.push has

/-! ## Instructions -/

theorem jumpTo (target : Int) :
    Tandem ρ m.heap n.heap (.fetch, m.jumpTo target) (.fetch, n.jumpTo target) := by
  unfold Machine.jumpTo modifyFrame
  rw [mirrors.frames]
  cases frames : m.frames.toList with
  | nil => exact mirrors.fetch
  | cons frame rest => exact (mirrors.setTop frames { frame with ip := target } rfl).fetch

theorem lookup? (name : String) : n.image.globals.lookup? n.heap name =
    (m.image.globals.lookup? m.heap name).map (·.rename ρ) := by
  rw [mirrors.image]
  exact Environment.lookup?_mirrored mirrors.heap mirrors.scope mirrors.fixed name

theorem define (has : m.heap.Has v) (name : String) :
    Carries ρ m.heap n.heap (m.image.globals.define m.heap name v)
      (n.image.globals.define n.heap name (v.rename ρ)) := by
  rw [mirrors.image]
  exact Environment.carries_define mirrors.heap mirrors.scope mirrors.fixed has name

theorem execute_loadGlobal (frame : Frame) (offset next : Nat) :
    Tandem ρ m.heap n.heap (m.execute frame ⟨offset, .loadGlobal, next⟩)
      (n.execute frame ⟨offset, .loadGlobal, next⟩) := by
  unfold Machine.execute
  refine mirrors.pop fun nameValue frames popped has => ?_
  simp only [Value.asSymbol?_rename, mirrors.heap.print has]
  cases nameValue.asSymbol? with
  | none => exact (popped.report _ _ _ _).push (v := .nil) trivial
  | some name =>
    simp only [Environment.lookupOrNil, mirrors.lookup?]
    cases found : m.image.globals.lookup? m.heap name with
    | some v =>
      exact popped.push (Environment.has_of_lookup? mirrors.heap mirrors.scope found)
    | none => exact (popped.note _ _ _ _).push (v := .nil) trivial

theorem execute_defineGlobal (frame : Frame) (offset next : Nat) :
    Tandem ρ m.heap n.heap (m.execute frame ⟨offset, .defineGlobal, next⟩)
      (n.execute frame ⟨offset, .defineGlobal, next⟩) := by
  unfold Machine.execute
  refine mirrors.pop fun v frames popped value => ?_
  refine popped.pop fun nameValue frames' popped' has => ?_
  simp only [Value.asSymbol?_rename, mirrors.heap.print has]
  cases nameValue.asSymbol? with
  | none => exact popped'.abandon _
  | some name =>
    have carries := mirrors.define value name
    exact ((popped'.setHeap carries).push (value.mono carries.widens)).after carries

theorem execute {frame : Frame} {rest : List Frame} (frames : m.frames.toList = frame :: rest)
    (i : Instruction) : Tandem ρ m.heap n.heap (m.execute frame i) (n.execute frame i) := by
  have method := mirrors.method_top frames
  obtain ⟨offset, operation, next⟩ := i
  cases operation with
  | loadGlobal => exact mirrors.execute_loadGlobal frame offset next
  | defineGlobal => exact mirrors.execute_defineGlobal frame offset next
  | nop => exact mirrors.fetch
  | call count => exact mirrors.call count offset
  | leave =>
    unfold Machine.execute
    exact mirrors.pop fun result frames popped has => popped.leave has
  | pop =>
    unfold Machine.execute
    exact mirrors.pop fun _ frames popped _ => popped.fetch
  | loadConstant index =>
    unfold Machine.execute
    simp only [method.constants, Array.getElem?_map]
    cases found : (m.heap.method frame.method).constants[index]? with
    | none => exact mirrors.abandon _
    | some v =>
      have here := mirrors.methods frame (frames ▸ List.mem_cons_self)
      exact mirrors.push (mirrors.heap.closed.constant here found)
  | loadArgument index =>
    unfold Machine.execute
    simp only [mirrors.slot?]
    split
    · exact mirrors.abandon _
    · cases held : m.slot? (frame.argBase + index) with
      | none => exact mirrors.fault _
      | some v => exact mirrors.push (mirrors.segment.has _ v held)
  | jump distance => exact mirrors.jumpTo _
  | jumpIfFalse distance =>
    unfold Machine.execute
    refine mirrors.pop fun v frames popped _ => ?_
    simp only [Value.truthy_rename]
    split
    · exact popped.fetch
    · exact popped.jumpTo _

theorem traceInstruction {frame : Frame} {rest : List Frame}
    (frames : m.frames.toList = frame :: rest) (i : Instruction) :
    (m.traceInstruction frame i).Mirrors ρ (n.traceInstruction frame i) := by
  have line : n.traceLine frame i = m.traceLine frame i := by
    unfold traceLine
    simp only [mirrors.frames, (mirrors.method_top frames).name]
  have trace : n.settings.trace = m.settings.trace := congrArg Settings.trace mirrors.settings
  unfold Machine.traceInstruction
  rw [line, trace]
  split
  · exact mirrors.note _ _ _ _
  · exact mirrors

omit mirrors in
theorem traceInstruction_keeps (m : Machine) (frame : Frame) (i : Instruction) :
    (m.traceInstruction frame i).heap = m.heap ∧
      (m.traceInstruction frame i).frames = m.frames := by
  unfold Machine.traceInstruction
  split
  · exact ⟨rfl, rfl⟩
  · exact ⟨rfl, rfl⟩

theorem executeNext : Tandem ρ m.heap n.heap m.executeNext n.executeNext := by
  unfold Machine.executeNext
  rw [mirrors.frames]
  cases frames : m.frames.toList with
  | nil => exact mirrors.fault _
  | cons frame rest =>
    simp only [(mirrors.method_top frames).code]
    cases Instruction.decode (m.heap.method frame.method).code frame.ip with
    | error fault => exact mirrors.abandon _
    | ok i =>
      have moved := mirrors.setTop frames { frame with ip := i.next } rfl
      have frames' := toList_setTop_cons frames { frame with ip := i.next }
      have traced := moved.traceInstruction frames' i
      obtain ⟨heap, kept⟩ := traceInstruction_keeps
        { m with frames := m.frames.setTop { frame with ip := i.next } }
        { frame with ip := i.next } i
      obtain ⟨heap', -⟩ := traceInstruction_keeps
        { n with frames := m.frames.setTop { frame with ip := i.next } }
        { frame with ip := i.next } i
      have executed := traced.execute ((congrArg FrameStack.toList kept).trans frames') i
      rw [heap, heap'] at executed
      exact executed

/-! ## Entries -/

theorem stackTop : n.stackTop = m.stackTop := by
  unfold Machine.stackTop
  rw [mirrors.frames]

/-- Only the outermost frames go on, with what is theirs of the segment. -/
theorem keepFrames (base : Nat) :
    (Machine.truncate { m with frames := m.frames.keep base }
      (Machine.stackTop { m with frames := m.frames.keep base })).Mirrors ρ
    (Machine.truncate { n with frames := m.frames.keep base }
      (Machine.stackTop { n with frames := m.frames.keep base })) := by
  have outer : ∀ f ∈ (m.frames.keep base).toList, m.heap.Has (.callable (.method f.method)) := by
    intro f member
    rw [FrameStack.toList_keep] at member
    exact mirrors.methods f (List.mem_of_mem_drop member)
  have kept := mirrors.setFrames outer
  rw [kept.stackTop]
  exact kept.truncate _

theorem unwind (base : Nat) (why : Abort) :
    Tandem ρ m.heap n.heap (m.unwind base why) (n.unwind base why) := by
  unfold Machine.unwind
  rw [mirrors.frames]
  exact .same ((mirrors.keepFrames base).report _ _ _ _) (a := .reply .nil) trivial

theorem abandonEntry (why : Abort) :
    Tandem ρ m.heap n.heap (m.abandonEntry why) (n.abandonEntry why) := by
  unfold Machine.abandonEntry
  rw [mirrors.entries]
  cases m.entries with
  | nil =>
    rw [mirrors.frames]
    exact mirrors.unwind _ why
  | cons base entries => exact (mirrors.setEntries entries).unwind base why

theorem openEntry : m.openEntry.Mirrors ρ n.openEntry := by
  have opened : n.openEntry = { n with entries := m.frames.size :: m.entries } := by
    unfold Machine.openEntry
    rw [mirrors.frames, mirrors.entries]
  rw [opened]
  exact mirrors.setEntries _

theorem begin {r : Ref .method} (has : m.heap.Has (.callable (.method r)))
    (argBase argCount : Nat) :
    Tandem ρ m.heap n.heap (m.begin r argBase argCount) (n.begin r argBase argCount) :=
  mirrors.openEntry.proceed has argBase argCount

theorem invokeCallable {callable : Callable} {args : List Value}
    (has : m.heap.Has (.callable callable)) (known : ∀ v ∈ args, m.heap.Has v) :
    Tandem ρ m.heap n.heap (m.invokeCallable callable args)
      (n.invokeCallable callable (args.map (·.rename ρ))) := by
  unfold Machine.invokeCallable
  cases callable with
  | primitive p =>
    have called := mirrors.callPrimitive p known
    simp only
    generalize m.callPrimitive p args = next at called ⊢
    generalize n.callPrimitive p (args.map (·.rename ρ)) = next' at called ⊢
    obtain ⟨activity, m'⟩ := next
    obtain ⟨activity', n'⟩ := next'
    obtain rfl : activity' = activity.rename ρ := called.activity
    cases activity with
    | abandon why => exact ⟨rfl, trivial, called.mirrors.openEntry, called.carries⟩
    | _ => exact called
  | method r =>
    have method := mirrors.heap.method has
    simp only [method.name, method.argCount, List.length_map, mirrors.stackTop]
    split
    · have written := mirrors.setSegment (mirrors.segment.writeArgs m.stackTop known)
      exact written.begin has _ _
    · exact .same (mirrors.wrongArity _ _ _) (a := .reply .nil) trivial

theorem enter {r : Request} (known : r.Known m.heap) :
    Tandem ρ m.heap n.heap (m.enter r) (n.enter (r.rename ρ)) := by
  cases r with
  | execute program =>
    have method := mirrors.heap.method known
    unfold Machine.enter
    simp only [Request.rename, method.name, method.argCount, mirrors.stackTop]
    split
    · exact mirrors.begin known _ _
    · exact .same (mirrors.report _ _ _ _) (a := .reply .nil) trivial
  | send receiver selector args =>
    obtain ⟨receiverHas, argsKnown⟩ := known
    unfold Machine.enter
    simp only [Request.rename]
    rw [mirrors.image, Image.classOf_mirrored mirrors.heap, Image.handler?_mirrored mirrors.heap]
    cases found : m.image.handler? m.heap (m.image.classOf m.heap receiver) selector with
    | error f => exact mirrors.fault f
    | ok handler =>
      cases handler with
      | none => exact mirrors.notUnderstood receiverHas selector
      | some handler =>
        have has := m.image.has_of_handler? mirrors.heap found
        exact mirrors.invokeCallable has (List.forall_mem_cons.2 ⟨receiverHas, argsKnown⟩)
  | invoke callable args => exact mirrors.invokeCallable known.1 known.2

end Mirrors

/-! ## Steps and runs -/

def Completion.rename (ρ : Renaming) : Completion → Completion
  | .answer v => .answer (v.rename ρ)
  | .fault f => .fault f

/-- A machine and one on a mirrored heap have gone on with the same. -/
inductive Progress.Tandem (ρ : Renaming) (h h' : Heap) : Progress → Progress → Prop
  | running {next next' : Activity × Machine} : Machine.Tandem ρ h h' next next' →
      Tandem ρ h h' (.ofActivity next) (.ofActivity next')
  | finished {completion : Completion} {m n : Machine} : m.Mirrors ρ n →
      Carries ρ h h' m.heap n.heap → (∀ v, completion = .answer v → m.heap.Has v) →
      Tandem ρ h h' (.finished completion m) (.finished (completion.rename ρ) n)

theorem Mirrors.step (mirrors : m.Mirrors ρ n) {a : Activity} (known : a.Known m.heap) :
    Progress.Tandem ρ m.heap n.heap (step a m) (step (a.rename ρ) n) := by
  unfold Machine.step
  cases a with
  | fetch => exact .running mirrors.executeNext
  | request r => exact .running (mirrors.enter known)
  | abandon why => exact .running (mirrors.abandonEntry why)
  | reply v =>
    simp only [Activity.rename, mirrors.entries]
    split
    · refine .finished mirrors (.refl mirrors.heap) fun w answered => ?_
      cases answered
      exact known
    · exact .running (mirrors.push known)
  | fault f =>
    simp only [Activity.rename]
    rw [mirrors.entries, mirrors.frames]
    cases m.entries with
    | nil => exact .finished mirrors (.refl mirrors.heap) fun w => nofun
    | cons base entries =>
      have gone := ((mirrors.setEntries entries).keepFrames base).fault f
      exact .running gone

theorem Mirrors.run (mirrors : m.Mirrors ρ n) {a : Activity} (known : a.Known m.heap)
    (fuel : Nat) :
    (run fuel (a.rename ρ) n).1 = (run fuel a m).1.map (·.rename ρ) ∧
      (run fuel a m).2.Mirrors ρ (run fuel (a.rename ρ) n).2 ∧
      Carries ρ m.heap n.heap (run fuel a m).2.heap (run fuel (a.rename ρ) n).2.heap ∧
      ∀ v, (run fuel a m).1 = some (.answer v) → (run fuel a m).2.heap.Has v := by
  induction fuel generalizing a m n with
  | zero => exact ⟨rfl, mirrors, .refl mirrors.heap, fun v => nofun⟩
  | succ fuel ih =>
    have stepped := mirrors.step known
    rw [Machine.run, Machine.run]
    generalize Machine.step a m = next at stepped ⊢
    generalize Machine.step (a.rename ρ) n = next' at stepped ⊢
    cases stepped with
    | @running next next' tandem =>
      obtain ⟨ended, mirrors', carries, has⟩ := ih tandem.mirrors tandem.known
      rw [← tandem.activity] at ended mirrors' carries
      exact ⟨ended, mirrors', tandem.carries.trans carries, has⟩
    | finished mirrors carries has =>
      exact ⟨rfl, mirrors, carries, fun v answered => has v (Option.some.inj answered)⟩

end MessageMachine.Machine
