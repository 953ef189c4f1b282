/-
# Steps are transitions

The inversion of the step function. A step of a sound machine is one of the
outcomes that `Transition` lists. This is the only module that opens the
interpreter; the instructions come first, one lemma for each kind, then requests
and the two ways of giving an entry up.

Soundness is used for four things. Operands that are there hold values, a frame
that has popped has room to push again, a caller has room for the result that is
returned to it, and an entry whose first frame returns is the innermost one.
-/

import MessageMachine.Proofs.Machine.Transition

namespace MessageMachine.Machine

/-! ## Calls -/

/-- A range of slots that hold values. -/
theorem slots?_eq_some (m : Machine) (start count : Nat)
    (filled : ∀ slot < start + count, ∃ v, m.slot? slot = some v) :
    ∃ values, m.slots? start count = some values := by
  unfold slots?
  have each : ∀ slot ∈ List.range' start count, ∃ v, m.slot? slot = some v := by
    intro slot inside
    obtain ⟨offset, lt, rfl⟩ := List.mem_range'.1 inside
    exact filled _ (by omega)
  generalize List.range' start count = places at each
  induction places with
  | nil => exact ⟨[], rfl⟩
  | cons slot rest ih =>
    obtain ⟨v, here⟩ := each slot (List.mem_cons_self ..)
    obtain ⟨values, there⟩ := ih fun other inside => each other (List.mem_cons_of_mem _ inside)
    refine ⟨v :: values, ?_⟩
    rw [List.mapM_cons, here, there]
    rfl

namespace Executing

variable {m n : Machine} {f : Frame} {outer : List Frame} {i : Instruction} {count : Nat}

/-- What answers a call from outside the code leaves the caller waiting. -/
theorem await (ex : Executing m f outer i) (calls : i.operation = .call count)
    (positive : 1 ≤ count) (covered : count + 1 ≤ f.depth)
    (st : Stands m n (taking f i (count + 1)) outer) {next : Activity × Machine}
    (ans : Answers n next) : Transition .fetch m next.1 next.2 :=
  .await ex.frames ex.decoded calls positive covered ans.not_fetch ans.overflow
    (st.undisturbed ans.undisturbed)

/-- A call of a method binds a frame over its arguments, or some limit forbids it. -/
theorem enterMethod (ex : Executing m f outer i) (calls : i.operation = .call count)
    (positive : 1 ≤ count) (covered : count + 1 ≤ f.depth)
    (st : Stands m n (taking f i (count + 1)) outer)
    (kept : ∀ slot < f.sp, n.slot? slot = m.slot? slot) {r : Ref .method}
    (arity : (n.heap.method r).argCount = count) :
    Transition .fetch m
      (match n.frameFor r (f.sp - (count + 1)) count with
        | .error what => ((.abandon (.exhausted what), n) : Activity × Machine)
        | .ok callee => (.fetch, { n with frames := n.frames.push callee })).1
      (match n.frameFor r (f.sp - (count + 1)) count with
        | .error what => ((.abandon (.exhausted what), n) : Activity × Machine)
        | .ok callee => (.fetch, { n with frames := n.frames.push callee })).2 := by
  have depth := ex.fits.sp_eq
  have lowered : f.stackBase ≤ f.sp - (count + 1) := by omega
  have same : n.heap.method r = m.heap.method r := by
    unfold Heap.method
    rw [st.methods]
  rcases n.frameFor_cases r (f.sp - (count + 1)) count with ⟨made, room⟩ | refused | refused
  · rw [made]
    have many : n.frames.toList.length = m.frames.toList.length := by
      rw [st.frames, ex.frames]
      rfl
    have room' : m.HasRoom r (f.sp - (count + 1)) count := by
      refine ⟨?_, ?_⟩
      · rw [← many, ← st.settings]
        exact room.frames
      · rw [← same, ← st.settings]
        exact room.slots
    refine .call ex.frames ex.decoded calls positive covered (same ▸ arity) room' ?_ kept
      st.entries st.settings st.methods st.reports
    rw [FrameStack.toList_push, st.frames]
    simp only [entering, same, taking]
  · rw [refused]
    exact .mishap ex.frames (.frames ex.decoded calls) lowered (Nat.sub_le _ _) st
  · rw [refused]
    exact .mishap ex.frames (.segment ex.decoded calls) lowered (Nat.sub_le _ _) st

/-- The call instruction. -/
theorem call (ex : Executing m f outer i) (st : Stands m n (taking f i 0) outer)
    (calls : i.operation = .call count) :
    Transition .fetch m (n.call count i.offset).1 (n.call count i.offset).2 := by
  have depth := ex.fits.sp_eq
  have taken : i.operation.pops = count + 1 := by rw [calls]; rfl
  have leaves : i.operation.pushes = 1 := by rw [calls]; rfl
  unfold Machine.call
  simp only [st.frames]
  by_cases unfit : count < 1 ∨ (taking f i 0).sp < (taking f i 0).stackBase + (count + 1)
  · rw [if_pos unfit]
    refine .mishap ex.frames (.underflow ex.decoded ?_) ex.fits.stackBase_le (Nat.le_refl _) st
    rcases unfit with zero | short
    · right
      rw [calls, show count = 0 by omega]
    · left
      have : f.sp - 0 < f.stackBase + (count + 1) := short
      omega
  · rw [if_neg unfit]
    have positive : 1 ≤ count := by omega
    have covered : count + 1 ≤ f.depth := by
      have : ¬ f.sp - 0 < f.stackBase + (count + 1) := fun lt => unfit (.inr lt)
      omega
    have kept : ∀ slot < f.sp, n.slot? slot = m.slot? slot := st.kept
    have filled : ∀ slot < f.sp, ∃ v, n.slot? slot = some v := by
      intro slot lt
      rw [kept slot lt]
      exact ex.filled slot lt
    obtain ⟨selectorValue, top⟩ := filled (f.sp - 1) (by omega)
    obtain ⟨receiver, first⟩ := filled (f.sp - (count + 1)) (by omega)
    have top' : n.slot? ((taking f i 0).sp - 1) = some selectorValue := top
    have first' : n.slot? ((taking f i 0).sp - (count + 1)) = some receiver := first
    rw [top', first']
    have lowered := st.setTop (taking f i (count + 1)) (Nat.sub_le _ _)
    have cut := lowered.truncate
    have pushing : ∀ {n' : Machine}, Stands m n' (taking f i (count + 1)) outer →
        Transition .fetch m (n'.push .nil).1 (n'.push .nil).2 := by
      intro n' st'
      exact ex.push (taken ▸ st') (taken ▸ covered) leaves .nil
    simp only
    split
    · exact pushing (cut.undisturbed (undisturbed_report _ _ _ (by decide)))
    · split
      · exact ex.await calls positive covered lowered (answers_fault _ _)
      · exact ex.await calls positive covered cut (answers_notUnderstood _ _ _)
      · split
        · next missing =>
          obtain ⟨args, found⟩ := slots?_eq_some n (f.sp - (count + 1)) count
            fun slot lt => filled slot (by omega)
          exact absurd (found.symm.trans missing) (by simp)
        · exact ex.await calls positive covered cut (answers_callPrimitive _ _ _)
      · split
        · next arity => exact ex.enterMethod calls positive covered lowered kept arity
        · exact pushing (cut.undisturbed (answers_wrongArity _ _ _ _).undisturbed)

/-- The return instruction. Whether the frame is the first of its entry decides
who receives the result. -/
theorem leave (ex : Executing m f outer i) (sound : Sound .fetch m)
    (leaves : i.operation = .leave) (covered : 1 ≤ f.depth)
    (st : Stands m n (taking f i 1) outer) (v : Value) :
    Transition .fetch m (n.leave v).1 (n.leave v).2 := by
  have depth := ex.fits.sp_eq
  have first := ex.fits.stackBase_eq
  have nested : Nested (outer.length + 1) m.entries := by
    have fit := sound.entries.nested (by simp)
    rwa [ex.frames] at fit
  have kept : ∀ slot < f.argBase, ((resize n.segment f.argBase)[slot]?).join = m.slot? slot := by
    intro slot lt
    rw [slot_resize, if_pos lt]
    exact st.kept slot (show slot < f.sp - 1 by omega)
  have rest : n.frames.pop.toList = outer := by
    rw [FrameStack.toList_pop, st.frames]
    rfl
  unfold Machine.leave
  simp only [st.frames]
  rw [st.entries]
  cases open_ : m.entries with
  | nil =>
    rw [open_] at nested
    exact absurd nested (by simp [Nested])
  | cons base entries =>
    rw [open_] at nested
    have size : n.frames.pop.size = outer.length := by rw [FrameStack.size_eq, rest]
    simp only [size]
    by_cases last : outer.length = base
    · rw [if_pos last]
      exact .handOut ex.frames ex.decoded leaves covered (last ▸ open_) rest kept rfl st.settings
        st.methods st.reports
    · rw [if_neg last]
      cases outer with
      | nil =>
        have lt : base < 1 := nested.1
        exact absurd (show ([] : List Frame).length = base by simp; omega) last
      | cons g outer =>
        have base_lt : base < outer.length + 1 := by
          have lt : base < outer.length + 1 + 1 := nested.1
          have ne : outer.length + 1 ≠ base := last
          omega
        have top : f.argBase = g.sp := ex.fits.argBase_eq
        have room : (g.sp : Int) < g.limit :=
          (sound.waiting g (by rw [ex.frames]; exact List.mem_cons_self ..)).room
        have stands : Stands m { n with
            frames := n.frames.pop
            segment := resize n.segment (taking f i 1).argBase
            entries := base :: entries } g outer :=
          ⟨rest, fun slot lt => kept slot (top ▸ lt), open_.symm, st.settings, st.methods,
            st.reports⟩
        obtain ⟨m', step, pushed⟩ := stands.push room v
        rw [step]
        exact .giveBack ex.frames ex.decoded leaves covered
          (show Nested _ m.entries from open_ ▸ ⟨base_lt, nested.2⟩) pushed

/-! ## Instructions -/

/-- An instruction that leaves no value, with control going to one of its successors. -/
theorem advance (ex : Executing m f outer i) (st : Stands m n (taking f i i.operation.pops) outer)
    (covered : i.operation.pops ≤ f.depth) (leaves : i.operation.pushes = 0)
    (flows : (i.next : Int) ∈ i.successors) : Transition .fetch m .fetch n :=
  .advance ex.frames ex.decoded flows covered leaves st

/-- A jump that is taken. -/
theorem jumpTo (ex : Executing m f outer i) (st : Stands m n (taking f i i.operation.pops) outer)
    (covered : i.operation.pops ≤ f.depth) (leaves : i.operation.pushes = 0)
    (flows : i.jumpTarget ∈ i.successors) :
    Transition .fetch m .fetch (n.jumpTo i.jumpTarget) := by
  unfold Machine.jumpTo modifyFrame
  simp only [st.frames]
  exact .advance ex.frames ex.decoded flows covered leaves
    (st.setTop { f with ip := i.jumpTarget, sp := f.sp - i.operation.pops } (Nat.le_refl _))

/-- An unbound name is a recoverable problem. -/
theorem recoverable_of_lookupOrNil {h : Heap} {e : Environment} {name : String}
    {location : Option Location} {v : Value} {d : Diagnostic}
    (reported : e.lookupOrNil h name location = (v, some d)) : d.Recoverable := by
  unfold Environment.lookupOrNil at reported
  split at reported
  · cases reported
  · cases reported
    exact ⟨Diagnostic.Kind.noConfusion, Diagnostic.Kind.noConfusion⟩

/-- Executing an instruction. -/
theorem execute (ex : Executing m f outer i) (sound : Sound .fetch m)
    (st : Stands m n (taking f i 0) outer) :
    Transition .fetch m (n.execute { f with ip := i.next } i).1
      (n.execute { f with ip := i.next } i).2 := by
  have depth := ex.fits.sp_eq
  have same : n.heap.method f.method = m.heap.method f.method := by
    unfold Heap.method
    rw [st.methods]
  obtain ⟨offset, operation, next⟩ := i
  unfold Machine.execute
  cases operation with
  | nop =>
    exact ex.advance st (Nat.zero_le _) rfl (by simp [Instruction.successors])
  | loadConstant index =>
    simp only
    split
    · exact ex.push st (Nat.zero_le _) rfl _
    · next missing =>
      rw [same, Array.getElem?_eq_none_iff] at missing
      exact .mishap ex.frames (.constant ex.decoded rfl missing) ex.fits.stackBase_le
        (Nat.le_refl _) st
  | loadGlobal =>
    refine ex.pop st (Nat.zero_le _) (Nat.one_pos) _ fun nameValue n' covered _ _ st' => ?_
    simp only
    split
    · exact ex.push (st'.undisturbed (undisturbed_report _ _ _ (by decide))) covered rfl _
    · split
      · exact ex.push st' covered rfl _
      · next reported =>
        refine ex.push (st'.undisturbed (undisturbed_note _ ?_)) covered rfl _
        exact recoverable_of_lookupOrNil reported
  | call count => exact ex.call st rfl
  | leave =>
    refine ex.pop st (Nat.zero_le _) (Nat.one_pos) _ fun result n' covered _ _ st' => ?_
    exact ex.leave sound rfl covered st' result
  | loadArgument index =>
    simp only
    split
    · next beyond =>
      exact .mishap ex.frames (.argument ex.decoded rfl beyond) ex.fits.stackBase_le
        (Nat.le_refl _) st
    · next within =>
      have first := ex.fits.stackBase_eq
      have below : f.argBase + index < f.sp := by omega
      obtain ⟨v, filled⟩ := ex.filled _ below
      have here : n.slot? (f.argBase + index) = some v := (st.kept _ below).trans filled
      simp only [here]
      exact ex.push st (Nat.zero_le _) rfl _
  | pop =>
    refine ex.pop st (Nat.zero_le _) (Nat.one_pos) _ fun _ n' covered _ _ st' => ?_
    exact ex.advance st' covered rfl (by simp [Instruction.successors])
  | defineGlobal =>
    refine ex.pop st (Nat.zero_le _) (Nat.two_pos) _ fun v n' one _ _ st' => ?_
    refine ex.pop st' one (Nat.one_lt_two) _ fun nameValue n'' covered filled _ st'' => ?_
    simp only
    split
    · next notSymbol =>
      exact .mishap ex.frames (.name ex.decoded rfl filled notSymbol)
        (show f.stackBase ≤ f.sp - 2 by omega) (Nat.sub_le _ _) st''
    · exact ex.push (st''.undisturbed (undisturbed_heap n'' (n''.image.globals.define n''.heap _ v)
        n''.image rfl rfl)) covered rfl _
  | jump distance =>
    exact ex.jumpTo st (Nat.zero_le _) rfl (by simp [Instruction.successors])
  | jumpIfFalse distance =>
    refine ex.pop st (Nat.zero_le _) (Nat.one_pos) _ fun v n' covered _ _ st' => ?_
    simp only
    split
    · exact ex.advance st' covered rfl (by simp [Instruction.successors])
    · exact ex.jumpTo st' covered rfl (by simp [Instruction.successors])

end Executing

/-- Fetching and executing. -/
theorem transition_executeNext {m : Machine} (sound : Sound .fetch m) :
    Transition .fetch m m.executeNext.1 m.executeNext.2 := by
  obtain ⟨f, outer, frames⟩ := List.exists_cons_of_ne_nil (sound.running rfl)
  have windows := sound.windows
  rw [frames] at windows
  have top : m.stackTop = f.sp := by rw [stackTop_eq, frames, topOf_cons]
  unfold executeNext
  simp only [frames]
  split
  · next fault decoded =>
    exact .mishap frames (.undecodable decoded) windows.fits.stackBase_le (Nat.le_refl _)
      (.refl frames)
  · next i decoded =>
    have ex : Executing m f outer i :=
      ⟨frames, decoded, windows.fits, fun slot lt => sound.filled slot (top ▸ lt)⟩
    have st := (Stands.refl frames).setTop (taking f i 0) (Nat.le_refl _)
    exact ex.execute sound (st.undisturbed (undisturbed_traceInstruction _ _ _))

/-! ## Requests -/

theorem slot_writeArgs (args : List Value) (segment : Array (Option Value)) (start other : Nat) :
    ((writeArgs segment start args)[other]?).join =
      if start ≤ other ∧ other < start + args.length then args[other - start]?
      else (segment[other]?).join := by
  induction args generalizing segment start with
  | nil =>
    rw [if_neg (by simp)]
    rfl
  | cons v rest ih =>
    rw [writeArgs, ih, slot_writeSlot]
    by_cases within : start + 1 ≤ other ∧ other < start + 1 + rest.length
    · have step : other - start = (other - (start + 1)) + 1 := by omega
      rw [if_pos within, if_pos (by simp; omega), step, List.getElem?_cons_succ]
    · rw [if_neg within]
      by_cases first : other = start
      · subst first
        simp
      · rw [if_neg first, if_neg (by simp; omega)]

/-- Beginning an entry for a method, over arguments that were written on top of
everything live. -/
theorem transition_begin {m n : Machine} {r : Request} {method : Ref .method}
    (frames : n.frames = m.frames) (entries : n.entries = m.entries)
    (settings : n.settings = m.settings) (methods : n.heap.methods = m.heap.methods)
    (kept : ∀ slot < m.stackTop, n.slot? slot = m.slot? slot)
    (written : ∀ index < r.args.length, n.slot? (m.stackTop + index) = r.args[index]?)
    (arity : (m.heap.method method).argCount = r.args.length) (reports : Reports m n) :
    Transition (.request r) m (n.begin method m.stackTop r.args.length).1
      (n.begin method m.stackTop r.args.length).2 := by
  have same : n.heap.method method = m.heap.method method := by
    unfold Heap.method
    rw [methods]
  have opened : n.openEntry.entries = m.frames.toList.length :: m.entries := by
    rw [← FrameStack.size_eq, ← frames, ← entries]
    rfl
  unfold Machine.begin
  rcases n.frameFor_cases method m.stackTop r.args.length with ⟨made, room⟩ | refused | refused
  · rw [made]
    refine .begin arity ⟨?_, ?_⟩ ?_ kept written opened settings methods reports
    · rw [← frames, ← settings]
      exact room.frames
    · rw [← same, ← settings]
      exact room.slots
    · rw [FrameStack.toList_push, frames]
      simp only [entering, same]
  · rw [refused]
    exact .refuse frames kept opened settings methods (by simp) (by simp) reports
  · rw [refused]
    exact .refuse frames kept opened settings methods (by simp) (by simp) reports

/-- What answers a request without running code. -/
theorem transition_answers {m : Machine} {r : Request} {next : Activity × Machine}
    (ans : Answers m next) (settled : ∀ why, next.1 ≠ .abandon why) :
    Transition (.request r) m next.1 next.2 :=
  .respond ans.undisturbed ans.not_fetch settled

/-- Calling a function from outside the code. -/
theorem transition_invokeCallable {m : Machine} {r : Request} (callable : Callable) :
    Transition (.request r) m (m.invokeCallable callable r.args).1
      (m.invokeCallable callable r.args).2 := by
  cases callable with
  | primitive p =>
    have ans := answers_callPrimitive m p r.args
    unfold invokeCallable
    simp only
    split
    · next why m' answered =>
      rw [answered] at ans
      obtain ⟨what, rfl⟩ := ans.overflow why rfl
      have u := ans.undisturbed
      refine .refuse u.frames (fun slot _ => u.slot? slot) ?_ u.settings u.methods (by simp)
        (by simp) u.reports
      rw [← FrameStack.size_eq, ← u.frames, ← u.entries]
      rfl
    · next settled =>
      refine transition_answers ans fun why abandoned => ?_
      exact settled why _ (Prod.ext abandoned rfl)
  | method method =>
    unfold invokeCallable
    simp only
    split
    · next arity =>
      refine transition_begin rfl rfl rfl rfl (fun slot lt => ?_) (fun index lt => ?_) arity
        (.of_eq rfl)
      · simp only [slot?, slot_writeArgs]
        rw [if_neg (by omega)]
      · simp only [slot?, slot_writeArgs]
        rw [if_pos (by omega), Nat.add_sub_cancel_left]
    · exact transition_answers (answers_wrongArity m _ _ _) (by simp)

/-- Beginning what a request asks for. -/
theorem transition_enter (m : Machine) (r : Request) :
    Transition (.request r) m (m.enter r).1 (m.enter r).2 := by
  unfold enter
  cases r with
  | execute program =>
    simp only
    split
    · next arity =>
      exact transition_begin (r := .execute program) rfl rfl rfl rfl (fun _ _ => rfl)
        (fun _ lt => absurd lt (Nat.not_lt_zero _)) arity (.of_eq rfl)
    · exact transition_answers (answers_reply (undisturbed_report m _ _ (by decide)) _) (by simp)
  | send receiver selector args =>
    simp only
    split
    · exact transition_answers (answers_fault m _) (by simp)
    · exact transition_answers (answers_notUnderstood m _ _) (by simp [notUnderstood])
    · exact transition_invokeCallable _
  | invoke callable args => exact transition_invokeCallable callable

/-! ## Giving up -/

/-- Cutting the segment off above everything live changes nothing that is. -/
theorem slot?_truncate_stackTop (m : Machine) (slot : Nat) (live : slot < m.stackTop) :
    (m.truncate m.stackTop).slot? slot = m.slot? slot := by
  simp only [slot?, truncate, slot_resize]
  rw [if_pos live]

/-- Unwinding the innermost entry. -/
theorem transition_abandonEntry (m : Machine) (why : Abort) :
    Transition (.abandon why) m (m.abandonEntry why).1 (m.abandonEntry why).2 := by
  unfold abandonEntry
  split
  · next base entries open_ =>
    have kept := slot?_truncate_stackTop
      { m with entries := entries, frames := m.frames.keep base }
    exact .unwind (.inl open_) (FrameStack.toList_keep _ _) kept rfl rfl rfl ⟨_, rfl⟩
  · next none_open =>
    have kept := slot?_truncate_stackTop { m with frames := m.frames.keep m.frames.size }
    exact .unwind (.inr ⟨none_open, none_open, m.frames.size_eq⟩) (FrameStack.toList_keep _ _)
      kept rfl rfl rfl ⟨_, rfl⟩

/-! ## Every step -/

/-- Every step of a sound machine is a transition. -/
theorem transition_of_step {a a' : Activity} {m m' : Machine} (sound : Sound a m)
    (ran : step a m = .running a' m') : Transition a m a' m' := by
  unfold step at ran
  cases a with
  | fetch =>
    cases ran
    exact transition_executeNext sound
  | request r =>
    cases ran
    exact transition_enter m r
  | abandon why =>
    cases ran
    exact transition_abandonEntry m why
  | reply v =>
    simp only at ran
    split at ran
    · cases ran
    · next base entries open_ =>
      have nested := sound.entries.nested (by simp)
      rw [open_] at nested
      have lt : base < m.frames.toList.length := nested.1
      obtain ⟨f, outer, frames⟩ := List.exists_cons_of_length_pos
        (show 0 < m.frames.toList.length by omega)
      have room := (sound.awaiting trivial f (by rw [frames]; exact List.mem_cons_self ..)).room
      obtain ⟨n, pushing, pushed⟩ := (Stands.refl frames).push room v
      rw [Progress.ofActivity, pushing] at ran
      cases ran
      exact .receive frames pushed
  | fault f =>
    simp only at ran
    split at ran
    · cases ran
    · next base entries open_ =>
      cases ran
      have kept := slot?_truncate_stackTop
        { m with entries := entries, frames := m.frames.keep base }
      exact .propagate open_ (FrameStack.toList_keep _ _) kept rfl rfl rfl rfl

end MessageMachine.Machine
