/-
# The representation of activations

All activations live in one segment that calls rebind in place and that returns,
calls and failures cut off. This module says what that is good for. In every
reachable state the frames are laid out one over the other within the limits of the
machine, no live slot is a hole, and three things follow for code that may be
arbitrary bytes. An argument is what was passed for as long as its frame lives, a
result fits the operands of whoever called, and what fails like the host is a primitive
that is the host's own, one that applies functions and was passed nothing at all, or one
that would make too long a string.

The invariant that carries this is `Sound`, which speaks of any numbers a method may
declare. Here the numbers are natural, as every assembler makes them.
-/

import MessageMachine.Proofs.Machine.Effect
import MessageMachine.Proofs.Machine.Failure
import MessageMachine.Proofs.Machine.Shift

namespace MessageMachine

/-- All methods have a natural argument count and a natural operand capacity. -/
def Heap.NaturalCounts (h : Heap) : Prop :=
  ∀ r : Ref .method, r.index < h.methods.size →
    0 ≤ (h.method r).argCount ∧ 0 ≤ (h.method r).maxStack

namespace Machine

/-! ## Frames over one segment -/

/-- Frames are laid out one over the other, within the limits, without holes. -/
structure LaidOut (m : Machine) : Prop where
  frames_le : (m.frames.toList.length : Int) ≤ m.settings.maxFrames
  /-- A window begins where the operands of the frame below end, or with the segment. -/
  argBase_eq : ∀ inner f outer, m.frames.toList = inner ++ f :: outer → f.argBase = topOf outer
  argCount_eq : ∀ f ∈ m.frames.toList, (f.argCount : Int) = (m.heap.method f.method).argCount
  stackBase_eq : ∀ f ∈ m.frames.toList, f.stackBase = f.argBase + f.argCount
  stackBase_le : ∀ f ∈ m.frames.toList, f.stackBase ≤ f.sp
  sp_le : ∀ f ∈ m.frames.toList, (f.sp : Int) ≤ f.limit
  limit_eq : ∀ f ∈ m.frames.toList, f.limit = f.stackBase + (m.heap.method f.method).maxStack
  limit_le : ∀ f ∈ m.frames.toList, f.limit ≤ m.settings.maxStackSlots
  filled : ∀ slot < m.stackTop, ∃ v, m.slot? slot = some v
  arguments_filled : ∀ f ∈ m.frames.toList, ∀ index < f.argCount,
    ∃ v, m.slot? (f.argBase + index) = some v

variable {a : Activity} {m : Machine}

/-- A capacity is natural, even where no method is found. -/
theorem maxStack_nonneg {h : Heap} (natural : h.NaturalCounts) (r : Ref .method) :
    0 ≤ (h.method r).maxStack := by
  by_cases here : r.index < h.methods.size
  · exact (natural r here).2
  · have none_ : h.method r = default := by
      simp only [Heap.method, Array.getD_eq_getD_getElem?]
      rw [Array.getElem?_eq_none (Nat.le_of_not_lt here)]
      rfl
    rw [none_]
    exact Int.le_refl 0

theorem Layout.laidOut (layout : Layout m) (natural : m.heap.NaturalCounts)
    (maxFrames : 0 ≤ m.settings.maxFrames) : LaidOut m := by
  have fits : ∀ f ∈ m.frames.toList, ∃ below, f.Fits m.heap m.settings below :=
    fun f inside => layout.windows.exists_fits inside
  refine ⟨?_, ?_, ?_, ?_, ?_, ?_, ?_, ?_, layout.filled, ?_⟩
  · by_cases none_ : m.frames.toList = []
    · rw [none_]
      exact maxFrames
    · exact layout.bounded none_
  · intro inner f outer frames
    have rest := layout.windows.drop inner.length
    rw [frames, List.drop_left] at rest
    exact rest.fits.argBase_eq
  · exact fun f inside => (fits f inside).elim fun _ fit => fit.argCount_eq
  · exact fun f inside => (fits f inside).elim fun _ fit => fit.stackBase_eq
  · exact fun f inside => (fits f inside).elim fun _ fit => fit.stackBase_le
  · intro f inside
    obtain ⟨_, fit⟩ := fits f inside
    have capacity := maxStack_nonneg natural f.method
    have le := fit.sp_le
    have limit := fit.limit_eq
    omega
  · exact fun f inside => (fits f inside).elim fun _ fit => fit.limit_eq
  · exact fun f inside => (fits f inside).elim fun _ fit => fit.limit_le
  · intro f inside index lt
    obtain ⟨_, fit⟩ := fits f inside
    refine layout.filled _ ?_
    have top := layout.windows.sp_le_topOf inside
    have first := fit.stackBase_eq
    have base := fit.stackBase_le
    rw [stackTop_eq]
    omega

/-! ## Arguments -/

/-- The values that a call passes: the arguments of a request, or the operands that
a call instruction finds below the selector. -/
def passed? (a : Activity) (m : Machine) : Option (List Value) :=
  match a, m.frames.toList with
  | .request r, _ => some r.args
  | .fetch, f :: _ =>
    match Instruction.decode (m.heap.method f.method).code f.ip with
    | .ok ⟨_, .call n, _⟩ => m.slots? (f.sp - (n + 1)) n
    | _ => none
  | _, _ => none

/-- The instruction that loads the argument `index` yields `v?`. Without a value
it is a mistake, and without room for it the frame is full. -/
structure Yields (m : Machine) (f : Frame) (outer : List Frame) (i : Instruction) (index : Nat)
    (v? : Option Value) : Prop where
  pushed : ∀ v, v? = some v → (f.sp : Int) < f.limit →
    ∃ m', step .fetch m = .running .fetch m' ∧ m'.slot? f.sp = some v ∧
      m'.frames.toList = { f with ip := i.next, sp := f.sp + 1 } :: outer
  full : v? ≠ none → f.limit ≤ (f.sp : Int) →
    ∃ name capacity m',
      step .fetch m = .running (.abandon (.exhausted (.operands name capacity))) m'
  beyond : v? = none →
    ∃ m', step .fetch m =
      .running (.abandon (.malformed (.at (.argumentOutOfRange index) i.offset))) m'

/-- Whatever a call passes is what its frame loads, for as long as the frame lives. -/
def KeepsArguments (a : Activity) (m : Machine) : Prop :=
  ∀ k, step a m = .running .fetch k → k.frames.toList.length = m.frames.toList.length + 1 →
    ∃ args, passed? a m = some args ∧
      ∀ l f outer i index,
        MovesWhile (fun _ s => m.frames.toList.length < s.frames.toList.length) .fetch k .fetch l →
        l.frames.toList = f :: outer → outer.length = m.frames.toList.length →
        Instruction.decode (l.heap.method f.method).code f.ip = .ok i →
        i.operation = .loadArgument index → Yields l f outer i index args[index]?

/-- The values of a range of slots, one by one. -/
theorem getElem?_of_slots? {start count : Nat} {values : List Value}
    (found : m.slots? start count = some values) :
    values.length = count ∧ ∀ index < count, m.slot? (start + index) = values[index]? := by
  unfold slots? at found
  induction count generalizing start values with
  | zero =>
    cases found
    exact ⟨rfl, fun index lt => absurd lt (Nat.not_lt_zero _)⟩
  | succ count ih =>
    rw [List.range'_succ, List.mapM_cons] at found
    cases first : m.slot? start with
    | none => simp [first] at found
    | some v =>
      cases rest : (List.range' (start + 1) count).mapM m.slot? with
      | none => simp [first, rest] at found
      | some others =>
        have whole : v :: others = values := by simpa [first, rest] using found
        obtain ⟨size, each⟩ := ih rest
        subst whole
        refine ⟨by simp [size], fun index lt => ?_⟩
        cases index with
        | zero => exact first
        | succ index =>
          have shifted : start + (index + 1) = start + 1 + index := by omega
          rw [shifted, each index (by omega), List.getElem?_cons_succ]

/-- A call binds the frame it makes over the values it passes. -/
theorem passed_of_step {k : Machine} (sound : Sound a m) (ran : step a m = .running .fetch k)
    (deeper : k.frames.toList.length = m.frames.toList.length + 1) :
    ∃ args callee outer, passed? a m = some args ∧ k.frames.toList = callee :: outer ∧
      callee.argCount = args.length ∧ callee.stackBase = callee.argBase + callee.argCount ∧
      ∀ index < args.length, k.slot? (callee.argBase + index) = args[index]? := by
  have same_size : ∀ {f g : Frame} {outer : List Frame}, m.frames.toList = f :: outer →
      k.frames.toList = g :: outer → False := by
    intro f g outer frames frames'
    rw [frames, frames'] at deeper
    simp at deeper
  cases transition_of_step sound ran with
  | advance frames _ _ _ _ st => exact (same_size frames st.frames).elim
  | produce frames _ _ _ _ _ pushed => exact (same_size frames pushed.frames).elim
  | await _ _ _ _ _ not_fetch => exact absurd rfl not_fetch
  | giveBack frames _ _ _ _ pushed =>
    rw [frames, pushed.frames] at deeper
    simp at deeper
  | receive frames pushed => exact (same_size frames pushed.frames).elim
  | respond _ not_fetch => exact absurd rfl not_fetch
  | @call _ _ f outer i n r frames decoded calls positive covered arity room frames' kept =>
    have windows := sound.windows
    rw [frames] at windows
    have depth := windows.fits.sp_eq
    have top : m.stackTop = f.sp := by rw [stackTop_eq, frames, topOf_cons]
    obtain ⟨args, copied⟩ := slots?_eq_some m (f.sp - (n + 1)) n
      fun slot lt => sound.filled slot (by omega)
    obtain ⟨size, each⟩ := getElem?_of_slots? copied
    have passed : passed? .fetch m = some args := by
      obtain ⟨offset, operation, next⟩ := i
      have operation_ : operation = .call n := calls
      subst operation_
      simp only [passed?, frames, decoded]
      exact copied
    refine ⟨args, _, _, passed, frames', size.symm, rfl, fun index lt => ?_⟩
    have there : f.sp - (n + 1) + index < f.sp := by omega
    exact (kept _ there).trans (each index (by omega))
  | begin arity room frames' kept written =>
    exact ⟨_, _, _, by unfold passed?; rfl, frames', rfl, rfl, written⟩

/-- Loading an argument yields what is in its slot. -/
theorem yields_of_slot {f : Frame} {outer : List Frame} {i : Instruction} {index : Nat}
    {v? : Option Value} (frames : m.frames.toList = f :: outer)
    (decoded : Instruction.decode (m.heap.method f.method).code f.ip = .ok i)
    (loads : i.operation = .loadArgument index) (below : f.argBase + f.argCount ≤ f.sp)
    (counted : v? = none ↔ f.argCount ≤ index)
    (slot : index < f.argCount → m.slot? (f.argBase + index) = v?) :
    Yields m f outer i index v? := by
  obtain ⟨line, u, ran⟩ : ∃ line : Machine,
      Undisturbed { m with frames := m.frames.setTop { f with ip := i.next } } line ∧
        m.executeNext = line.execute { f with ip := i.next } i := by
    refine ⟨_, ?_, by simp only [executeNext, frames, decoded]; rfl⟩
    unfold traceInstruction
    split
    · exact undisturbed_note _ ⟨Diagnostic.Kind.noConfusion, Diagnostic.Kind.noConfusion⟩
    · exact .refl _
  have st : Stands m line { f with ip := i.next } outer :=
    ((Stands.refl frames).setTop { f with ip := i.next } (Nat.le_refl _)).undisturbed u
  have stepped : step .fetch m = .ofActivity (line.execute { f with ip := i.next } i) := by
    rw [← ran]
    rfl
  have within : ∀ v, v? = some v → line.execute { f with ip := i.next } i = line.push v := by
    intro v present
    have counts : index < f.argCount := by
      by_cases out : f.argCount ≤ index
      · rw [counted.2 out] at present
        cases present
      · omega
    have here : line.slot? (f.argBase + index) = some v := by
      rw [st.kept _ (show f.argBase + index < f.sp by omega), slot counts, present]
    simp only [execute, loads, if_neg (Nat.not_le.2 counts), here]
  refine ⟨fun v present room => ?_, fun present full => ?_, fun absent => ?_⟩
  · obtain ⟨m', pushing, pushed⟩ := st.push room v
    refine ⟨m', ?_, pushed.top, pushed.frames⟩
    rw [stepped, within v present, pushing]
    rfl
  · obtain ⟨v, present⟩ := Option.ne_none_iff_exists'.1 present
    refine ⟨(line.heap.method f.method).name, (line.heap.method f.method).maxStack, line, ?_⟩
    rw [stepped, within v present, st.push_full full]
    rfl
  · refine ⟨line, ?_⟩
    rw [stepped]
    simp only [execute, loads, if_pos (counted.1 absent)]
    rfl

theorem keepsArguments_of_sound (sound : Sound a m) : KeepsArguments a m := by
  intro k ran deeper
  obtain ⟨args, callee, outer, passed, frames, size, first, written⟩ :=
    passed_of_step sound ran deeper
  have level : outer.length = m.frames.toList.length := by
    rw [frames] at deeper
    simpa using deeper
  refine ⟨args, passed, fun l f below i index moves top depth decoded loads => ?_⟩
  rw [← level] at moves depth
  have long : outer.length < l.frames.toList.length := by
    rw [top, List.length_cons, depth]
    exact Nat.lt_succ_self _
  have entered : k.frames.toList = [] ++ callee :: outer := frames
  obtain ⟨sound', inner, g, frames', same, kept⟩ :=
    moves.lives (sound_of_transition sound (transition_of_step sound ran)) entered long
  rw [top] at frames'
  have innermost : inner = [] := by
    have sizes := congrArg List.length frames'
    simp only [List.length_cons, List.length_append, depth] at sizes
    exact List.length_eq_zero_iff.1 (by omega)
  subst innermost
  obtain ⟨rfl, rfl⟩ := List.cons.inj frames'
  have windows := sound'.windows
  rw [top] at windows
  have start := windows.fits.stackBase_eq
  have base := windows.fits.stackBase_le
  have count : f.argCount = args.length := same.argCount.trans size
  refine yields_of_slot top decoded loads (by omega) ?_ fun lt => ?_
  · rw [List.getElem?_eq_none_iff, count]
  · rw [kept _ (by rw [first, same.argBase, ← same.argCount]; omega), same.argBase]
    exact written index (by omega)

/-! ## Results -/

/-- A result fits the operands of the frame that receives it. -/
structure ResultsFit (a : Activity) (m : Machine) : Prop where
  /-- Every frame that has called another has room. -/
  suspended : ∀ f ∈ m.frames.toList.tail, (f.sp : Int) < f.limit
  /-- Whoever receives the result of a returning frame takes it. -/
  returned : ∀ f outer i, a = .fetch → m.frames.toList = f :: outer →
    Instruction.decode (m.heap.method f.method).code f.ip = .ok i → i.operation = .leave →
    1 ≤ f.depth → ∃ a' m', step a m = .running a' m' ∧ (a' = .fetch ∨ ∃ v, a' = .reply v)
  /-- So does a frame for which a result arrives from outside. -/
  received : ∀ v, a = .reply v → m.entries ≠ [] →
    ∃ m', step a m = .running .fetch m' ∧ m'.slot? m.stackTop = some v ∧
      m'.stackTop = m.stackTop + 1

theorem resultsFit_of_sound (sound : Sound a m) : ResultsFit a m where
  suspended := fun f inside => (sound.waiting f inside).room
  returned := by
    rintro f outer i rfl frames decoded leaves covered
    refine ⟨_, _, rfl, ?_⟩
    -- Of all transitions only the two kinds of return fit the instruction.
    have same : ∀ {g : Frame} {below : List Frame} {j : Instruction},
        m.frames.toList = g :: below →
        Instruction.decode (m.heap.method g.method).code g.ip = .ok j → g = f ∧ j = i := by
      intro g below j frames' decoded'
      obtain ⟨rfl, -⟩ := List.cons.inj (frames'.symm.trans frames)
      exact ⟨rfl, Except.ok.inj (decoded'.symm.trans decoded)⟩
    generalize next_ : m.executeNext.1 = next
    generalize after_ : m.executeNext.2 = after
    have ran : step .fetch m = .running next after := by
      rw [← next_, ← after_]
      rfl
    cases transition_of_step sound ran with
    | advance => exact .inl rfl
    | produce => exact .inl rfl
    | call => exact .inl rfl
    | giveBack => exact .inl rfl
    | handOut => exact .inr ⟨_, rfl⟩
    | await frames' decoded' calls =>
      obtain ⟨-, rfl⟩ := same frames' decoded'
      rw [leaves] at calls
      cases calls
    | mishap frames' mishap =>
      obtain ⟨rfl, -⟩ := List.cons.inj (frames'.symm.trans frames)
      cases mishap with
      | undecodable failed =>
        rw [decoded] at failed
        cases failed
      | constant decoded' operation | argument decoded' operation | name decoded' operation
      | frames decoded' operation | segment decoded' operation =>
        obtain ⟨-, rfl⟩ := same frames decoded'
        rw [leaves] at operation
        cases operation
      | underflow decoded' short =>
        obtain ⟨-, rfl⟩ := same frames decoded'
        rw [leaves] at short
        rcases short with short | operation
        · exact absurd short (Nat.not_lt.2 covered)
        · cases operation
      | overflow decoded' pops =>
        obtain ⟨-, rfl⟩ := same frames decoded'
        rw [leaves] at pops
        cases pops
  received := by
    rintro v rfl some_
    obtain ⟨base, entries, open_⟩ := List.exists_cons_of_ne_nil some_
    have nested := sound.entries.nested (by simp)
    rw [open_] at nested
    have lt : base < m.frames.toList.length := nested.1
    obtain ⟨f, outer, frames⟩ := List.exists_cons_of_length_pos
      (show 0 < m.frames.toList.length by omega)
    have room := (sound.awaiting trivial f (by rw [frames]; exact List.mem_cons_self ..)).room
    obtain ⟨m', pushing, pushed⟩ := (Stands.refl frames).push room v
    have top : m.stackTop = f.sp := by rw [stackTop_eq, frames, topOf_cons]
    refine ⟨m', ?_, ?_, ?_⟩
    · simp only [step, open_, pushing]
      rfl
    · rw [top]
      exact pushed.top
    · rw [stackTop_eq, pushed.frames, top]
      rfl

/-! ## The representation invariant -/

/-- What the representation guarantees in a state. -/
structure Represented (a : Activity) (m : Machine) : Prop where
  laidOut : LaidOut m
  arguments : KeepsArguments a m
  results : ResultsFit a m
  /-- When all classes belong to the image, nothing fails like the host but primitives
  that may. -/
  failures : m.image.Owns m.heap → ∀ f m',
    step a m = .running (.fault f) m' ∨ step a m = .finished (.fault f) m' →
      a = .fault f ∨ ∃ p args, Performs a m p args ∧ MayFail m.heap p args f

/-- Every reachable state is represented as it should be, whatever code runs and
however a host enters the machine. -/
theorem represented_of_reachable (reachable : Reachable a m) (natural : m.heap.NaturalCounts)
    (maxFrames : 0 ≤ m.settings.maxFrames) : Represented a m where
  laidOut := (sound_of_reachable reachable).toLayout.laidOut natural maxFrames
  arguments := keepsArguments_of_sound (sound_of_reachable reachable)
  results := resultsFit_of_sound (sound_of_reachable reachable)
  failures := by
    intro owns f m' failed
    rcases failed with running | finished
    · exact fault_of_step (sound_of_reachable reachable) owns running
    · cases a with
      | fault g =>
        left
        simp only [step] at finished
        split at finished
        · cases finished
          rfl
        · cases finished
      | reply v =>
        simp only [step] at finished
        split at finished <;> cases finished
      | fetch | request r | abandon why => cases finished

theorem represented_enteredIdentity :
    enteredIdentity.frames.toList.length = 1 ∧ Represented .fetch enteredIdentity := by
  have natural : enteredIdentity.heap.NaturalCounts := by
    intro r lt
    have first : r = ⟨0⟩ := by
      obtain ⟨index⟩ := r
      exact congrArg Ref.mk (Nat.lt_one_iff.1 lt)
    rw [first]
    decide
  exact ⟨rfl, represented_of_reachable reachable_enteredIdentity natural (by decide)⟩

/-- A standard primitive fails like the host where the host calls it without a receiver. -/
theorem call_withoutReceiver :
    let m := idle (Image.create .empty none false).1 (Image.create .empty none false).2 .standard
    let request : Request := .invoke (.primitive ⟨29⟩) []
    Reachable (.request request) m ∧ m.image.Owns m.heap ∧
      m.heap.primitive ⟨29⟩ = ⟨"call", none, .apply⟩ ∧
      step (.request request) m = .running (.fault .missing) m ∧
      m.serve 2 request = (some (.fault .missing), m) := by
  have found : (Image.create .empty none false).1.primitive ⟨29⟩ = ⟨"call", none, .apply⟩ := rfl
  have called : step (.request (.invoke (.primitive ⟨29⟩) []))
      (idle (Image.create .empty none false).1 (Image.create .empty none false).2 .standard) =
        .running (.fault .missing)
          (idle (Image.create .empty none false).1 (Image.create .empty none false).2 .standard) := by
    simp only [step, enter, invokeCallable, callPrimitive, idle, found]
    rfl
  refine ⟨.start _ _ _ _, Image.inOrder_create.owns, found, called, ?_⟩
  simp only [serve, run, called]
  rfl

end Machine

end MessageMachine
