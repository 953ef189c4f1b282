/-
# The analysis is right about the machine

Code that the analysis accepts is run as the analysis foresaw. Whenever a frame for
it is about to fetch, its pointer is at an offset that the walk reached and it has as
many operands as the walk recorded there, no matter who has called it, what it has
called, or what other code is on the machine. So it takes only operands that it has
and never needs more room than it was given.

A frame that waits for a result has one operand less than is recorded for the
instruction that it will go on with. That is the whole invariant: `Tracked` says
which frames run and which wait, and each transition moves between the two.
-/

import MessageMachine.Proofs.Machine.Representation
import MessageMachine.Proofs.StackDepth.Closure

namespace MessageMachine

/-- The analysis accepts a method, and the method asks for capacity enough. -/
def Heap.Verified (h : Heap) (r : Ref .method) : Prop :=
  ∃ depth : Nat, StackDepth.maxStack (h.method r).code (h.method r).constants.size
      (h.method r).argCount = .ok depth ∧
    (depth : Int) ≤ (h.method r).maxStack

/-- The walk over verified code fits the capacity of its method. -/
theorem Heap.Verified.analysed {h : Heap} {r : Ref .method} (verified : h.Verified r) :
    ∃ w, StackDepth.analyse (h.method r).code (h.method r).constants.size
        (h.method r).argCount = .ok w ∧
      (w.largest : Int) ≤ (h.method r).maxStack := by
  obtain ⟨largest, accepted, capacity⟩ := verified
  unfold StackDepth.maxStack at accepted
  cases analysed : StackDepth.analyse (h.method r).code (h.method r).constants.size
      (h.method r).argCount with
  | error fault =>
    rw [analysed] at accepted
    cases accepted
  | ok w =>
    rw [analysed] at accepted
    cases accepted
    exact ⟨w, rfl, capacity⟩

namespace Frame

/-- A frame is at a place where the analysis of its method recorded that there are
`extra` operands more than it has. Nothing is said where the analysis refuses. -/
def Foreseen (h : Heap) (extra : Nat) (f : Frame) : Prop :=
  ∀ w, StackDepth.analyse (h.method f.method).code (h.method f.method).constants.size
      (h.method f.method).argCount = .ok w →
    ∃ offset depth : Nat, f.ip = offset ∧ w.depthAt? offset = some (depth + extra) ∧
      f.sp = f.stackBase + depth

/-- What the analysis records says the same in a heap with the same method. -/
theorem Foreseen.congr {h h' : Heap} {extra : Nat} {f : Frame} (foreseen : f.Foreseen h extra)
    (method : h'.method f.method = h.method f.method) : f.Foreseen h' extra := by
  intro w analysed
  rw [method] at analysed
  exact foreseen w analysed

end Frame

namespace Machine

/-- The frame that executes is where the analysis foresaw it, and frames that wait
are where it foresaw them but for the result. -/
structure Tracked (a : Activity) (m : Machine) : Prop where
  executing : a = .fetch → ∀ f outer, m.frames.toList = f :: outer → f.Foreseen m.heap 0
  waiting : ∀ f ∈ m.frames.toList.tail, f.Foreseen m.heap 1
  awaiting : a.Awaits ∨ m.entries.head? = some m.frames.toList.length →
    ∀ f ∈ m.frames.toList, f.Foreseen m.heap 1

variable {a a' : Activity} {m m' : Machine} {f : Frame}

/-! ## One instruction -/

/-- Executing an instruction at a recorded depth: it is admitted there, and its
successors are recorded with the depth that it leaves. -/
theorem admits_of_foreseen {w : StackDepth.Walk} {i : Instruction}
    (foreseen : f.Foreseen m.heap 0)
    (decoded : Instruction.decode (m.heap.method f.method).code f.ip = .ok i)
    (analysed : StackDepth.analyse (m.heap.method f.method).code
      (m.heap.method f.method).constants.size (m.heap.method f.method).argCount = .ok w) :
    ∃ depth, f.sp = f.stackBase + depth ∧
      StackDepth.Admits (m.heap.method f.method).constants.size
        (m.heap.method f.method).argCount w.largest i depth ∧
      ∀ target ∈ i.successors, ∃ next : Nat,
        target = next ∧ w.depthAt? next = some (StackDepth.after i.operation depth) := by
  obtain ⟨offset, depth, ip, recorded, sp⟩ := foreseen w analysed
  obtain ⟨j, there, admits, flows⟩ :=
    (StackDepth.annotates_of_analyse analysed).instruction offset depth recorded
  rw [ip] at decoded
  have same : j = i := Except.ok.inj (there.symm.trans decoded)
  subst same
  exact ⟨depth, sp, admits, flows⟩

/-- Going on at a successor with all operands taken and none left. -/
theorem foreseen_advance {i : Instruction} {ip : Int} (foreseen : f.Foreseen m.heap 0)
    (decoded : Instruction.decode (m.heap.method f.method).code f.ip = .ok i)
    (flows : ip ∈ i.successors) (leaves : i.operation.pushes = 0) :
    Frame.Foreseen m.heap 0 { f with ip := ip, sp := f.sp - i.operation.pops } := by
  intro w analysed
  obtain ⟨depth, sp, admits, recorded⟩ := admits_of_foreseen foreseen decoded analysed
  obtain ⟨next, rfl, known⟩ := recorded ip flows
  have covered := admits.covered
  refine ⟨next, depth - i.operation.pops, rfl, ?_, ?_⟩
  · rw [known, StackDepth.after, leaves]
  · show f.sp - i.operation.pops = f.stackBase + (depth - i.operation.pops)
    omega

/-- Waiting for, or having left, the one value that an instruction leaves. -/
theorem foreseen_result {i : Instruction} (foreseen : f.Foreseen m.heap 0)
    (decoded : Instruction.decode (m.heap.method f.method).code f.ip = .ok i)
    (leaves : i.operation.pushes = 1) :
    Frame.Foreseen m.heap 1 { f with ip := i.next, sp := f.sp - i.operation.pops } := by
  intro w analysed
  obtain ⟨depth, sp, admits, recorded⟩ := admits_of_foreseen foreseen decoded analysed
  obtain ⟨next, same, known⟩ := recorded i.next (next_mem_successors leaves)
  have covered := admits.covered
  refine ⟨next, depth - i.operation.pops, same, ?_, ?_⟩
  · rw [known, StackDepth.after, leaves]
  · show f.sp - i.operation.pops = f.stackBase + (depth - i.operation.pops)
    omega

/-- A frame that has received the result it was waiting for. -/
theorem foreseen_received (foreseen : f.Foreseen m.heap 1) :
    Frame.Foreseen m.heap 0 { f with sp := f.sp + 1 } := by
  intro w analysed
  obtain ⟨offset, depth, ip, recorded, sp⟩ := foreseen w analysed
  refine ⟨offset, depth + 1, ip, recorded, ?_⟩
  show f.sp + 1 = f.stackBase + (depth + 1)
  omega

/-- The frame of a method that has just been called. -/
theorem foreseen_entering (h : Heap) (r : Ref .method) (argBase argCount : Nat) :
    (entering h r argBase argCount).Foreseen h 0 := by
  intro w analysed
  exact ⟨0, 0, rfl, (StackDepth.annotates_of_analyse analysed).start, rfl⟩

/-! ## Transitions -/

/-- What is tracked of a machine that executes. -/
theorem Tracked.of_executing {g : Frame} {outer : List Frame} (frames : m'.frames.toList = g :: outer)
    (methods : m'.heap.methods = m.heap.methods) (executing : g.Foreseen m.heap 0)
    (waiting : ∀ f ∈ outer, f.Foreseen m.heap 1)
    (nested : Nested m'.frames.toList.length m'.entries) : Tracked .fetch m' where
  executing := by
    intro _ f inner frames'
    obtain ⟨rfl, -⟩ := List.cons.inj (frames.symm.trans frames')
    exact executing.congr (Heap.method_of_methods methods _)
  waiting := by
    rw [frames]
    exact fun f inside => (waiting f inside).congr (Heap.method_of_methods methods _)
  awaiting := by
    rintro (awaits | frameless)
    · exact awaits.elim
    · exact absurd frameless nested.head?_ne

/-- What is tracked of a machine whose frames all wait. -/
theorem Tracked.of_waiting (not_fetch : a' ≠ .fetch)
    (waiting : ∀ f ∈ m'.frames.toList, f.Foreseen m'.heap 1) : Tracked a' m' where
  executing := fun fetch => absurd fetch not_fetch
  waiting := fun f inside => waiting f (List.mem_of_mem_tail inside)
  awaiting := fun _ => waiting

/-- Every transition keeps track. -/
theorem tracked_of_transition (sound : Sound a m) (tracked : Tracked a m)
    (transition : Transition a m a' m') : Tracked a' m' := by
  have sound' := sound_of_transition sound transition
  have waiting := tracked.waiting
  cases transition with
  | @advance _ _ f outer i ip frames decoded flows covered leaves st =>
    rw [frames] at waiting
    have foreseen := tracked.executing rfl f outer frames
    exact .of_executing st.frames st.methods (foreseen_advance foreseen decoded flows leaves)
      waiting sound'.nested_fetch
  | @produce _ _ f outer i v frames decoded flows covered leaves room pushed =>
    rw [frames] at waiting
    have foreseen := tracked.executing rfl f outer frames
    have result := foreseen_received (foreseen_result foreseen decoded leaves)
    exact .of_executing pushed.frames pushed.methods result waiting sound'.nested_fetch
  | @await _ _ f outer i n _ frames decoded calls positive covered not_fetch overflow st =>
    rw [frames] at waiting
    have leaves : i.operation.pushes = 1 := by rw [calls]; rfl
    have result := foreseen_result (tracked.executing rfl f outer frames) decoded leaves
    rw [calls] at result
    refine .of_waiting not_fetch ?_
    rw [st.frames]
    intro g inside
    rcases List.mem_cons.1 inside with rfl | outside
    · exact result.congr (Heap.method_of_methods st.methods _)
    · exact (waiting g outside).congr (Heap.method_of_methods st.methods _)
  | @call _ _ f outer i n r frames decoded calls positive covered arity room frames' kept entries
      settings methods =>
    rw [frames] at waiting
    have leaves : i.operation.pushes = 1 := by rw [calls]; rfl
    have result := foreseen_result (tracked.executing rfl f outer frames) decoded leaves
    rw [calls] at result
    refine .of_executing frames' methods (foreseen_entering _ _ _ _) ?_ sound'.nested_fetch
    intro g inside
    rcases List.mem_cons.1 inside with rfl | outside
    · exact result
    · exact waiting g outside
  | @handOut _ _ f outer i v entries frames decoded leaves covered open_ frames' kept entries'
      settings methods =>
    rw [frames] at waiting
    refine .of_waiting (by simp) ?_
    rw [frames']
    exact fun g inside => (waiting g inside).congr (Heap.method_of_methods methods _)
  | @giveBack _ _ f g outer i v frames decoded leaves covered nested pushed =>
    rw [frames] at waiting
    have received := foreseen_received (waiting g (List.mem_cons_self ..))
    refine .of_executing pushed.frames pushed.methods received ?_ sound'.nested_fetch
    exact fun h inside => waiting h (List.mem_cons_of_mem _ inside)
  | @mishap _ _ f outer ip sp why frames mishap base le st =>
    rw [frames] at waiting
    have nested := sound.nested_fetch
    rw [frames] at nested
    refine ⟨by simp, ?_, ?_⟩
    · rw [st.frames]
      exact fun g inside => (waiting g inside).congr (Heap.method_of_methods st.methods _)
    · rintro (awaits | frameless)
      · exact awaits.elim
      · rw [st.frames, st.entries] at frameless
        exact absurd frameless nested.head?_ne
  | @receive _ _ f outer v frames pushed =>
    rw [frames] at waiting
    have foreseen := tracked.awaiting (.inl trivial) f (by rw [frames]; exact List.mem_cons_self ..)
    exact .of_executing pushed.frames pushed.methods (foreseen_received foreseen) waiting
      sound'.nested_fetch
  | @respond _ _ r a u not_fetch settled =>
    refine .of_waiting not_fetch ?_
    rw [u.frames]
    exact fun f inside => (tracked.awaiting (.inl trivial) f inside).congr
      (Heap.method_of_methods u.methods _)
  | @refuse _ _ r why frames kept entries settings methods not_malformed not_operands =>
    refine .of_waiting (by simp) ?_
    rw [frames]
    exact fun f inside => (tracked.awaiting (.inl trivial) f inside).congr
      (Heap.method_of_methods methods _)
  | @begin _ _ r method arity room frames' kept written entries settings methods =>
    exact .of_executing frames' methods (foreseen_entering _ _ _ _)
      (tracked.awaiting (.inl trivial)) sound'.nested_fetch
  | @unwind _ _ why base outer open_ frames' kept entries settings methods =>
    obtain ⟨-, -, called⟩ := sound.unwinds open_
    refine .of_waiting (by simp) ?_
    rw [frames']
    intro f inside
    have foreseen : f.Foreseen m.heap 1 := by
      rcases called f inside with suspended | frameless
      · exact waiting f suspended
      · exact tracked.awaiting (.inr frameless) f (List.mem_of_mem_drop inside)
    exact foreseen.congr (Heap.method_of_methods methods _)
  | @propagate _ _ f base outer open_ frames' kept entries settings methods =>
    refine .of_waiting (by simp) ?_
    rw [frames']
    exact fun f inside => (tracked.awaiting (.inl trivial) f (List.mem_of_mem_drop inside)).congr
      (Heap.method_of_methods methods _)

/-- A host finds frames that wait, and cannot change their methods. -/
theorem tracked_of_host {n : Machine} (sound : Sound a m) (tracked : Tracked a m)
    (control : a.HostMayAct) (change : HostChange m n) (not_fetch : a' ≠ .fetch)
    (frames : m'.frames = n.frames) (heap : m'.heap = n.heap) : Tracked a' m' := by
  have awaits : a.Awaits := by cases a <;> trivial
  refine .of_waiting not_fetch ?_
  rw [frames, heap, change.frames]
  intro f inside
  have exists_ := (sound.awaiting awaits f inside).exists_method
  exact (tracked.awaiting (.inl awaits) f inside).congr (change.grows.method exists_)

/-- In every reachable state the frames are tracked. -/
theorem tracked_of_reachable (reachable : Reachable a m) : Tracked a m := by
  induction reachable with
  | start heap image settings r => exact .of_waiting (by simp) fun f inside => by cases inside
  | move before move ih =>
    have sound := sound_of_reachable before
    cases move with
    | step ran => exact tracked_of_transition sound ih (transition_of_step sound ran)
    | host control change turn =>
      exact tracked_of_host sound ih control change (by cases turn <;> simp)
        (by cases turn <;> rfl) (by cases turn <;> rfl)
    | giveUp why control change _ =>
      exact tracked_of_host sound ih control change (by simp) rfl rfl

/-! ## Verified methods -/

end Machine

/-- The reasons for giving up that the code of a frame is to blame for: it is
malformed, or it leaves more operands than it has asked room for. -/
def Abort.BlamesCode : Abort → Prop
  | .malformed _ | .exhausted (.operands _ _) => True
  | .exhausted (.frames _ _) | .exhausted (.segment _ _) | .overflow _ => False

namespace Machine

/-- Frames for a method are where the analysis of its code foresaw them, and no step
of theirs is a mistake of the code. A name that is not a symbol is the exception,
since the analysis knows depths and not values. -/
structure RunsAsVerified (a : Activity) (m : Machine) (r : Ref .method) : Prop where
  /-- About to fetch, a frame is at a recorded offset, at the depth recorded there. -/
  recorded : ∀ f outer, a = .fetch → m.frames.toList = f :: outer → f.method = r →
    ∃ w, StackDepth.analyse (m.heap.method r).code (m.heap.method r).constants.size
        (m.heap.method r).argCount = .ok w ∧
      ∃ offset depth : Nat, f.ip = offset ∧ w.depthAt? offset = some depth ∧
        f.sp = f.stackBase + depth
  /-- Its next instruction is not given up for a reason that it is to blame for. -/
  executed : ∀ f outer why m', a = .fetch → m.frames.toList = f :: outer → f.method = r →
    step a m = .running (.abandon why) m' → why.BlamesCode →
      ∃ i v printed, Instruction.decode (m.heap.method r).code f.ip = .ok i ∧
        i.operation = .defineGlobal ∧ m.slot? (f.sp - 2) = some v ∧ v.asSymbol? = none ∧
        why = .malformed (.at (.nameNotSymbol printed) i.offset)
  /-- It has room for the result of a method that it has called. -/
  returned : ∀ callee f outer i, a = .fetch → m.frames.toList = callee :: f :: outer →
    f.method = r → Instruction.decode (m.heap.method callee.method).code callee.ip = .ok i →
    i.operation = .leave → 1 ≤ callee.depth →
      ∃ a' m', step a m = .running a' m' ∧ ∀ why, a' ≠ .abandon why
  /-- It has room for a result that arrives from outside the code. -/
  received : ∀ f outer v, a = .reply v → m.frames.toList = f :: outer → f.method = r →
    ∃ m', step a m = .running .fetch m'

variable {a : Activity} {m : Machine} {f : Frame} {outer : List Frame}

/-- A frame for a verified method makes no mistake but to bind what is no name. -/
theorem mishap_of_verified {why : Abort} (fits : f.Fits m.heap m.settings (topOf outer))
    (foreseen : f.Foreseen m.heap 0) (verified : m.heap.Verified f.method)
    (mishap : Mishap m f why) (blames : why.BlamesCode) :
    ∃ i v printed, Instruction.decode (m.heap.method f.method).code f.ip = .ok i ∧
      i.operation = .defineGlobal ∧ m.slot? (f.sp - 2) = some v ∧ v.asSymbol? = none ∧
      why = .malformed (.at (.nameNotSymbol printed) i.offset) := by
  obtain ⟨w, analysed, capacity⟩ := verified.analysed
  have count := fits.argCount_eq
  have limit := fits.limit_eq
  have held := fits.sp_eq
  cases mishap with
  | undecodable failed =>
    obtain ⟨offset, depth, ip, recorded, -⟩ := foreseen w analysed
    obtain ⟨i, there, -⟩ :=
      (StackDepth.annotates_of_analyse analysed).instruction offset depth recorded
    rw [ip] at failed
    rw [failed] at there
    cases there
  | constant decoded loads beyond =>
    obtain ⟨depth, sp, admits, -⟩ := admits_of_foreseen foreseen decoded analysed
    have within := admits.constant _ loads
    omega
  | argument decoded loads beyond =>
    obtain ⟨depth, sp, admits, -⟩ := admits_of_foreseen foreseen decoded analysed
    have within := admits.argument _ loads
    omega
  | underflow decoded short =>
    obtain ⟨depth, sp, admits, -⟩ := admits_of_foreseen foreseen decoded analysed
    have covered := admits.covered
    rcases short with few | calls
    · omega
    · exact absurd (admits.call 0 calls) (by omega)
  | overflow decoded pops pushes full =>
    obtain ⟨depth, sp, admits, -⟩ := admits_of_foreseen foreseen decoded analysed
    have after_le := admits.after_le
    rw [StackDepth.after, pops, pushes] at after_le
    omega
  | name decoded defines found notSymbol =>
    exact ⟨_, _, _, decoded, defines, found, notSymbol, rfl⟩
  | frames | segment => exact blames.elim

/-- Methods that the analysis accepts run as it foresaw, in every reachable state. -/
theorem runsAsVerified_of_reachable (reachable : Reachable a m) {r : Ref .method}
    (verified : m.heap.Verified r) : RunsAsVerified a m r where
  recorded := by
    rintro f outer rfl frames rfl
    obtain ⟨w, analysed, -⟩ := verified.analysed
    exact ⟨w, analysed, (tracked_of_reachable reachable).executing rfl f outer frames w analysed⟩
  executed := by
    rintro f outer why m' rfl frames rfl ran blames
    have sound := sound_of_reachable reachable
    have foreseen := (tracked_of_reachable reachable).executing rfl f outer frames
    have windows := sound.windows
    rw [frames] at windows
    cases transition_of_step sound ran with
    | await _ _ _ _ _ _ overflow =>
      obtain ⟨what, rfl⟩ := overflow why rfl
      exact blames.elim
    | mishap frames' mishap =>
      obtain ⟨rfl, -⟩ := List.cons.inj (frames'.symm.trans frames)
      exact mishap_of_verified windows.fits foreseen verified mishap blames
  returned := by
    rintro callee f outer i rfl frames rfl decoded leaves covered
    obtain ⟨a', m', ran, goes⟩ := (resultsFit_of_sound (sound_of_reachable reachable)).returned
      callee (f :: outer) i rfl frames decoded leaves covered
    refine ⟨a', m', ran, fun why abandoned => ?_⟩
    subst abandoned
    rcases goes with fetch | ⟨v, reply⟩
    · cases fetch
    · cases reply
  received := by
    rintro f outer v rfl frames rfl
    have sound := sound_of_reachable reachable
    have some_ : m.entries ≠ [] := by
      intro none_
      have nested := sound.entries.nested (by simp)
      rw [none_, frames] at nested
      cases nested
    obtain ⟨m', ran, -⟩ := (resultsFit_of_sound sound).received v rfl some_
    exact ⟨m', ran⟩

theorem runsAsVerified_enteredIdentity :
    enteredIdentity.heap.Verified ⟨0⟩ ∧ RunsAsVerified .fetch enteredIdentity ⟨0⟩ := by
  have verified : enteredIdentity.heap.Verified ⟨0⟩ := ⟨1, by rfl, by decide⟩
  exact ⟨verified, runsAsVerified_of_reachable reachable_enteredIdentity verified⟩

end Machine

end MessageMachine
