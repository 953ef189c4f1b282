/-
# Two ways to send a message

A message is sent by a request from outside, or by the call instruction of a program. The
machine has code of its own for each: it looks the handler up, checks the number of
arguments, calls a primitive or binds the arguments of a method, and gives up in two
places. Here it is shown that the two agree. A program that does nothing but send one
message comes to the end that the request comes to, and both report that the message is
not understood exactly where the receiver does not respond to it.

The program is followed to its call instruction step by step. From there on it waits, with
nothing but its return instruction to come, and what it waits for is in step with what the
request does.
-/

import MessageMachine.Proofs.Compiler.Correctness
import MessageMachine.Proofs.Machine.Ending

namespace MessageMachine

/-! ## Programs that send one message -/

/-- Code has some operations one after another, from an offset on. -/
inductive Spells (code : Code) : Nat → List Operation → Prop
  | nil {offset : Nat} : Spells code offset []
  | cons {offset : Nat} {i : Instruction} {rest : List Operation} :
      Instruction.decode code offset = .ok i → Spells code i.next rest →
      Spells code offset (i.operation :: rest)

/-- A program, written nowhere, that loads a receiver, arguments and a selector, calls, and
returns what comes of it. -/
structure Heap.SendsOnce (h : Heap) (program : Ref .method) (receiver : Value)
    (selector : String) (args : List Value) : Prop where
  argCount : (h.method program).argCount = 0
  source : (h.method program).source = none
  capacity : ((args.length + 2 : Nat) : Int) ≤ (h.method program).maxStack
  code : ∃ indices : List Nat,
    List.Forall₂ (fun index v => (h.method program).constants[index]? = some v) indices
      (receiver :: args ++ [.symbol selector]) ∧
    Spells (h.method program).code 0
      (indices.map .loadConstant ++ [.call (args.length + 1), .leave])

namespace Machine

variable {a b : Activity} {c k l m : Machine} {f : Frame} {outer : List Frame} {ip : Nat}
  {vs : List Value} {v : Value}

/-! ## Instructions of a machine that does not trace -/

theorem sameData_of_push {m : Machine} (pushed : m.push v = (a, k)) : SameData m k := by
  unfold push at pushed
  split at pushed
  · cases pushed
    exact .refl _
  · simp only at pushed
    split at pushed
    · cases pushed
      exact .refl _
    · cases pushed
      exact ⟨rfl, rfl, rfl, rfl⟩

/-- An instruction is executed, and nothing is reported about it. -/
theorem step_fetch_of_quiet {i : Instruction} (frames : k.frames.toList = f :: outer)
    (quiet : k.settings.trace = false)
    (decoded : Instruction.decode (k.heap.method f.method).code f.ip = .ok i) :
    step .fetch k = .ofActivity
      ({ k with frames := k.frames.setTop { f with ip := i.next } }.execute { f with ip := i.next }
        i) := by
  show Progress.ofActivity k.executeNext = _
  unfold executeNext
  simp only [frames, decoded, traceInstruction, quiet]
  rfl

theorem Inside.fetchQuietly {i : Instruction} (inside : Inside m k f outer ip vs)
    (quiet : k.settings.trace = false)
    (decoded : Instruction.decode (k.heap.method f.method).code ip = .ok i) :
    ∃ n, step .fetch k =
        .ofActivity (n.execute { f with ip := i.next, sp := f.stackBase + vs.length } i) ∧
      Inside m n f outer i.next vs ∧ SameData k n := by
  have ran := step_fetch_of_quiet inside.frames quiet decoded
  exact ⟨_, ran, inside.goto rfl, ⟨rfl, rfl, rfl, rfl⟩⟩

/-- A constant is loaded. -/
theorem Inside.loadsQuietly {i : Instruction} {index : Nat} (inside : Inside m k f outer ip vs)
    (quiet : k.settings.trace = false)
    (decoded : Instruction.decode (k.heap.method f.method).code ip = .ok i)
    (loads : i.operation = .loadConstant index)
    (constant : (k.heap.method f.method).constants[index]? = some v)
    (room : ((f.stackBase + vs.length : Nat) : Int) < f.limit) :
    ∃ k', step .fetch k = .running .fetch k' ∧ Inside m k' f outer i.next (vs ++ [v]) ∧
      SameData k k' := by
  obtain ⟨n, ran, inside', same⟩ := inside.fetchQuietly quiet decoded
  obtain ⟨k', pushed, inside'', -⟩ := inside'.push v room
  refine ⟨k', ?_, inside'', same.trans (sameData_of_push pushed)⟩
  rw [ran]
  simp only [execute, loads, same.heap, constant, pushed]
  rfl

/-- Constants are loaded one after another. -/
theorem Inside.loadsAll {method : Method} {indices : List Nat} {ws : List Value}
    {rest : List Operation}
    (constants : List.Forall₂ (fun index v => method.constants[index]? = some v) indices ws)
    (code : k.heap.method f.method = method) (quiet : k.settings.trace = false)
    (inside : Inside m k f outer ip vs)
    (spells : Spells method.code ip (indices.map .loadConstant ++ rest))
    (room : ((f.stackBase + (vs.length + ws.length) : Nat) : Int) ≤ f.limit) :
    ∃ k' ip', StepsIn indices.length .fetch k .fetch k' ∧
      Inside m k' f outer ip' (vs ++ ws) ∧ SameData k k' ∧ Spells method.code ip' rest := by
  induction constants generalizing k ip vs with
  | nil => exact ⟨k, ip, .zero, by rwa [List.append_nil], .refl k, spells⟩
  | @cons index v indices ws constant _ ih =>
    rw [List.length_cons] at room
    rw [List.map_cons, List.cons_append] at spells
    generalize loads : Operation.loadConstant index = operation at spells
    cases spells with
    | @cons _ i _ decoded spells =>
      rw [← code] at decoded constant
      obtain ⟨k₁, ran, inside₁, same⟩ :=
        inside.loadsQuietly quiet decoded loads.symm constant (by omega)
      obtain ⟨k', ip', steps, inside', same', spells'⟩ :=
        ih (k := k₁) (by rw [same.heap, code]) (by rw [same.settings, quiet]) inside₁ spells
          (by rw [List.length_append, List.length_singleton]; omega)
      rw [List.append_assoc] at inside'
      exact ⟨k', ip', .succ ran steps, inside', same.trans same', spells'⟩

/-- The only frame of the only entry is left. -/
theorem leave_of_last (frames : m.frames.toList = [f]) (entries : m.entries = [0]) (v : Value) :
    m.leave v = (.reply v, { m with
      frames := m.frames.pop, segment := resize m.segment f.argBase, entries := [] }) := by
  have none_ : m.frames.pop.size = 0 := by
    rw [FrameStack.size_eq, FrameStack.toList_pop, frames]
    rfl
  simp only [leave, frames, entries, none_, if_true]

/-- A frame of the only entry is left for another one. -/
theorem leave_of_inner {g : Frame} (frames : m.frames.toList = f :: g :: outer)
    (entries : m.entries = [0]) (v : Value) :
    m.leave v =
      { m with frames := m.frames.pop, segment := resize m.segment f.argBase }.push v := by
  have some_ : m.frames.pop.size = outer.length + 1 := by
    rw [FrameStack.size_eq, FrameStack.toList_pop, frames]
    rfl
  simp only [leave, frames, entries, some_, Nat.succ_ne_zero, if_false]

/-- A frame with an operand is left with it. -/
theorem step_leave {i : Instruction} (frames : k.frames.toList = f :: outer)
    (quiet : k.settings.trace = false)
    (decoded : Instruction.decode (k.heap.method f.method).code f.ip = .ok i)
    (leaves : i.operation = .leave) (covered : f.stackBase < f.sp)
    (top : k.slot? (f.sp - 1) = some v) :
    ∃ n, step .fetch k = .ofActivity (n.leave v) ∧
      n.frames.toList = { f with ip := i.next, sp := f.sp - 1 } :: outer ∧
      n.entries = k.entries ∧ SameData k n := by
  let past : Machine := { k with frames := k.frames.setTop { f with ip := i.next } }
  have frames' : past.frames.toList = { f with ip := i.next } :: outer :=
    toList_setTop_cons frames _
  have popped := (Stands.refl frames').pop covered (show past.slot? (f.sp - 1) = some v from top)
  refine ⟨{ past with frames := past.frames.setTop { f with ip := i.next, sp := f.sp - 1 } }, ?_,
    toList_setTop_cons frames' _, rfl, ⟨rfl, rfl, rfl, rfl⟩⟩
  rw [step_fetch_of_quiet frames quiet decoded]
  simp only [execute, leaves]
  exact congrArg Progress.ofActivity (popped _)

/-- A frame without one cannot be left. -/
theorem step_leave_empty {i : Instruction} (frames : k.frames.toList = f :: outer)
    (quiet : k.settings.trace = false)
    (decoded : Instruction.decode (k.heap.method f.method).code f.ip = .ok i)
    (leaves : i.operation = .leave) (empty : f.sp ≤ f.stackBase) :
    ∃ n, step .fetch k = .running (.abandon (.malformed
        (.at (.operandUnderflow (k.heap.method f.method).name) i.next))) n ∧
      n.frames.toList = { f with ip := i.next } :: outer ∧ n.entries = k.entries ∧
      SameData k n := by
  let past : Machine := { k with frames := k.frames.setTop { f with ip := i.next } }
  have frames' : past.frames.toList = { f with ip := i.next } :: outer :=
    toList_setTop_cons frames _
  refine ⟨past, ?_, frames', rfl, ⟨rfl, rfl, rfl, rfl⟩⟩
  rw [step_fetch_of_quiet frames quiet decoded]
  simp only [execute, leaves]
  exact congrArg Progress.ofActivity ((Stands.refl frames').pop_empty empty _)

/-! ## Waiting for the answer -/

/-- A program that is written nowhere waits for the answer that it returns. -/
structure Awaiting (f : Frame) (m : Machine) : Prop where
  frames : m.frames.toList = [f]
  entries : m.entries = [0]
  quiet : m.settings.trace = false
  empty : f.sp = f.stackBase
  room : (f.sp : Int) < f.limit
  source : (m.heap.method f.method).source = none
  leaves : ∃ i, Instruction.decode (m.heap.method f.method).code f.ip = .ok i ∧
    i.operation = .leave

namespace Awaiting

/-- Only the frame, the entry and the code matter. -/
theorem congr (awaiting : Awaiting f m) (frames : k.frames.toList = m.frames.toList)
    (entries : k.entries = m.entries) (settings : k.settings = m.settings)
    (methods : k.heap.methods = m.heap.methods) : Awaiting f k := by
  have same := Heap.method_of_methods methods f.method
  refine ⟨frames.trans awaiting.frames, entries.trans awaiting.entries, ?_, awaiting.empty,
    awaiting.room, ?_, ?_⟩
  · rw [settings]
    exact awaiting.quiet
  · rw [same]
    exact awaiting.source
  · rw [same]
    exact awaiting.leaves

theorem stackTop (awaiting : Awaiting f m) : m.stackTop = f.sp := by
  rw [stackTop_eq, awaiting.frames, topOf_cons]

theorem currentLocation (awaiting : Awaiting f m) : m.currentLocation = none := by
  simp only [Machine.currentLocation, awaiting.frames, awaiting.source]

theorem entries_ne_nil (awaiting : Awaiting f m) : m.entries ≠ [] := by
  rw [awaiting.entries]
  exact List.cons_ne_nil _ _

/-- The program returns the answer that it gets. -/
theorem returns (awaiting : Awaiting f m) (v : Value) {e : Ending} :
    EndsAs (.reply v) m e ↔ e = m.ending (.answer v) := by
  obtain ⟨i, decoded, leaves⟩ := awaiting.leaves
  let pushed : Machine := { m with
    segment := writeSlot m.segment f.sp v
    frames := m.frames.setTop { f with sp := f.sp + 1 } }
  have push_eq : m.push v = (.fetch, pushed) := by
    simp only [push, awaiting.frames, if_neg (Int.not_le.2 awaiting.room), pushed]
  have frames : pushed.frames.toList = [{ f with sp := f.sp + 1 }] :=
    toList_setTop_cons awaiting.frames _
  have covered : f.stackBase < f.sp + 1 := by
    rw [awaiting.empty]
    exact Nat.lt_succ_self _
  have top : pushed.slot? f.sp = some v := by
    simp only [slot?, pushed, slot_writeSlot, if_true]
  obtain ⟨n, ran, frames', entries, same⟩ :=
    step_leave frames awaiting.quiet decoded leaves covered top
  rw [leave_of_last frames' (entries.trans awaiting.entries)] at ran
  have first := endsAs_push_iff (e := e) awaiting.entries_ne_nil v
  rw [push_eq] at first
  refine first.symm.trans ((endsAs_iff_of_step ran).trans ((endsAs_iff_of_handed rfl rfl).trans ?_))
  exact Eq.congr_right (same.ending_eq (.answer v))

/-- What a program is handed is the end. -/
theorem endsAs_iff (awaiting : Awaiting f m) {completion : Completion} {e : Ending}
    (handed : a.completion? = some completion) : EndsAs a m e ↔ e = m.ending completion := by
  cases a with
  | fetch | request r | abandon why => cases handed
  | reply v =>
    cases handed
    exact awaiting.returns v
  | fault failure =>
    cases handed
    exact endsAs_fault_iff awaiting.entries failure

end Awaiting

/-- A machine without an entry and one that waits for the answer come to the same end when
they get it. -/
theorem sameEnd_of_handed {completion : Completion} (entries : c.entries = [])
    (awaiting : Awaiting f k) (same : SameData c k) (handed : a.completion? = some completion) :
    SameEnd (a, c) (a, k) := by
  intro e
  rw [endsAs_iff_of_handed entries handed, awaiting.endsAs_iff handed, same.ending_eq]

/-- So do two machines that give their only entry up at the same place. -/
theorem sameEnd_of_abandon (entries : c.entries = [0]) (entries' : k.entries = [0])
    (same : SameData c k) (place : k.currentLocation = c.currentLocation) (why : Abort) :
    SameEnd (.abandon why, c) (.abandon why, k) := by
  intro e
  rw [endsAs_abandon_iff entries, endsAs_abandon_iff entries', place, (same.note _).ending_eq]

/-! ## What a program waits for -/

section

variable {h : Heap} {image : Image} {settings : Settings} {r : Ref .method} {args : List Value}

/-- Where nothing has been entered since, both machines have the entries that they began
with. -/
theorem Atop.entries_eq {g : Footing} (atop : Atop g c k) (entries : c.entries = g.under) :
    k.entries = g.base.entries := by
  obtain ⟨added, here, there⟩ := atop.entries
  have added_nil : added = [] := List.append_left_eq_self.1 (here.symm.trans entries)
  subst added_nil
  exact there

/-- A request is served while the program waits, as it is by a machine with nothing else
to do. -/
theorem Awaiting.sameEnd_request {r : Request} (awaiting : Awaiting f l)
    (same : SameData (idle h image settings) l) (standard : h.Standard)
    (alone : Unlimited (.request r) (idle h image settings)) (above : Unlimited (.request r) l) :
    SameEnd (.request r, idle h image settings) (.request r, l) := by
  have limits : l.settings = settings := same.settings
  let g : Footing := ⟨l, l.settings, [], id, rfl, .inl awaiting.quiet, .inl rfl⟩
  have start : Atop g (idle h image settings) l := by
    have begun : Atop g (idle h l.image l.settings) l :=
      .start g h rfl (same.heap.trans h.relocate_id.symm)
    rwa [same.image, limits] at begun
  have reachable : Reachable (.request r) (idle h image settings) := .start _ _ _ _
  have parallel : Parallel g (.request r) (idle h image settings) l :=
    .of_unlimited start reachable standard alone above
  refine parallel.sameEnd fun n b c k together closing => ?_
  obtain ⟨completion, handed, entries, none_⟩ := together.handed start reachable rfl closing
  have atop := together.atop start
  have frames : k.frames.toList = l.frames.toList := by
    rw [atop.frames, none_]
    rfl
  have waits := awaiting.congr frames (atop.entries_eq entries) atop.settings atop.methods
  exact sameEnd_of_handed entries waits
    (atop.sameData rfl awaiting.currentLocation same.log rfl) handed

/-- A program waits below for a method that it has called, and for the other machine the
method is the first thing that it does. -/
structure Footing.Waits (g : Footing) (f : Frame) : Prop where
  awaiting : Awaiting f g.base
  under : g.under = [0]
  place : g.place = id
  silent : g.base.log = #[]
  limits : g.limits = g.base.settings

namespace Footing.Waits

variable {g : Footing} (waits : g.Waits f) (atop : Atop g c k)

include waits atop

theorem sameData : SameData c k :=
  atop.sameData waits.place waits.awaiting.currentLocation waits.silent waits.limits

theorem quiet : c.settings.trace = false ∧ k.settings.trace = false := by
  rw [atop.limits, atop.settings, waits.limits]
  exact ⟨waits.awaiting.quiet, waits.awaiting.quiet⟩

theorem currentLocation_eq : k.currentLocation = c.currentLocation := by
  cases frames : c.frames.toList with
  | nil =>
    obtain ⟨here, there⟩ := atop.location_base frames
    rw [here, there, waits.awaiting.currentLocation]
  | cons f' rest => rw [atop.location frames, waits.place, Option.map_id, id]

variable (entries : c.entries = g.under)

include entries

/-- The only entry of both is given up. -/
theorem sameEnd_abandon (why : Abort) : SameEnd (.abandon why, c) (.abandon why, k) :=
  sameEnd_of_abandon (entries.trans waits.under)
    ((atop.entries_eq entries).trans waits.awaiting.entries) (waits.sameData atop)
    (waits.currentLocation_eq atop) why

theorem sameEnd_fault (failure : HostFault) : SameEnd (.fault failure, c) (.fault failure, k) := by
  intro e
  rw [endsAs_fault_iff (entries.trans waits.under),
    endsAs_fault_iff ((atop.entries_eq entries).trans waits.awaiting.entries),
    (waits.sameData atop).ending_eq]

variable {f' : Frame} {i : Instruction} (frames : c.frames.toList = [f'])
  (decoded : Instruction.decode (c.heap.method f'.method).code f'.ip = .ok i)
  (leaves : i.operation = .leave)

include frames decoded leaves

/-- The method returns a result, and the program returns it as well. -/
theorem sameEnd_leave (sound : Sound .fetch c) (covered : f'.stackBase < f'.sp) :
    SameEnd (.fetch, c) (.fetch, k) := by
  have awaiting := waits.awaiting
  have data := waits.sameData atop
  obtain ⟨quiet, quiet'⟩ := waits.quiet atop
  have above := atop.frames_cons frames
  have there := atop.entries_eq entries
  have decoded' := (atop.decode_raised f').trans decoded
  have live : f'.sp - 1 < c.stackTop := by
    rw [stackTop_eq, frames, topOf_cons]
    omega
  obtain ⟨v, top⟩ := sound.filled _ live
  have covered' : (f'.raised g.base.stackTop).stackBase < (f'.raised g.base.stackTop).sp :=
    Nat.add_lt_add_left covered _
  have top' : k.slot? ((f'.raised g.base.stackTop).sp - 1) = some v := by
    have place' : (f'.raised g.base.stackTop).sp - 1 = g.base.stackTop + (f'.sp - 1) := by
      simp only [Frame.raised]
      omega
    rw [place', atop.slots _ live, top]
  obtain ⟨n, ran, last, open_, same⟩ := step_leave frames quiet decoded leaves covered top
  obtain ⟨n', ran', inner, open', same'⟩ := step_leave above quiet' decoded' leaves covered' top'
  rw [List.map_nil, List.nil_append, awaiting.frames] at inner
  rw [leave_of_last last (open_.trans (entries.trans waits.under))] at ran
  rw [leave_of_inner inner (open'.trans (there.trans awaiting.entries))] at ran'
  let below : Machine := { n' with
    frames := n'.frames.pop
    segment := resize n'.segment (f'.raised g.base.stackTop).argBase }
  have frames' : below.frames.toList = g.base.frames.toList := by
    show n'.frames.pop.toList = _
    rw [FrameStack.toList_pop, inner, awaiting.frames]
    rfl
  have methods : below.heap.methods = g.base.heap.methods :=
    (congrArg Heap.methods same'.heap).trans atop.methods
  have awaiting' : Awaiting f below := awaiting.congr frames' (open'.trans there)
    (same'.settings.trans atop.settings) methods
  intro e
  calc EndsAs .fetch c e
    _ ↔ e = n.ending (.answer v) := (endsAs_iff_of_step ran).trans (endsAs_iff_of_handed rfl rfl)
    _ ↔ e = n'.ending (.answer v) := by rw [same'.ending_eq, same.ending_eq, data.ending_eq]
    _ ↔ EndsAs (below.push v).1 (below.push v).2 e :=
      ((endsAs_push_iff awaiting'.entries_ne_nil v).trans (awaiting'.returns v)).symm
    _ ↔ EndsAs .fetch k e := (endsAs_iff_of_step ran').symm

/-- The method has no result to return, and is given up. -/
theorem sameEnd_leave_empty (empty : f'.sp ≤ f'.stackBase) : SameEnd (.fetch, c) (.fetch, k) := by
  have awaiting := waits.awaiting
  have data := waits.sameData atop
  obtain ⟨quiet, quiet'⟩ := waits.quiet atop
  have above := atop.frames_cons frames
  have decoded' := (atop.decode_raised f').trans decoded
  have empty' : (f'.raised g.base.stackTop).sp ≤ (f'.raised g.base.stackTop).stackBase :=
    Nat.add_le_add_left empty _
  have name : (k.heap.method (f'.raised g.base.stackTop).method).name =
      (c.heap.method f'.method).name := by
    rw [atop.heap, Heap.method_relocate]
    rfl
  obtain ⟨n, ran, last, open_, same⟩ := step_leave_empty frames quiet decoded leaves empty
  obtain ⟨n', ran', inner, open', same'⟩ := step_leave_empty above quiet' decoded' leaves empty'
  rw [name] at ran'
  have same₂ : SameData n n' := same.symm.trans (data.trans same')
  have here : n'.currentLocation = n.currentLocation := by
    simp only [Machine.currentLocation, last, inner, same₂.heap]
    rfl
  have given := sameEnd_of_abandon (open_.trans (entries.trans waits.under))
    (open'.trans ((atop.entries_eq entries).trans awaiting.entries)) same₂ here
  intro e
  exact (endsAs_iff_of_step ran).trans ((given _ e).trans (endsAs_iff_of_step ran').symm)

end Footing.Waits

/-- A method that is called ends for a machine with nothing else to do as it does for the
program that has called it. -/
theorem Footing.Waits.sameEnd_closing {g : Footing} (waits : g.Waits f) (atop : Atop g c k)
    (sound : Sound a c) (closing : g.Closing a c) : SameEnd (a, c) (a, k) := by
  unfold Footing.Closing at closing
  cases a with
  | request r => exact closing.elim
  | reply v =>
    obtain ⟨added, here, -⟩ := atop.entries
    rw [closing, waits.under] at here
    exact absurd here.symm (List.append_ne_nil_of_right_ne_nil _ (List.cons_ne_nil _ _))
  | abandon why => exact waits.sameEnd_abandon atop closing why
  | fault failure => exact waits.sameEnd_fault atop closing failure
  | fetch =>
    obtain ⟨entries, f', i, frames, decoded, leaves⟩ := closing
    by_cases covered : f'.stackBase < f'.sp
    · exact waits.sameEnd_leave atop entries frames decoded leaves sound covered
    · exact waits.sameEnd_leave_empty atop entries frames decoded leaves (Nat.le_of_not_lt covered)

/-- A request that does in its first step what another one does runs out of room no more
than that one. -/
theorem Unlimited.request {r r' : Request} (unlimited : Unlimited (.request r) m)
    (same : m.enter r' = m.enter r) : Unlimited (.request r') m := by
  rintro k what ⟨count, steps⟩
  cases steps with
  | succ ran rest =>
    have ran' : Machine.step (.request r) m = _ :=
      (congrArg Progress.ofActivity same).symm.trans ran
    exact unlimited k what ⟨_, .succ ran' rest⟩

/-- What is reported instead of a call is reported of the same place. -/
theorem Awaiting.sameEnd_report (awaiting : Awaiting f l)
    (same : SameData (idle h image settings) l) (kind : Diagnostic.Kind) (message : String) :
    SameEnd (.reply .nil, (idle h image settings).report kind message)
      (.reply .nil, l.report kind message) :=
  sameEnd_of_handed rfl (awaiting.congr rfl rfl rfl rfl)
    (same.report awaiting.currentLocation kind message none) rfl

/-- A compiled method is called by a program as it is by a request. -/
theorem Awaiting.sameEnd_method (awaiting : Awaiting f l)
    (same : SameData (idle h image settings) l) (standard : h.Standard)
    (slots : ∀ (i : Nat) v, args[i]? = some v → l.slot? (f.sp + i) = some v)
    (alone : Unlimited (.request (.invoke (.method r) args)) (idle h image settings))
    (above : Unlimited (l.proceed r f.sp args.length).1 (l.proceed r f.sp args.length).2)
    (arity : (h.method r).argCount = args.length) :
    SameEnd ((idle h image settings).enter (.invoke (.method r) args))
      (l.proceed r f.sp args.length) := by
  have first : Machine.step (.request (.invoke (.method r) args)) (idle h image settings) =
      .ofActivity ((idle h image settings).enter (.invoke (.method r) args)) := rfl
  let passed : Machine :=
    { idle h image settings with segment := writeArgs (idle h image settings).segment 0 args }
  have entered : (idle h image settings).enter (.invoke (.method r) args) =
      passed.openEntry.proceed r 0 args.length := by
    simp only [enter, invokeCallable]
    rw [if_pos (by exact arity)]
    rfl
  rw [entered] at first ⊢
  have alone' := alone.leads (.step first)
  have begun := proceed_of_hasRoom alone'.hasRoom
  have called := proceed_of_hasRoom above.hasRoom
  rw [begun] at first alone' ⊢
  rw [called] at above ⊢
  have limits : l.settings = settings := same.settings
  let g : Footing := ⟨l, settings, [0], id, congrArg Settings.trace limits,
    .inl (limits ▸ awaiting.quiet), .inr ⟨rfl, 0, [], awaiting.entries, Nat.zero_le _⟩⟩
  have heap : l.heap = h := same.heap
  have raised : entering l.heap r f.sp args.length =
      (entering h r 0 args.length).raised l.stackTop := by
    rw [heap, awaiting.stackTop]
    simp only [entering, Frame.raised, Frame.mk.injEq, Nat.zero_add, Nat.add_zero, true_and]
    omega
  have atop : Atop g
      { passed.openEntry with frames := passed.frames.push (entering h r 0 args.length) }
      { l with frames := l.frames.push (entering l.heap r f.sp args.length) } := by
    refine ⟨heap.trans h.relocate_id.symm, same.image, rfl, rfl, ?_, ?_, ⟨[], rfl, rfl⟩, rfl,
      ⟨[], (List.append_nil _).symm, .nil⟩⟩
    · rw [raised, FrameStack.toList_push, FrameStack.toList_push]
      rfl
    · intro slot lt
      have lt' : slot < args.length := by
        have lt : slot < 0 + args.length := lt
        omega
      show l.slot? (l.stackTop + slot) = ((writeArgs #[] 0 args)[slot]?).join
      rw [awaiting.stackTop, slots slot _ (List.getElem?_eq_getElem lt'), slot_writeArgs,
        if_pos ⟨Nat.zero_le _, by omega⟩, Nat.sub_zero, List.getElem?_eq_getElem lt']
  have waits : g.Waits f := ⟨awaiting, rfl, rfl, same.log, limits.symm⟩
  have parallel := Parallel.of_unlimited atop (.move (.start h image settings _) (.step first))
    standard alone' above
  refine parallel.sameEnd fun n b c' k' together closing => ?_
  exact waits.sameEnd_closing (together.atop atop) (parallel.sound_of_inStep together) closing

/-- A primitive that is called does the same on both machines. -/
theorem alike_callPrimitive (same : SameData m l) (standard : m.heap.Standard)
    (p : Ref .primitive) (args : List Value) :
    Alike id m l (m.callPrimitive p args) (l.callPrimitive p args) ∨
      ∃ message, m.callPrimitive p args = (.reply .nil, m.report .arityMismatch message) ∧
        l.callPrimitive p args = (.reply .nil, l.report .arityMismatch message) := by
  have alike : Alike id m l _ _ :=
    alike_perform (same.heap.trans m.heap.relocate_id.symm) same.image (standard p)
      (m.heap.primitive p).name args
  unfold callPrimitive
  simp only [same.heap]
  cases (m.heap.primitive p).arity with
  | none => exact .inl alike
  | some expected =>
    simp only
    split
    · exact .inl alike
    · exact .inr ⟨_, rfl, rfl⟩

/-- A primitive is called by a program as it is by a request. -/
theorem Awaiting.sameEnd_primitive {p : Ref .primitive} (awaiting : Awaiting f l)
    (same : SameData (idle h image settings) l) (standard : h.Standard)
    (alone : Unlimited (.request (.invoke (.primitive p) args)) (idle h image settings))
    (above : Unlimited (l.callPrimitive p args).1 (l.callPrimitive p args).2) :
    SameEnd ((idle h image settings).enter (.invoke (.primitive p) args))
      (l.callPrimitive p args) := by
  have first : Machine.step (.request (.invoke (.primitive p) args)) (idle h image settings) =
      .ofActivity ((idle h image settings).enter (.invoke (.primitive p) args)) := rfl
  have answers := answers_callPrimitive (idle h image settings) p args
  have answers' := answers_callPrimitive l p args
  have alike := alike_callPrimitive same standard p args
  unfold enter invokeCallable at first ⊢
  simp only at first ⊢
  generalize (idle h image settings).callPrimitive p args = next at answers alike first ⊢
  generalize l.callPrimitive p args = other at answers' alike above ⊢
  rcases alike with alike | ⟨message, rfl, rfl⟩
  · cases alike with
    | same a =>
      cases a with
      | fetch => exact absurd rfl answers.not_fetch
      | reply v => exact sameEnd_of_handed rfl awaiting same rfl
      | fault failure => exact sameEnd_of_handed rfl awaiting same rfl
      | request r =>
        exact awaiting.sameEnd_request same standard (alone.leads (.step first)) above
      | abandon why =>
        have opened : SameData (idle h image settings).openEntry l :=
          ⟨same.heap, same.image, same.settings, same.log⟩
        exact sameEnd_of_abandon rfl awaiting.entries opened awaiting.currentLocation why
    | data v h' image' =>
      exact sameEnd_of_handed rfl (awaiting.congr rfl rfl rfl answers'.undisturbed.methods)
        ⟨h'.relocate_id, rfl, same.settings, same.log⟩ rfl
    | decline message => exact awaiting.sameEnd_report same _ message
  · exact awaiting.sameEnd_report same _ message

/-- A message that is understood calls its handler. -/
theorem enter_invoke_eq_send {receiver : Value} {selector : String} {callable : Callable}
    {owner : Ref .classObject}
    (found : m.image.handler? m.heap (m.image.classOf m.heap receiver) selector =
      .ok (some ⟨owner, callable⟩)) :
    m.enter (.invoke callable (receiver :: args)) = m.enter (.send receiver selector args) := by
  simp only [enter, found]

/-- A message is delivered by a call instruction as it is by a request. -/
theorem Awaiting.sameEnd_deliver {receiver : Value} {selector : String} (awaiting : Awaiting f l)
    (same : SameData (idle h image settings) l) (standard : h.Standard)
    (slots : ∀ (i : Nat) v, (receiver :: args)[i]? = some v → l.slot? (f.sp + i) = some v)
    (alone : Unlimited (.request (.send receiver selector args)) (idle h image settings))
    (above : Unlimited (l.deliver (.symbol selector) (receiver :: args)).1
      (l.deliver (.symbol selector) (receiver :: args)).2) :
    SameEnd ((idle h image settings).enter (.send receiver selector args))
      (l.deliver (.symbol selector) (receiver :: args)) := by
  have cut : SameData (idle h image settings) (l.truncate l.stackTop) :=
    ⟨same.heap, same.image, same.settings, same.log⟩
  have awaiting' : Awaiting f (l.truncate l.stackTop) := awaiting.congr rfl rfl rfl rfl
  have invoked {callable : Callable} {owner : Ref .classObject}
      (found : image.handler? h (image.classOf h receiver) selector =
        .ok (some ⟨owner, callable⟩)) :
      (idle h image settings).enter (.invoke callable (receiver :: args)) =
        (idle h image settings).enter (.send receiver selector args) := enter_invoke_eq_send found
  have heap : l.heap = h := same.heap
  have image_eq : l.image = image := same.image
  unfold deliver at above ⊢
  simp only [Value.asSymbol?, List.headD_cons, heap, image_eq] at above ⊢
  cases found : image.handler? h (image.classOf h receiver) selector with
  | error failure =>
    have failed : (idle h image settings).enter (.send receiver selector args) =
        (.fault failure, idle h image settings) := by
      simp only [enter, idle, found]
    rw [failed]
    exact sameEnd_of_handed rfl awaiting same rfl
  | ok handler =>
    rcases handler with _ | ⟨owner, p | r⟩
    · have unknown : (idle h image settings).enter (.send receiver selector args) =
          (idle h image settings).notUnderstood receiver selector := by
        simp only [enter, idle, found]
      rw [unknown]
      unfold notUnderstood
      simp only [cut.heap, cut.image]
      exact awaiting'.sameEnd_report cut _ _
    · rw [← invoked found]
      simp only [found] at above
      exact awaiting'.sameEnd_primitive cut standard
        (alone.request (invoked found)) above
    · rw [← invoked found]
      simp only [found] at above ⊢
      by_cases arity : (h.method r).argCount = ((receiver :: args).length : Nat)
      · rw [if_pos arity] at above ⊢
        have called := awaiting.sameEnd_method same standard slots
          (alone.request (invoked found))
        unfold proceed at called
        simp only [heap, image_eq] at called
        rw [awaiting.stackTop] at above ⊢
        exact called above arity
      · rw [if_neg arity]
        have refused : (idle h image settings).enter (.invoke (.method r) (receiver :: args)) =
            (.reply .nil, (idle h image settings).wrongArity (h.method r).name
              (h.method r).argCount (receiver :: args).length) := by
          simp only [enter, invokeCallable]
          exact if_neg arity
        rw [refused]
        intro e
        refine (awaiting'.sameEnd_report cut .arityMismatch _ e).trans
          (endsAs_push_iff ?_ .nil).symm
        exact awaiting'.entries_ne_nil

end

/-! ## Up to the call -/

section

variable {program : Ref .method} {receiver : Value} {selector : String} {args : List Value}

/-- A program that sends one message loads the receiver, the arguments and the selector. -/
theorem exists_loaded (none_ : m.frames.toList = []) (quiet : m.settings.trace = false)
    (sends : m.heap.SendsOnce program receiver selector args)
    (unlimited : Unlimited (.request (.execute program)) m) :
    ∃ k ip, StepsIn (args.length + 3) (.request (.execute program)) m .fetch k ∧
      Inside m.openEntry k (entering m.heap program m.stackTop 0) [] ip
        (receiver :: args ++ [.symbol selector]) ∧
      SameData m k ∧
      Spells (m.heap.method program).code ip [.call (args.length + 1), .leave] := by
  obtain ⟨indices, constants, spells⟩ := sends.code
  have first : step (.request (.execute program)) m =
      .ofActivity (m.openEntry.proceed program m.stackTop 0) := by
    simp only [step, enter, sends.argCount, if_true]
    rfl
  rw [proceed_of_hasRoom (unlimited.leads (.step first)).hasRoom] at first
  let f := entering m.heap program m.stackTop 0
  let k₀ : Machine := { m.openEntry with frames := m.frames.push f }
  have entered : Inside m.openEntry k₀ f [] 0 [] := by
    refine ⟨?_, fun _ _ => rfl, by simp, rfl⟩
    show (m.frames.push f).toList = _
    rw [FrameStack.toList_push, none_]
    rfl
  have fits : ((f.stackBase + (([] : List Value).length +
      (receiver :: args ++ [Value.symbol selector]).length) : Nat) : Int) ≤ f.limit := by
    have capacity := sends.capacity
    have limit : f.limit = f.stackBase + (m.heap.method program).maxStack := rfl
    have length : (receiver :: args ++ [Value.symbol selector]).length = args.length + 2 := by simp
    rw [limit, length, List.length_nil]
    omega
  have quiet₀ : k₀.settings.trace = false := quiet
  obtain ⟨k, ip, steps, inside, same, spells'⟩ :=
    Inside.loadsAll (k := k₀) constants rfl quiet₀ entered spells fits
  have count : indices.length = args.length + 2 := by
    rw [constants.length_eq]
    simp
  rw [count] at steps
  exact ⟨k, ip, .succ first steps, inside, ⟨same.heap, same.image, same.settings, same.log⟩,
    spells'⟩

/-- It gets as far as delivering the message, and has done nothing else so far. -/
theorem exists_delivery (none_ : m.frames.toList = []) (closed : m.entries = [])
    (quiet : m.settings.trace = false) (sends : m.heap.SendsOnce program receiver selector args)
    (unlimited : Unlimited (.request (.execute program)) m) :
    ∃ f k l, StepsIn (args.length + 3) (.request (.execute program)) m .fetch k ∧
      step .fetch k = .ofActivity (l.deliver (.symbol selector) (receiver :: args)) ∧
      SameData m k ∧ SameData k l ∧ Awaiting f l ∧
      ∀ (i : Nat) v, (receiver :: args)[i]? = some v → l.slot? (f.sp + i) = some v := by
  obtain ⟨k, ip, steps, inside, data, spells⟩ := exists_loaded none_ quiet sends unlimited
  generalize calls : Operation.call (args.length + 1) = operation at spells
  cases spells with
  | @cons _ i _ decoded spells =>
    generalize leaves : Operation.leave = operation at spells
    cases spells with
    | @cons _ j _ decoded' _ =>
      let f := entering m.heap program m.stackTop 0
      have quiet' : k.settings.trace = false := by rw [data.settings, quiet]
      have code : k.heap.method f.method = m.heap.method program := by rw [data.heap]; rfl
      rw [← code] at decoded decoded'
      obtain ⟨n, ran, past, same⟩ := inside.fetchQuietly quiet' decoded
      let g : Frame := { f with ip := i.next, sp := f.stackBase + ([] : List Value).length }
      let l : Machine := { n with frames := n.frames.setTop g }
      have loaded : Inside m.openEntry n f [] i.next
          ([] ++ (receiver :: args) ++ [.symbol selector]) := past
      have delivers : n.call (receiver :: args).length i.offset =
          l.deliver (.symbol selector) (receiver :: args) :=
        loaded.call_eq (List.cons_ne_nil _ _) i.offset
      have whole : Inside m.openEntry n f [] i.next
          ([] ++ (receiver :: args ++ [.symbol selector])) := past
      have lowered : Inside m.openEntry l f [] i.next [] := whole.lower rfl
      refine ⟨g, k, l, steps, ?_, data, ⟨same.heap, same.image, same.settings, same.log⟩, ?_,
        loaded.slots_args⟩
      · rw [ran]
        simp only [execute, ← calls]
        exact congrArg Progress.ofActivity delivers
      · refine ⟨lowered.frames, ?_, ?_, rfl, ?_, ?_, ⟨j, ?_, leaves.symm⟩⟩
        · rw [lowered.entries, openEntry, FrameStack.size_eq, none_, closed]
          rfl
        · rw [show l.settings = k.settings from same.settings, quiet']
        · have capacity := sends.capacity
          have limit : g.limit = g.stackBase + (m.heap.method program).maxStack := rfl
          have sp : g.sp = g.stackBase := rfl
          rw [limit, sp]
          omega
        · rw [show l.heap = k.heap from same.heap, show g.method = f.method from rfl, code,
            sends.source]
        · rw [show l.heap = k.heap from same.heap]
          exact decoded'

end

/-! ## Messages that are not understood -/

/-- From one state to the next it is reported that a message is not understood. -/
def Misses (m k : Machine) : Prop :=
  ∃ d, k.log = m.log.push d ∧ d.kind = .messageNotUnderstood

theorem not_misses_of_log_eq (log : k.log = m.log) : ¬ Misses m k := by
  rintro ⟨d, more, -⟩
  have size := congrArg Array.size (log.symm.trans more)
  simp at size

theorem not_misses_of_push {d : Diagnostic} (log : k.log = m.log.push d)
    (other : d.kind ≠ .messageNotUnderstood) : ¬ Misses m k := by
  rintro ⟨d', log', kind⟩
  have same : d = d' := (Array.push_eq_push.1 (log.symm.trans log')).1
  exact other (same ▸ kind)

theorem not_misses_push (v : Value) (silent : ¬ Misses m k) : ¬ Misses m (k.push v).2 := by
  rintro ⟨d, log, kind⟩
  exact silent ⟨d, (sameData_of_push (a := (k.push v).1) rfl).log.symm.trans log, kind⟩

theorem Alike.not_misses {place : Location → Location} {next other : Activity × Machine}
    (alike : Alike place m k next other) : ¬ Misses m next.2 := by
  cases alike with
  | same a => exact not_misses_of_log_eq rfl
  | data v h image => exact not_misses_of_log_eq rfl
  | decline message => exact not_misses_of_push rfl Diagnostic.Kind.noConfusion

/-- A primitive that is called reports other things. -/
theorem not_misses_callPrimitive (standard : m.heap.Standard) (p : Ref .primitive)
    (args : List Value) : ¬ Misses m (m.callPrimitive p args).2 := by
  rcases alike_callPrimitive (.refl m) standard p args with alike | ⟨message, called, -⟩
  · exact alike.not_misses
  · rw [called]
    exact not_misses_of_push rfl Diagnostic.Kind.noConfusion

theorem not_misses_begin (r : Ref .method) (argBase argCount : Nat) :
    ¬ Misses m (m.begin r argBase argCount).2 := by
  unfold Machine.begin
  split <;> exact not_misses_of_log_eq rfl

section

variable {receiver : Value} {selector : String} {args : List Value} {found : Option Image.Handler}

/-- A request that sends a message reports that it is not understood where no handler is
found. -/
theorem misses_enter_iff (standard : m.heap.Standard)
    (looked : m.image.handler? m.heap (m.image.classOf m.heap receiver) selector = .ok found) :
    Misses m (m.enter (.send receiver selector args)).2 ↔ found = none := by
  unfold enter
  simp only [looked]
  rcases found with _ | ⟨owner, p | r⟩
  · exact ⟨fun _ => rfl, fun _ => ⟨_, rfl, rfl⟩⟩
  · refine iff_of_false ?_ (Option.some_ne_none _)
    have silent := not_misses_callPrimitive standard p (receiver :: args)
    simp only [invokeCallable]
    generalize m.callPrimitive p (receiver :: args) = next at silent ⊢
    obtain ⟨activity, n⟩ := next
    cases activity <;> exact silent
  · refine iff_of_false ?_ (Option.some_ne_none _)
    simp only [invokeCallable]
    split
    · exact not_misses_begin _ _ _
    · exact not_misses_of_push rfl Diagnostic.Kind.noConfusion

/-- So does a call instruction that delivers it. -/
theorem misses_deliver_iff (standard : m.heap.Standard)
    (looked : m.image.handler? m.heap (m.image.classOf m.heap receiver) selector = .ok found) :
    Misses m (m.deliver (.symbol selector) (receiver :: args)).2 ↔ found = none := by
  unfold deliver
  simp only [Value.asSymbol?, List.headD_cons, looked]
  rcases found with _ | ⟨owner, p | r⟩
  · exact ⟨fun _ => rfl, fun _ => ⟨_, rfl, rfl⟩⟩
  · refine iff_of_false ?_ (Option.some_ne_none _)
    have cut : (m.truncate m.stackTop).heap.Standard := standard
    exact not_misses_callPrimitive cut p (receiver :: args)
  · refine iff_of_false ?_ (Option.some_ne_none _)
    simp only
    split
    · split <;> exact not_misses_of_log_eq rfl
    · exact not_misses_push .nil (not_misses_of_push rfl Diagnostic.Kind.noConfusion)

end

/-- In a step of a run it is reported that a message is not understood. -/
def MissesAt (a : Activity) (m : Machine) (count : Nat) : Prop :=
  ∃ b k c l, StepsIn count a m b k ∧ step b k = .running c l ∧ Misses k l

/-- Which step that is does not depend on how it was reached. -/
theorem missesAt_iff {count : Nat} (steps : StepsIn count a m b k)
    {next : Activity × Machine} (ran : step b k = .ofActivity next) :
    MissesAt a m count ↔ Misses k next.2 := by
  constructor
  · rintro ⟨b', k', c, l, steps', ran', misses⟩
    obtain ⟨rfl, rfl⟩ := steps.unique steps'
    cases ran.symm.trans ran'
    exact misses
  · exact fun misses => ⟨b, k, _, _, steps, ran, misses⟩

/-! ## The two ways -/

/-- To have a program send a message is to send it. -/
structure SendsAlike (m : Machine) (program : Ref .method) (receiver : Value)
    (selector : String) (args : List Value) : Prop where
  /-- Either both runs end, with the same answer, the same heap, the same image and the same
  reports, or none of them ends. -/
  ends : SameEnd (.request (.send receiver selector args), m) (.request (.execute program), m)
  /-- The request finds out in its first step whether the message is understood. -/
  sent : ∀ understood, m.image.respondsTo m.heap receiver selector = .ok understood →
    (¬ MissesAt (.request (.send receiver selector args)) m 0 ↔ understood = true)
  /-- The program does so in the step of its call, which comes after those that begin it and
  load the receiver, the arguments and the selector. -/
  called : ∀ understood, m.image.respondsTo m.heap receiver selector = .ok understood →
    (¬ MissesAt (.request (.execute program)) m (args.length + 3) ↔ understood = true)

/-- On a machine on which nothing is active and that does not trace, as long as no limit is
reached. -/
theorem sendsAlike_of_unlimited {program : Ref .method} {receiver : Value} {selector : String}
    {args : List Value} (none_ : m.frames.toList = []) (closed : m.entries = [])
    (quiet : m.settings.trace = false) (standard : m.heap.Standard)
    (sends : m.heap.SendsOnce program receiver selector args)
    (alone : Unlimited (.request (.send receiver selector args)) m)
    (above : Unlimited (.request (.execute program)) m) :
    SendsAlike m program receiver selector args := by
  have understood_iff {understood : Bool} {found : Option Image.Handler}
      (responds : m.image.respondsTo m.heap receiver selector = .ok understood)
      (looked : m.image.handler? m.heap (m.image.classOf m.heap receiver) selector = .ok found) :
      found = none ↔ ¬ understood = true := by
    unfold Image.respondsTo at responds
    rw [looked] at responds
    cases responds
    cases found <;> simp
  have exists_found {understood : Bool}
      (responds : m.image.respondsTo m.heap receiver selector = .ok understood) :
      ∃ found, m.image.handler? m.heap (m.image.classOf m.heap receiver) selector = .ok found := by
    unfold Image.respondsTo at responds
    cases looked : m.image.handler? m.heap (m.image.classOf m.heap receiver) selector with
    | ok found => exact ⟨found, rfl⟩
    | error failure =>
      rw [looked] at responds
      cases responds
  refine ⟨?_, ?_, ?_⟩
  · have alone' := unlimited_idle none_ standard alone
    have above' := unlimited_idle none_ standard above
    obtain ⟨f, k, l, steps, ran, same, same', awaiting, slots⟩ :=
      exists_delivery (m := idle m.heap m.image m.settings) rfl rfl quiet sends above'
    have delivered := awaiting.sameEnd_deliver (same.trans same') standard slots alone'
      (above'.leads (.trans ⟨_, steps⟩ (.step ran)))
    have fresh : SameEnd
        (.request (.send receiver selector args), idle m.heap m.image m.settings)
        (.request (.execute program), idle m.heap m.image m.settings) := by
      intro e
      refine (endsAs_iff_of_step ?_).trans ((delivered e).trans
        (endsAs_iff_of_leads (.trans ⟨_, steps⟩ (.step ran))).symm)
      rfl
    intro e
    refine (endsAs_iff_idle none_ closed standard).trans
      (Iff.trans ?_ (endsAs_iff_idle none_ closed standard).symm)
    exact exists_congr fun e₀ => and_congr_left' (fresh e₀)
  · intro understood responds
    obtain ⟨found, looked⟩ := exists_found responds
    rw [missesAt_iff .zero rfl, misses_enter_iff standard looked, understood_iff responds looked,
      not_not]
  · intro understood responds
    obtain ⟨found, looked⟩ := exists_found responds
    obtain ⟨f, k, l, steps, ran, same, same', -, -⟩ :=
      exists_delivery none_ closed quiet sends above
    have data := same.trans same'
    have standard' : l.heap.Standard := by rwa [data.heap]
    rw [← data.heap, ← data.image] at looked
    have missed : Misses k (l.deliver (.symbol selector) (receiver :: args)).2 ↔ found = none := by
      have counted : Misses l (l.deliver (.symbol selector) (receiver :: args)).2 ↔ found = none :=
        misses_deliver_iff standard' looked
      unfold Misses at counted ⊢
      rwa [same'.log] at counted
    rw [missesAt_iff steps ran, missed, understood_iff responds _, not_not]
    rwa [data.heap, data.image] at looked

/-- The standard classes, and a program that adds two numbers. -/
def additionHeap : Heap :=
  { (Image.create .empty none false).1 with
    methods := #[⟨"addition", 0, #[1, 0, 1, 1, 1, 2, 3, 2, 4],
      #[.integer 3, .integer 4, .symbol "+"], 3, none⟩] }

theorem sendsOnce_addition : additionHeap.SendsOnce ⟨0⟩ (.integer 3) "+" [.integer 4] where
  argCount := rfl
  source := rfl
  capacity := by decide
  code := ⟨[0, 1, 2], .cons rfl (.cons rfl (.cons rfl .nil)),
    .cons (i := ⟨0, .loadConstant 0, 2⟩) rfl <| .cons (i := ⟨2, .loadConstant 1, 4⟩) rfl <|
      .cons (i := ⟨4, .loadConstant 2, 6⟩) rfl <| .cons (i := ⟨6, .call 2, 8⟩) rfl <|
        .cons (i := ⟨8, .leave, 9⟩) rfl .nil⟩

theorem sendsAlike_addition :
    SendsAlike (idle additionHeap (Image.create .empty none false).2 .standard) ⟨0⟩ (.integer 3)
      "+" [.integer 4] := by
  have standard : additionHeap.Standard := Workspace.fresh.compiled.standard.congr rfl
  have alone : staysWithin 20 (.request (.send (.integer 3) "+" [.integer 4]))
      (idle additionHeap (Image.create .empty none false).2 .standard) = true := by
    decide +kernel
  have above : staysWithin 20 (.request (.execute ⟨0⟩))
      (idle additionHeap (Image.create .empty none false).2 .standard) = true := by
    decide +kernel
  exact sendsAlike_of_unlimited rfl rfl rfl standard sendsOnce_addition
    (unlimited_of_staysWithin alone) (unlimited_of_staysWithin above)

end Machine

end MessageMachine
