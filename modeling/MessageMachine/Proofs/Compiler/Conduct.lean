/-
# Compiled code keeps its course

While nothing but compiled code runs, every frame is at a place from which its code is
safe, with operands that are what is known of them. Each transition of the machine
leads from such a state to another one. It follows that compiled code is never given up
for a mistake of its own, and that an execution is abandoned only where a limit is
reached or an integer does not fit. Nothing fails like the host either, but for a string
that would be too long.

The invariant has the shape of that of verified code, and it is needed beside it. That
one knows how many operands there are, this one what they are.
-/

import MessageMachine.Proofs.Compiler.Request
import MessageMachine.Proofs.Compiler.Safety

namespace MessageMachine

open Machine (SameCode)

/-! ## Frames on course -/

namespace Frame

/-- A frame for compiled code is at a place from which the code is safe with the operands
that it has and `extra` results that are still to come. -/
structure Course (m : Machine) (extra : Nat) (f : Frame) (a : Assembler) (start : Nat → Nat)
    (place : Nat) (symbols : List Bool) : Prop where
  coded : m.heap.Coded f.method a start
  safe : a.Safe place (List.replicate extra false ++ symbols)
  ip : f.ip = start place
  sp : f.sp = f.stackBase + symbols.length
  known : ∀ index, symbols[index]? = some true →
    ∃ name, m.slot? (f.sp - (index + 1)) = some (.symbol name)

def OnCourse (m : Machine) (extra : Nat) (f : Frame) : Prop :=
  ∃ a start place symbols, f.Course m extra a start place symbols

namespace OnCourse

variable {m k : Machine} {extra : Nat} {f : Frame} {i : Instruction}

/-- Nothing matters but the code and the operands. -/
theorem congr (course : f.OnCourse m extra) (same : SameCode m.heap k.heap)
    (kept : ∀ slot < f.sp, k.slot? slot = m.slot? slot) : f.OnCourse k extra := by
  obtain ⟨a, start, place, symbols, c⟩ := course
  refine ⟨a, start, place, symbols, c.coded.congr same, c.safe, c.ip, c.sp, ?_⟩
  intro index there
  have lt := (List.getElem?_eq_some_iff.1 there).1
  have sp := c.sp
  rw [kept _ (by omega)]
  exact c.known index there

/-- Going on where an instruction without a result lets control go, which is not before
the next instruction. -/
theorem advance {ip : Int} (course : f.OnCourse m 0)
    (decoded : Instruction.decode (m.heap.method f.method).code f.ip = .ok i)
    (flows : ip ∈ i.successors) (covered : i.operation.pops ≤ f.depth)
    (leaves : i.operation.pushes = 0) :
    (i.next : Int) ≤ ip ∧
      OnCourse m 0 { f with ip := ip, sp := f.sp - i.operation.pops } := by
  obtain ⟨a, start, place, symbols, c⟩ := course
  rw [c.ip] at decoded
  obtain ⟨place', there, onward, safe⟩ := c.safe.advance c.coded.laid decoded flows leaves
  have sp := c.sp
  unfold depth at covered
  refine ⟨onward, a, start, place', symbols.drop i.operation.pops, c.coded, safe, there, ?_, ?_⟩
  · rw [List.length_drop]
    show f.sp - i.operation.pops = f.stackBase + (symbols.length - i.operation.pops)
    omega
  · intro index known
    rw [List.getElem?_drop] at known
    obtain ⟨name, found⟩ := c.known _ known
    refine ⟨name, ?_⟩
    rw [← found]
    apply congrArg
    show f.sp - i.operation.pops - (index + 1) = _
    omega

/-- Waiting for the result of a call. -/
theorem await {n : Nat} (course : f.OnCourse m 0)
    (decoded : Instruction.decode (m.heap.method f.method).code f.ip = .ok i)
    (calls : i.operation = .call n) (covered : n + 1 ≤ f.depth) :
    OnCourse m 1 { f with ip := i.next, sp := f.sp - (n + 1) } := by
  obtain ⟨a, start, place, symbols, c⟩ := course
  rw [c.ip] at decoded
  have leaves : i.operation.pushes = 1 := by rw [calls]; rfl
  obtain ⟨next, known, safe, symbol⟩ := c.safe.produce c.coded.laid decoded leaves
  have unknown : known = false := by
    cases known with
    | false => rfl
    | true =>
      obtain ⟨index, name, loads, -⟩ := symbol rfl
      rw [calls] at loads
      cases loads
  subst unknown
  rw [calls] at safe
  have sp := c.sp
  unfold depth at covered
  refine ⟨a, start, place + 1, symbols.drop (n + 1), c.coded, safe, congrArg Nat.cast next, ?_, ?_⟩
  · rw [List.length_drop]
    show f.sp - (n + 1) = f.stackBase + (symbols.length - (n + 1))
    omega
  · intro index known
    rw [List.getElem?_drop] at known
    obtain ⟨name, found⟩ := c.known _ known
    refine ⟨name, ?_⟩
    rw [← found]
    apply congrArg
    show f.sp - (n + 1) - (index + 1) = _
    omega

/-- A result has been pushed. If it was loaded from the constants, it is that constant. -/
theorem produce {v : Value} (course : f.OnCourse m 0)
    (decoded : Instruction.decode (m.heap.method f.method).code f.ip = .ok i)
    (covered : i.operation.pops ≤ f.depth) (leaves : i.operation.pushes = 1)
    (same : SameCode m.heap k.heap)
    (kept : ∀ slot < f.sp - i.operation.pops, k.slot? slot = m.slot? slot)
    (top : k.slot? (f.sp - i.operation.pops) = some v)
    (constant : ∀ index w, i.operation = .loadConstant index →
      (m.heap.method f.method).constants[index]? = some w → v = w) :
    OnCourse k 0 { f with ip := i.next, sp := f.sp - i.operation.pops + 1 } := by
  obtain ⟨a, start, place, symbols, c⟩ := course
  rw [c.ip] at decoded
  obtain ⟨next, known, safe, symbol⟩ := c.safe.produce c.coded.laid decoded leaves
  have sp := c.sp
  unfold depth at covered
  refine ⟨a, start, place + 1, known :: symbols.drop i.operation.pops, c.coded.congr same, safe,
    congrArg Nat.cast next, ?_, ?_⟩
  · rw [List.length_cons, List.length_drop]
    show f.sp - i.operation.pops + 1 = f.stackBase + (symbols.length - i.operation.pops + 1)
    omega
  · intro index there
    cases index with
    | zero =>
      cases there
      obtain ⟨index, name, loads, pooled⟩ := symbol rfl
      rw [← c.coded.constants] at pooled
      cases constant index _ loads pooled
      exact ⟨name, top⟩
    | succ index =>
      rw [List.getElem?_cons_succ, List.getElem?_drop] at there
      obtain ⟨name, found⟩ := c.known _ there
      have lt := (List.getElem?_eq_some_iff.1 there).1
      refine ⟨name, ?_⟩
      have slot : f.sp - i.operation.pops + 1 - (index + 1 + 1) =
          f.sp - (i.operation.pops + index + 1) := by omega
      show k.slot? (f.sp - i.operation.pops + 1 - (index + 1 + 1)) = _
      rw [slot, kept _ (by omega), found]

/-- The result that a frame was waiting for has been pushed. -/
theorem receive (course : f.OnCourse m 1) (same : SameCode m.heap k.heap)
    (kept : ∀ slot < f.sp, k.slot? slot = m.slot? slot) :
    OnCourse k 0 { f with sp := f.sp + 1 } := by
  obtain ⟨a, start, place, symbols, c⟩ := course
  refine ⟨a, start, place, false :: symbols, c.coded.congr same, c.safe, c.ip, ?_, ?_⟩
  · rw [List.length_cons]
    exact congrArg Nat.succ c.sp
  · intro index there
    cases index with
    | zero => cases there
    | succ index =>
      rw [List.getElem?_cons_succ] at there
      obtain ⟨name, found⟩ := c.known index there
      have lt := (List.getElem?_eq_some_iff.1 there).1
      have sp := c.sp
      refine ⟨name, ?_⟩
      have slot : f.sp + 1 - (index + 1 + 1) = f.sp - (index + 1) := by omega
      show k.slot? (f.sp + 1 - (index + 1 + 1)) = _
      rw [slot, kept _ (by omega), found]

/-- The name that a global gets is a symbol. -/
theorem named (course : f.OnCourse m 0)
    (decoded : Instruction.decode (m.heap.method f.method).code f.ip = .ok i)
    (defines : i.operation = .defineGlobal) : ∃ name, m.slot? (f.sp - 2) = some (.symbol name) := by
  obtain ⟨a, start, place, symbols, c⟩ := course
  rw [c.ip] at decoded
  exact c.known 1 (c.safe.named c.coded.laid decoded defines)

end OnCourse

/-- The frame of a compiled method that has just been entered. -/
theorem onCourse_entering {library : List Function} {m : Machine} {h : Heap} {r : Ref .method}
    (compiled : m.heap.Compiled library) (inside : r.index < m.heap.methods.size)
    (argBase argCount : Nat) : (Machine.entering h r argBase argCount).OnCourse m 0 := by
  rw [compiled.size] at inside
  obtain ⟨a, start, coded, safe⟩ := Heap.exists_safe_of_implements
    (compiled.implements r.index _ (List.getElem?_eq_getElem inside))
  refine ⟨a, start, 0, [], coded, safe, ?_, rfl, nofun⟩
  rw [coded.laid.start_zero]
  rfl

end Frame

namespace Machine

variable {library : List Function} {a b : Activity} {m k : Machine}

/-! ## Machines on course -/

/-- The frame that executes is on its course, and frames that wait are but for the
result. -/
structure OnCourse (a : Activity) (m : Machine) : Prop where
  executing : a = .fetch → ∀ f outer, m.frames.toList = f :: outer → f.OnCourse m 0
  waiting : ∀ f ∈ m.frames.toList.tail, f.OnCourse m 1
  awaiting : a.Awaits ∨ m.entries.head? = some m.frames.toList.length →
    ∀ f ∈ m.frames.toList, f.OnCourse m 1

theorem OnCourse.of_executing {f : Frame} {outer : List Frame} (frames : m.frames.toList = f :: outer)
    (executing : f.OnCourse m 0) (waiting : ∀ g ∈ outer, g.OnCourse m 1)
    (nested : Nested m.frames.toList.length m.entries) : OnCourse .fetch m where
  executing := by
    intro _ g inner frames'
    obtain ⟨rfl, -⟩ := List.cons.inj (frames.symm.trans frames')
    exact executing
  waiting := by
    rw [frames]
    exact waiting
  awaiting := by
    rintro (awaits | frameless)
    · exact awaits.elim
    · exact absurd frameless nested.head?_ne

theorem OnCourse.of_waiting (not_fetch : a ≠ .fetch)
    (waiting : ∀ f ∈ m.frames.toList, f.OnCourse m 1) : OnCourse a m where
  executing := fun fetch => absurd fetch not_fetch
  waiting := fun f inside => waiting f (List.mem_of_mem_tail inside)
  awaiting := fun _ => waiting

/-- A request that code may make, or the program that is run to begin with. -/
def Request.Proper (h : Heap) (r : Request) : Prop :=
  r.args ≠ [] ∨ ∃ program, r = .execute program ∧ program.index < h.methods.size

/-- What holds while nothing but compiled code runs. -/
structure Conducted (library : List Function) (a : Activity) (m : Machine) : Prop where
  compiled : m.heap.Compiled library
  inOrder : Image.InOrder m.heap m.image
  onCourse : OnCourse a m
  asked : ∀ r, a = .request r → r.Proper m.heap
  /-- Nothing fails like the host, unless a string would be too long for it. -/
  overlong : ∀ f, a = .fault f → f = .outOfRange .overlong
  /-- No code is given up for a mistake of its own. -/
  blameless : ∀ why, a = .abandon why → ¬ why.BlamesCode

/-- A method that is entered with the arguments of a proper request is there. -/
theorem index_lt_of_argCount {h : Heap} {r : Ref .method} {count : Nat}
    (arity : (h.method r).argCount = count) (positive : 0 < count) : r.index < h.methods.size := by
  by_cases inside : r.index < h.methods.size
  · exact inside
  · rw [Heap.method_of_size_le (Nat.le_of_not_lt inside)] at arity
    have zero : (0 : Int) = count := arity
    omega

/-- Frames that wait stay on course where nothing below their end has changed. -/
theorem onCourse_waiting {frames : List Frame} {bound : Nat}
    (waiting : ∀ f ∈ frames, f.OnCourse m 1) (windows : Windows m.heap m.settings frames)
    (same : SameCode m.heap k.heap) (below : topOf frames ≤ bound)
    (kept : ∀ slot < bound, k.slot? slot = m.slot? slot) : ∀ f ∈ frames, f.OnCourse k 1 :=
  fun f inside => (waiting f inside).congr same fun slot lt =>
    kept slot (Nat.lt_of_lt_of_le lt ((windows.sp_le_topOf inside).trans below))

/-- Frames begin where those outside them end, and their operands are further up. -/
theorem Windows.topOf_le_stackBase {h : Heap} {s : Settings} {f : Frame} {outer : List Frame}
    (windows : Windows h s (f :: outer)) : topOf outer ≤ f.stackBase := by
  rw [windows.fits.stackBase_eq, windows.fits.argBase_eq]
  exact Nat.le_add_right _ _

/-! ## One step -/

/-- Executing an instruction keeps the frames on course. -/
theorem onCourse_of_fetch (sound : Sound .fetch m) (conducted : Conducted library .fetch m)
    (ran : step .fetch m = .running b k) : OnCourse b k := by
  have same := sameCode_of_step ran
  have compiled := conducted.compiled.congr same
  have transition := transition_of_step sound ran
  have sound' := sound_of_transition sound transition
  obtain ⟨f, outer, frames⟩ := List.exists_cons_of_ne_nil (sound.running rfl)
  have here := conducted.onCourse.executing rfl f outer frames
  have windows := sound.windows
  have others := conducted.onCourse.waiting
  rw [frames] at windows others
  have base := windows.topOf_le_stackBase
  have depth := windows.fits.sp_eq
  have outside : ∀ {bound : Nat}, f.argBase ≤ bound →
      (∀ slot < bound, k.slot? slot = m.slot? slot) → ∀ g ∈ outer, g.OnCourse k 1 := by
    intro bound above kept
    exact onCourse_waiting others windows.below same (windows.fits.argBase_eq ▸ above) kept
  rw [← windows.fits.argBase_eq] at base
  cases transition with
  | @advance _ _ _ _ i ip top decoded flows covered leaves st =>
    cases frames.symm.trans top
    have next := (here.advance decoded flows covered leaves).2.congr same st.kept
    exact .of_executing st.frames next
      (outside (show f.argBase ≤ f.sp - i.operation.pops by omega) st.kept) sound'.nested_fetch
  | @produce _ _ _ _ i v top decoded flows covered leaves room pushed =>
    cases frames.symm.trans top
    have constant : ∀ index w, i.operation = .loadConstant index →
        (m.heap.method f.method).constants[index]? = some w → v = w := by
      intro index w loads pooled
      have loaded := slot_of_loadConstant frames decoded loads pooled ran
      have top := pushed.top
      rw [loads] at top
      exact Option.some.inj (top.symm.trans loaded)
    have next := here.produce decoded covered leaves same pushed.kept pushed.top constant
    exact .of_executing pushed.frames next
      (outside (show f.argBase ≤ f.sp - i.operation.pops by omega) pushed.kept) sound'.nested_fetch
  | @await _ _ _ _ i n _ top decoded calls positive covered not_fetch overflow st =>
    cases frames.symm.trans top
    have waits := (here.await decoded calls covered).congr same st.kept
    have others := outside (show f.argBase ≤ f.sp - (n + 1) by omega) st.kept
    refine .of_waiting not_fetch ?_
    rw [st.frames]
    exact List.forall_mem_cons.2 ⟨waits, others⟩
  | @call _ _ _ _ i n r top decoded calls positive covered arity room frames' kept _ _ methods =>
    cases frames.symm.trans top
    have inside := index_lt_of_argCount arity positive
    rw [← methods] at inside
    have lower := fun slot (lt : slot < f.sp - (n + 1)) =>
      kept slot (Nat.lt_of_lt_of_le lt (Nat.sub_le _ _))
    have waits := (here.await decoded calls covered).congr same lower
    have others := outside (show f.argBase ≤ f.sp - (n + 1) by omega) lower
    exact .of_executing frames' (Frame.onCourse_entering compiled inside _ _)
      (List.forall_mem_cons.2 ⟨waits, others⟩) sound'.nested_fetch
  | handOut top decoded leaves covered open_ frames' kept =>
    cases frames.symm.trans top
    refine .of_waiting nofun ?_
    rw [frames']
    exact outside (Nat.le_refl _) kept
  | @giveBack _ _ _ g outer i v top decoded leaves covered nested pushed =>
    cases frames.symm.trans top
    obtain ⟨caller, others⟩ := List.forall_mem_cons.1 others
    have below := windows.below.topOf_le_stackBase
    have base := windows.below.fits.stackBase_le
    exact .of_executing pushed.frames (caller.receive same pushed.kept)
      (onCourse_waiting others windows.below.below same (below.trans base) pushed.kept)
      sound'.nested_fetch
  | @mishap _ _ _ _ ip sp why top mishap low le st =>
    cases frames.symm.trans top
    have nested := sound.nested_fetch
    refine ⟨nofun, ?_, ?_⟩
    · rw [st.frames]
      exact outside (show f.argBase ≤ sp by omega) st.kept
    · rintro (awaits | frameless)
      · exact awaits.elim
      · rw [frames] at nested
        rw [st.frames, st.entries] at frameless
        exact absurd frameless nested.head?_ne

theorem onCourse_of_step (sound : Sound a m) (conducted : Conducted library a m)
    (ran : step a m = .running b k) : OnCourse b k := by
  have same := sameCode_of_step ran
  have compiled := conducted.compiled.congr same
  have course := conducted.onCourse
  have windows := sound.windows
  have transition := transition_of_step sound ran
  have sound' := sound_of_transition sound transition
  have awaiting : a.Awaits → ∀ {bound : Nat}, m.stackTop ≤ bound →
      (∀ slot < bound, k.slot? slot = m.slot? slot) → ∀ f ∈ m.frames.toList, f.OnCourse k 1 := by
    intro awaits bound above kept
    exact onCourse_waiting (course.awaiting (.inl awaits)) windows same
      (m.stackTop_eq ▸ above) kept
  cases a with
  | fetch => exact onCourse_of_fetch sound conducted ran
  | fault f =>
    cases transition with
    | propagate _ frames' kept =>
      refine .of_waiting nofun fun f inside => ?_
      have top := sound'.windows.sp_le_topOf inside
      rw [← stackTop_eq] at top
      rw [frames'] at inside
      exact (course.awaiting (.inl trivial) f (List.mem_of_mem_drop inside)).congr same
        fun slot lt => kept slot (Nat.lt_of_lt_of_le lt top)
  | reply v =>
    cases transition with
    | @receive _ _ f outer _ frames pushed =>
      have waiting := course.awaiting (.inl trivial)
      rw [frames] at windows waiting
      obtain ⟨caller, others⟩ := List.forall_mem_cons.1 waiting
      have below := windows.topOf_le_stackBase.trans windows.fits.stackBase_le
      exact .of_executing pushed.frames (caller.receive same pushed.kept)
        (onCourse_waiting others windows.below same below pushed.kept) sound'.nested_fetch
  | request r =>
    cases transition with
    | respond u not_fetch =>
      refine .of_waiting not_fetch ?_
      rw [u.frames]
      exact awaiting trivial (Nat.le_refl _) fun slot _ => u.slot? slot
    | refuse frames kept =>
      refine .of_waiting nofun ?_
      rw [frames]
      exact awaiting trivial (Nat.le_refl _) kept
    | @begin _ _ _ method arity room frames' kept _ _ _ methods =>
      have inside : method.index < k.heap.methods.size := by
        rw [methods]
        rcases conducted.asked r rfl with some_ | ⟨program, rfl, inside⟩
        · exact index_lt_of_argCount arity (List.length_pos_iff.2 some_)
        · have frames := frames_of_execute ran
          rw [frames'] at frames
          have same := congrArg Frame.method (List.cons.inj frames).1
          rwa [show method = program from same]
      exact .of_executing frames' (Frame.onCourse_entering compiled inside _ _)
        (awaiting trivial (Nat.le_refl _) kept) sound'.nested_fetch
  | abandon why =>
    cases transition with
    | @unwind _ _ _ base outer open_ frames' kept =>
      obtain ⟨-, -, called⟩ := sound.unwinds open_
      have before : ∀ f ∈ k.frames.toList, f.OnCourse m 1 := by
        intro f inside
        rw [frames'] at inside
        rcases called f inside with suspended | frameless
        · exact course.waiting f suspended
        · exact course.awaiting (.inr frameless) f (List.mem_of_mem_drop inside)
      refine .of_waiting nofun fun f inside => (before f inside).congr same fun slot lt => ?_
      have top := sound'.windows.sp_le_topOf inside
      rw [← stackTop_eq] at top
      exact kept slot (Nat.lt_of_lt_of_le lt top)

/-- A primitive of the standard image that makes no string fails like the host only if it
is called without arguments, and nobody does that. -/
theorem makesOverlong_of_step (sound : Sound a m) (conducted : Conducted library a m)
    {f : HostFault} (ran : step a m = .running (.fault f) k) :
    a = .fault f ∨ f = .outOfRange .overlong ∧ MakesOverlong a m := by
  rcases fault_of_step sound conducted.inOrder.owns ran with same | ⟨p, args, performs, mayFail⟩
  · exact .inl same
  · cases mayFail with
    | @overlong text accepts makes unfit =>
      exact .inr ⟨rfl, p, args, text, performs, accepts, makes, unfit⟩
    | host f host => exact absurd host (conducted.compiled.standard p _)
    | bare _ none_ =>
      subst none_
      cases performs with
      | @call _ g outer i n _ _ _ _ _ _ _ _ positive _ _ _ _ copied =>
        have length : 0 = n := (getElem?_of_slots? copied).1
        omega
      | invoke =>
        rcases conducted.asked _ rfl with some_ | ⟨program, other, -⟩
        · exact absurd rfl some_
        · cases other

theorem overlong_of_step (sound : Sound a m) (conducted : Conducted library a m)
    (ran : step a m = .running b k) (f : HostFault) (fails : b = .fault f) :
    f = .outOfRange .overlong := by
  subst fails
  rcases makesOverlong_of_step sound conducted ran with same | ⟨overlong, -⟩
  · exact conducted.overlong f same
  · exact overlong

theorem asked_of_step (sound : Sound a m) (conducted : Conducted library a m)
    (ran : step a m = .running b k) (r : Request) (asks : b = .request r) : r.Proper k.heap := by
  subst asks
  have transition := transition_of_step sound ran
  cases a with
  | fetch =>
    obtain ⟨_, _, _, n, -, -, -, -, passes⟩ :=
      request_of_fetch conducted.compiled.standard sound ran
    exact .inl passes.1
  | request r' => exact .inl (request_of_request conducted.compiled.standard ran).1
  | fault f => cases transition
  | reply v => cases transition
  | abandon why => cases transition

/-- Compiled code is given up where a limit is reached or an integer does not fit, and
for nothing else. -/
theorem blameless_of_step (reachable : Reachable a m) (conducted : Conducted library a m)
    (ran : step a m = .running b k) (why : Abort) (abandons : b = .abandon why) :
    ¬ why.BlamesCode := by
  subst abandons
  intro blames
  have sound := sound_of_reachable reachable
  have windows := sound.windows
  cases transition_of_step sound ran with
  | await _ _ _ _ _ _ overflow =>
    obtain ⟨what, rfl⟩ := overflow why rfl
    exact blames
  | @mishap _ _ f outer _ _ _ frames mishap =>
    rw [frames] at windows
    have course := conducted.onCourse.executing rfl f outer frames
    have foreseen := (tracked_of_reachable reachable).executing rfl f outer frames
    obtain ⟨a, start, place, symbols, c⟩ := id course
    obtain ⟨i, v, printed, decoded, defines, found, notSymbol, -⟩ :=
      mishap_of_verified windows.fits foreseen c.coded.verified mishap blames
    obtain ⟨name, symbol⟩ := course.named decoded defines
    rw [found] at symbol
    cases symbol
    cases notSymbol
  | respond _ _ settled => exact settled why rfl
  | refuse _ _ _ _ _ not_malformed not_operands =>
    cases why with
    | malformed fault => exact not_malformed fault rfl
    | overflow what => exact blames
    | exhausted what =>
      cases what with
      | operands name capacity => exact not_operands name capacity rfl
      | frames limit method => exact blames
      | segment limit method => exact blames

/-- One step of compiled code is followed by the next. -/
theorem Conducted.step (reachable : Reachable a m) (conducted : Conducted library a m)
    (ran : Machine.step a m = .running b k) : Conducted library b k := by
  have sound := sound_of_reachable reachable
  exact ⟨conducted.compiled.congr (sameCode_of_step ran), stable_inOrder.step conducted.inOrder ran,
    onCourse_of_step sound conducted ran, asked_of_step sound conducted ran,
    overlong_of_step sound conducted ran, blameless_of_step reachable conducted ran⟩

/-! ## Runs -/

theorem Conducted.leads (reachable : Reachable a m) (conducted : Conducted library a m)
    (leads : Leads a m b k) : Conducted library b k := by
  obtain ⟨count, steps⟩ := leads
  induction steps with
  | zero => exact conducted
  | succ ran _ ih => exact ih (.move reachable (.step ran)) (conducted.step reachable ran)

/-- A program that is about to be run on an idle machine. -/
theorem conducted_execute {h : Heap} {image : Image} (compiled : h.Compiled library)
    (inOrder : Image.InOrder h image) (settings : Settings) {program : Ref .method}
    (inside : program.index < h.methods.size) :
    Conducted library (.request (.execute program)) (idle h image settings) where
  compiled := compiled
  inOrder := inOrder
  onCourse := .of_waiting nofun nofun
  asked := by
    rintro r same
    cases same
    exact .inr ⟨program, rfl, inside⟩
  overlong := nofun
  blameless := nofun

/-! ## Reports -/

end Machine

/-- A report that compiled code may cause: of a problem after which it goes on, or of an
execution that was given up for nothing that the code is to blame for. -/
def Diagnostic.Blameless (d : Diagnostic) : Prop :=
  d.kind ≠ .malformedBytecode ∧
    (d.kind = .resourceExhausted → ∃ why : Abort, ¬ why.BlamesCode ∧
      d.message = s!"Execution abandoned: {why.message}")

namespace Machine

variable {library : List Function} {a b : Activity} {m k : Machine}

theorem reported_of_step (reachable : Reachable a m) (conducted : Conducted library a m)
    (ran : step a m = .running b k) (before : ∀ d ∈ m.log.toList, d.Blameless) :
    ∀ d ∈ k.log.toList, d.Blameless := by
  have sound := sound_of_reachable reachable
  by_cases abandons : ∃ why, a = .abandon why
  · obtain ⟨why, rfl⟩ := abandons
    have blameless := conducted.blameless why rfl
    cases transition_of_step sound ran with
    | unwind _ _ _ _ _ _ log =>
      obtain ⟨location, log⟩ := log
      intro d inside
      rw [log, Array.toList_push] at inside
      rcases List.mem_append.1 inside with earlier | last
      · exact before d earlier
      · cases List.mem_singleton.1 last
        refine ⟨?_, fun _ => ⟨why, blameless, rfl⟩⟩
        cases why with
        | malformed fault => exact absurd trivial blameless
        | exhausted what => exact Diagnostic.Kind.noConfusion
        | overflow what => exact Diagnostic.Kind.noConfusion
  · have going : ∀ why, a ≠ .abandon why := fun why same => abandons ⟨why, same⟩
    obtain ⟨added, log, recoverable⟩ := reports_of_step sound going ran
    intro d inside
    rw [log] at inside
    rcases List.mem_append.1 inside with earlier | later
    · exact before d earlier
    · obtain ⟨not_malformed, not_exhausted⟩ := recoverable d later
      exact ⟨not_malformed, fun exhausted => absurd exhausted not_exhausted⟩

/-- Compiled code ends with a value, or where a string would be too long. -/
theorem ended_of_finished {completion : Completion} (conducted : Conducted library a m)
    (ran : step a m = .finished completion k) :
    ((∃ v, completion = .answer v) ∨ completion = .fault (.outOfRange .overlong)) ∧ k = m := by
  cases a with
  | reply v =>
    unfold step at ran
    simp only at ran
    split at ran
    · cases ran
      exact ⟨.inl ⟨v, rfl⟩, rfl⟩
    · cases ran
  | fault f =>
    unfold step at ran
    simp only at ran
    split at ran
    · cases ran
      rw [conducted.overlong f rfl]
      exact ⟨.inr rfl, rfl⟩
    · cases ran
  | fetch | request r | abandon why => cases ran

/-- A run of compiled code reports nothing else, and what it ends with but for a value is
that a string would be too long. -/
theorem reported_of_run {fuel : Nat} {completion : Option Completion} (reachable : Reachable a m)
    (conducted : Conducted library a m) (ran : run fuel a m = (completion, k))
    (before : ∀ d ∈ m.log.toList, d.Blameless) :
    (∀ d ∈ k.log.toList, d.Blameless) ∧
      ∀ f, completion = some (.fault f) → f = .outOfRange .overlong := by
  induction fuel generalizing a m with
  | zero =>
    cases ran
    exact ⟨before, nofun⟩
  | succ fuel ih =>
    rw [run] at ran
    cases taken : step a m with
    | running c l =>
      rw [taken] at ran
      exact ih (.move reachable (.step taken)) (conducted.step reachable taken) ran
        (reported_of_step reachable conducted taken before)
    | finished ended l =>
      rw [taken] at ran
      cases ran
      obtain ⟨ended, rfl⟩ := ended_of_finished conducted taken
      refine ⟨before, ?_⟩
      rintro f same
      cases same
      rcases ended with ⟨v, other⟩ | overlong
      · cases other
      · exact Completion.fault.inj overlong

/-! ## Runs that fail -/

end Machine

end MessageMachine
