/-
# Instructions of compiled code

What each instruction that is ever emitted does to the operands that the code has
pushed. `Inside m k f outer ip vs` says that `k` executes at `ip` in the frame `f`,
entered in `m` over the frames `outer`, with exactly the operands `vs`. Since the code
was accepted by the analysis of depths there is always room to push, and since its
operands are known they are always there to pop; so an instruction is described by how
it rewrites the list, and by what it does to the world.
-/

import MessageMachine.Proofs.Compiler.Run

namespace MessageMachine

/-! ## Methods -/

/-- The code of a method was laid out from an assembler. -/
structure Heap.Coded (h : Heap) (r : Ref .method) (a : Assembler) (start : Nat → Nat) : Prop where
  laid : a.Laid (h.method r).code start
  constants : (h.method r).constants = a.constants
  verified : h.Verified r

theorem Heap.Coded.congr {h h' : Heap} {r : Ref .method} {a : Assembler} {start : Nat → Nat}
    (coded : h.Coded r a start) (same : Machine.SameCode h h') : h'.Coded r a start := by
  obtain ⟨laid, constants, verified⟩ := coded
  unfold Heap.Verified at verified
  rw [← method_of_methods same.methods r] at laid constants verified
  exact ⟨laid, constants, verified⟩

theorem Heap.Coded.leads {b c : Machine.Activity} {m k : Machine} {r : Ref .method}
    {a : Assembler} {start : Nat → Nat} (coded : m.heap.Coded r a start)
    (leads : Machine.Leads b m c k) : k.heap.Coded r a start := by
  obtain ⟨count, steps⟩ := leads
  exact coded.congr steps.sameCode

/-- A method that was finished is coded. -/
theorem Heap.coded_of_finish {h : Heap} {r : Ref .method} {a : Assembler}
    (finished : a.finish = .ok (h.method r)) : ∃ start, h.Coded r a start := by
  obtain ⟨start, laid⟩ := Assembler.laid_of_finish finished
  suffices rest : (h.method r).constants = a.constants ∧ h.Verified r from
    ⟨start, laid, rest.1, rest.2⟩
  unfold Heap.Verified
  unfold Assembler.finish at finished
  split at finished
  · cases finished
  · split at finished
    · cases finished
    next accepted =>
      generalize h.method r = method at finished
      cases finished
      exact ⟨rfl, _, accepted, Int.le_refl _⟩

namespace Machine

/-! ## Inside a frame -/

/-- A machine executes in a frame that was entered in `m`, with the given operands. -/
structure Inside (m k : Machine) (f : Frame) (outer : List Frame) (ip : Nat) (vs : List Value) :
    Prop where
  frames : k.frames.toList = { f with ip := ip, sp := f.stackBase + vs.length } :: outer
  kept : ∀ slot < f.stackBase, k.slot? slot = m.slot? slot
  operands : ∀ (i : Nat) v, vs[i]? = some v → k.slot? (f.stackBase + i) = some v
  entries : k.entries = m.entries

namespace Inside

variable {m k : Machine} {f : Frame} {outer : List Frame} {ip : Nat} {vs : List Value} {v w : Value}

/-- Neither the data nor what is reported matters for where a machine is. -/
theorem congr {k' : Machine} (inside : Inside m k f outer ip vs) (frames : k'.frames = k.frames)
    (segment : k'.segment = k.segment) (entries : k'.entries = k.entries) :
    Inside m k' f outer ip vs := by
  have slots (slot : Nat) : k'.slot? slot = k.slot? slot := by
    unfold slot?
    rw [segment]
  refine ⟨frames ▸ inside.frames, ?_, ?_, entries.trans inside.entries⟩
  · intro slot lt
    rw [slots, inside.kept slot lt]
  · intro i v there
    rw [slots, inside.operands i v there]

theorem reported (inside : Inside m k f outer ip vs) (kind : Diagnostic.Kind) (message : String)
    (location : Option Location) : Inside m (k.report kind message location) f outer ip vs :=
  inside.congr rfl rfl rfl

/-- The machine goes on elsewhere in the code. -/
theorem goto {g : Frame} {ip' : Nat} (inside : Inside m k f outer ip vs)
    (there : g = { f with ip := ip', sp := f.stackBase + vs.length }) :
    Inside m { k with frames := k.frames.setTop g } f outer ip' vs :=
  ⟨there ▸ toList_setTop_cons inside.frames g, inside.kept, inside.operands, inside.entries⟩

theorem push (inside : Inside m k f outer ip vs) (v : Value)
    (room : ((f.stackBase + vs.length : Nat) : Int) < f.limit) :
    ∃ k', k.push v = (.fetch, k') ∧ Inside m k' f outer ip (vs ++ [v]) ∧ k'.world = k.world := by
  have st := Stands.refl inside.frames
  obtain ⟨k', pushed, p⟩ := st.push room v
  refine ⟨k', pushed, ⟨?_, ?_, ?_, p.entries.trans inside.entries⟩, ?_⟩
  · rw [p.frames, List.length_append]
    rfl
  · intro slot lt
    rw [p.kept slot (Nat.lt_add_right _ lt), inside.kept slot lt]
  · intro i w there
    by_cases below : i < vs.length
    · rw [List.getElem?_append_left below] at there
      rw [p.kept (f.stackBase + i) (Nat.add_lt_add_left below _)]
      exact inside.operands i w there
    · rw [List.getElem?_append_right (Nat.le_of_not_lt below)] at there
      have single := (List.getElem?_eq_some_iff.1 there).1
      rw [List.length_singleton] at single
      have last : i = vs.length := by omega
      subst last
      rw [Nat.sub_self] at there
      cases there
      exact p.top
  · unfold Machine.push at pushed
    simp only [inside.frames] at pushed
    rw [if_neg (by omega)] at pushed
    cases pushed
    rfl

theorem pop (inside : Inside m k f outer ip (vs ++ [v])) :
    ∃ k', (∀ go : Value → Machine → Activity × Machine, k.pop go = go v k') ∧
      Inside m k' f outer ip vs ∧ k'.world = k.world := by
  have top : k.slot? (f.stackBase + vs.length) = some v :=
    inside.operands vs.length v (by simp)
  have size : f.stackBase + (vs ++ [v]).length = f.stackBase + vs.length + 1 := by
    rw [List.length_append, List.length_singleton, Nat.add_assoc]
  have frames := inside.frames
  rw [size] at frames
  have popped := (Stands.refl frames).pop (show f.stackBase < f.stackBase + vs.length + 1 by omega)
    top
  refine ⟨_, popped, ⟨toList_setTop_cons frames _, inside.kept, ?_, inside.entries⟩, rfl⟩
  intro i w there
  have lt := (List.getElem?_eq_some_iff.1 there).1
  exact inside.operands i w (by rw [List.getElem?_append_left lt]; exact there)

end Inside

/-! ## Fetching -/

theorem world_traceInstruction (m : Machine) (f : Frame) (i : Instruction) :
    (m.traceInstruction f i).world = m.world := by
  unfold traceInstruction
  split
  · simp [world, note]
  · rfl

section

variable {library : List Function} {a : Assembler} {start : Nat → Nat} {m k : Machine}
  {f : Frame} {outer : List Frame} {place : Nat} {vs : List Value} {v w : Value}

/-- A step executes the instruction at hand, the pointer being past it. -/
theorem Inside.fetch {ip : Nat} {i : Instruction} (inside : Inside m k f outer ip vs)
    (decoded : Instruction.decode (k.heap.method f.method).code ip = .ok i) :
    ∃ n, Machine.step .fetch k = .ofActivity
        (n.execute { f with ip := i.next, sp := f.stackBase + vs.length } i) ∧
      Inside m n f outer i.next vs ∧ n.world = k.world := by
  obtain ⟨g, there⟩ : ∃ g : Frame, g = { f with ip := i.next, sp := f.stackBase + vs.length } :=
    ⟨_, rfl⟩
  have traced := undisturbed_traceInstruction { k with frames := k.frames.setTop g } g i
  have moved := (inside.goto there).congr traced.frames traced.segment traced.entries
  refine ⟨_, ?_, moved, world_traceInstruction _ g i⟩
  show Progress.ofActivity k.executeNext = _
  unfold executeNext
  simp only [inside.frames, decoded, there]

/-- A frame for accepted code has room for what an instruction leaves. -/
theorem Inside.room {ip : Nat} {i : Instruction} {rest : Nat}
    (running : Running library .fetch k) (inside : Inside m k f outer ip vs)
    (verified : k.heap.Verified f.method)
    (decoded : Instruction.decode (k.heap.method f.method).code ip = .ok i)
    (leaves : i.operation.pushes = 1) (length : vs.length = rest + i.operation.pops) :
    ((f.stackBase + rest : Nat) : Int) < f.limit := by
  obtain ⟨walk, analysed, capacity⟩ := verified.analysed
  have foreseen := (tracked_of_reachable running.reachable).executing rfl _ _ inside.frames
  obtain ⟨depth, sp, admits, -⟩ := admits_of_foreseen foreseen decoded analysed
  have windows := (sound_of_reachable running.reachable).windows
  rw [inside.frames] at windows
  have limit : f.limit = f.stackBase + (k.heap.method f.method).maxStack := windows.fits.limit_eq
  have after_le := admits.after_le
  unfold StackDepth.after at after_le
  have sp' : f.stackBase + vs.length = f.stackBase + depth := sp
  omega

/-- The machine is about to execute, with the given operands. -/
def Holds (m : Machine) (f : Frame) (outer : List Frame) (ip : Nat) (vs : List Value)
    (b : Activity) (k : Machine) : Prop :=
  b = .fetch ∧ Inside m k f outer ip vs

/-! ## Pushing and popping -/

/-- Loading a constant. -/
theorem Inside.loads (running : Running library .fetch k) (coded : k.heap.Coded f.method a start)
    (inside : Inside m k f outer (start place) vs) (loads : a.Loads v place) :
    ∃ k', Leads .fetch k .fetch k' ∧ Inside m k' f outer (start (place + 1)) (vs ++ [v]) ∧
      k'.world = k.world := by
  obtain ⟨index, here, constant⟩ := loads
  have decoded := coded.laid.plain place _ here (Int.natCast_nonneg index)
  have room := inside.room running coded.verified decoded rfl (Nat.add_zero _).symm
  obtain ⟨n, ran, inside', world⟩ := inside.fetch decoded
  obtain ⟨k', pushed, inside'', world'⟩ := inside'.push v room
  refine ⟨k', .step ?_, inside'', world'.trans world⟩
  have heap : n.heap = k.heap := congrArg World.heap world
  rw [ran]
  unfold execute
  simp only [heap, coded.constants, constant, pushed]
  rfl

/-- Loading an argument. -/
theorem Inside.loadsArgument {index : Nat} (running : Running library .fetch k)
    (coded : k.heap.Coded f.method a start) (inside : Inside m k f outer (start place) vs)
    (here : a.At place (.plain (.loadArgument index))) (argument : m.slot? (f.argBase + index) = some v)
    (bounded : index < f.argCount) :
    ∃ k', Leads .fetch k .fetch k' ∧ Inside m k' f outer (start (place + 1)) (vs ++ [v]) ∧
      k'.world = k.world := by
  have decoded := coded.laid.plain place _ here (Int.natCast_nonneg index)
  have room := inside.room running coded.verified decoded rfl (Nat.add_zero _).symm
  have windows := (sound_of_reachable running.reachable).windows
  rw [inside.frames] at windows
  have base : f.stackBase = f.argBase + f.argCount := windows.fits.stackBase_eq
  obtain ⟨n, ran, inside', world⟩ := inside.fetch decoded
  obtain ⟨k', pushed, inside'', world'⟩ := inside'.push v room
  refine ⟨k', .step ?_, inside'', world'.trans world⟩
  have there : n.slot? (f.argBase + index) = some v :=
    (inside'.kept _ (by omega)).trans argument
  rw [ran]
  unfold execute
  simp only [if_neg (Nat.not_le.2 bounded), there, pushed]
  rfl

/-- Dropping a value. -/
theorem Inside.drops (coded : k.heap.Coded f.method a start)
    (inside : Inside m k f outer (start place) (vs ++ [v])) (here : a.At place (.plain .pop)) :
    ∃ k', Leads .fetch k .fetch k' ∧ Inside m k' f outer (start (place + 1)) vs ∧
      k'.world = k.world := by
  have decoded := coded.laid.plain place _ here (Int.le_refl 0)
  obtain ⟨n, ran, inside', world⟩ := inside.fetch decoded
  obtain ⟨k', popped, inside'', world'⟩ := inside'.pop
  refine ⟨k', .step ?_, inside'', world'.trans world⟩
  rw [ran]
  unfold execute
  simp only [popped]
  rfl

/-! ## Globals -/

/-- Looking a global up, first its name and then its value. -/
theorem Inside.looksUp {name : String} {calls : Nat} {stopped : Machine → Prop}
    (running : Running library .fetch k) (coded : k.heap.Coded f.method a start)
    (inside : Inside m k f outer (start place) vs) (looks : a.LoadsGlobal name place) :
    Follows calls .fetch k (fun v => Holds m f outer (start (place + 2)) (vs ++ [v])) stopped
      (Evaluation.lookup name k.world) := by
  obtain ⟨loads, here⟩ := looks
  obtain ⟨k₁, leads, inside₁, world₁⟩ := inside.loads running coded loads
  have running₁ := running.leads leads
  have coded₁ := coded.leads leads
  have decoded := coded₁.laid.plain (place + 1) _ here (Int.le_refl 0)
  have room := inside₁.room running₁ coded₁.verified decoded rfl
    (by rw [List.length_append]; rfl)
  obtain ⟨n, ran, inside₂, world₂⟩ := inside₁.fetch decoded
  rw [← world₁, ← world₂]
  apply Follows.after leads
  obtain ⟨n', popped, inside₃, world₃⟩ := inside₂.pop
  have heap : n'.heap = n.heap := congrArg World.heap world₃
  have image : n'.image = n.image := congrArg World.image world₃
  cases found : n.image.globals.lookup? n.heap name with
  | some v =>
    obtain ⟨l, pushed, inside₄, world₄⟩ := inside₃.push v room
    rw [Evaluation.lookup_of_some found]
    refine ⟨.fetch, l, .step ?_, world₄.trans world₃, rfl, inside₄⟩
    rw [ran]
    simp only [execute, popped, Value.asSymbol?, Environment.lookupOrNil, heap, image, found, pushed]
    rfl
  | none =>
    have noted : Inside m (n'.note (Environment.undefined name n'.currentLocation)) f outer _ vs :=
      inside₃.congr rfl rfl rfl
    obtain ⟨l, pushed, inside₄, world₄⟩ := noted.push .nil room
    rw [Evaluation.lookup_of_none found]
    refine ⟨.fetch, l, .step ?_, ?_, rfl, inside₄⟩
    · rw [ran]
      simp only [execute, popped, Value.asSymbol?, Environment.lookupOrNil, heap, image, found,
        pushed]
      rfl
    · rw [world₄, world_note _ _ Diagnostic.Kind.noConfusion, world₃]
      rfl

/-- Binding a global to the value that is on top of its name. -/
theorem Inside.binds {name : String} {calls : Nat} {stopped : Machine → Prop}
    (running : Running library .fetch k) (coded : k.heap.Coded f.method a start)
    (inside : Inside m k f outer (start place) (vs ++ [.symbol name] ++ [v]))
    (here : a.At place (.plain .defineGlobal)) :
    Follows calls .fetch k (fun w => Holds m f outer (start (place + 1)) (vs ++ [w])) stopped
      (Evaluation.bindGlobal name v k.world) := by
  have decoded := coded.laid.plain place _ here (Int.le_refl 0)
  have room : ((f.stackBase + vs.length : Nat) : Int) < f.limit :=
    inside.room running coded.verified decoded rfl (by simp; rfl)
  obtain ⟨n, ran, inside₁, world₁⟩ := inside.fetch decoded
  obtain ⟨n₁, popped, inside₂, world₂⟩ := inside₁.pop
  obtain ⟨n₂, popped', inside₃, world₃⟩ := inside₂.pop
  have bound : Inside m { n₂ with heap := n₂.image.globals.define n₂.heap name v } f outer _ vs :=
    inside₃.congr rfl rfl rfl
  obtain ⟨l, pushed, inside₄, world₄⟩ := bound.push v room
  have world : n₂.world = k.world := world₃.trans (world₂.trans world₁)
  rw [← world]
  refine ⟨.fetch, l, .step ?_, world₄, rfl, inside₄⟩
  rw [ran]
  simp only [execute, popped, popped', Value.asSymbol?, pushed]
  rfl

/-! ## Jumping -/

/-- Going on elsewhere in the code. -/
theorem Inside.jumpTo {ip : Nat} (inside : Inside m k f outer ip vs) (ip' : Nat) :
    Inside m (k.jumpTo ip') f outer ip' vs ∧ (k.jumpTo ip').world = k.world := by
  unfold Machine.jumpTo modifyFrame
  simp only [inside.frames]
  exact ⟨inside.goto rfl, rfl⟩

theorem Inside.jumps {label : Label} {goal : Nat}
    (coded : k.heap.Coded f.method a start) (inside : Inside m k f outer (start place) vs)
    (here : a.At place (.jump label)) (bound : a.place? label = some goal) (onward : place < goal)
    (within : goal ≤ a.parts.size) :
    ∃ k', Leads .fetch k .fetch k' ∧ Inside m k' f outer (start goal) vs ∧ k'.world = k.world := by
  obtain ⟨i, distance, decoded, jumps, -, target⟩ :=
    coded.laid.jump place label goal here bound onward within
  obtain ⟨n, ran, inside', world⟩ := inside.fetch decoded
  obtain ⟨there, same⟩ := inside'.jumpTo (start goal)
  refine ⟨_, .step ?_, there, same.trans world⟩
  rw [ran]
  simp only [execute, jumps, target]
  rfl

/-- Taking one of two branches. -/
theorem Inside.branches {label : Label} {goal : Nat}
    (coded : k.heap.Coded f.method a start)
    (inside : Inside m k f outer (start place) (vs ++ [v])) (here : a.At place (.jumpIfFalse label))
    (bound : a.place? label = some goal) (onward : place < goal) (within : goal ≤ a.parts.size) :
    ∃ k', Leads .fetch k .fetch k' ∧
      Inside m k' f outer (if v.truthy then start (place + 1) else start goal) vs ∧
      k'.world = k.world := by
  obtain ⟨i, distance, decoded, jumps, next, target⟩ :=
    coded.laid.jumpIfFalse place label goal here bound onward within
  obtain ⟨n, ran, inside', world⟩ := inside.fetch decoded
  obtain ⟨n', popped, inside'', world'⟩ := inside'.pop
  by_cases truthy : v.truthy
  · rw [if_pos truthy]
    refine ⟨n', .step ?_, next ▸ inside'', world'.trans world⟩
    rw [ran]
    simp only [execute, jumps, popped, if_pos truthy]
    rfl
  · rw [if_neg truthy]
    obtain ⟨there, same⟩ := inside''.jumpTo (start goal)
    refine ⟨_, .step ?_, there, same.trans (world'.trans world)⟩
    rw [ran]
    simp only [execute, jumps, popped, if_neg truthy, target]
    rfl

/-! ## Calling -/

/-- What the call instruction does when its operands have been taken from the frame. -/
def deliver (m : Machine) (selector : Value) (args : List Value) : Activity × Machine :=
  match selector.asSymbol? with
  | none =>
    ((m.truncate m.stackTop).report .messageNotUnderstood
      s!"Selector is not a symbol: {m.heap.print selector}").push .nil
  | some name =>
    match m.image.handler? m.heap (m.image.classOf m.heap (args.headD .nil)) name with
    | .error f => (.fault f, m)
    | .ok none => (m.truncate m.stackTop).notUnderstood (args.headD .nil) name
    | .ok (some ⟨_, .primitive p⟩) => (m.truncate m.stackTop).callPrimitive p args
    | .ok (some ⟨_, .method r⟩) =>
      let target := m.heap.method r
      if target.argCount = args.length then
        match m.frameFor r m.stackTop args.length with
        | .error what => (.abandon (.exhausted what), m)
        | .ok callee => (.fetch, { m with frames := m.frames.push callee })
      else
        ((m.truncate m.stackTop).wrongArity target.name target.argCount args.length).push .nil

/-- Slots that hold some values. -/
theorem slots?_eq {n : Machine} {args : List Value} {low : Nat}
    (there : ∀ (i : Nat) v, args[i]? = some v → n.slot? (low + i) = some v) :
    n.slots? low args.length = some args := by
  unfold slots?
  induction args generalizing low with
  | nil => rfl
  | cons v rest ih =>
    have first : n.slot? low = some v := there 0 v rfl
    have others : (List.range' (low + 1) rest.length).mapM n.slot? = some rest := by
      apply ih
      intro i w found
      rw [Nat.add_assoc, Nat.add_comm 1 i]
      exact there (i + 1) w found
    rw [List.length_cons, List.range'_succ, List.mapM_cons, first, others]
    rfl

/-- The machine is inside the same frame, without the topmost operands. -/
theorem Inside.lower {ip : Nat} {ws : List Value} {g : Frame}
    (inside : Inside m k f outer ip (vs ++ ws))
    (there : g = { f with ip := ip, sp := f.stackBase + vs.length }) :
    Inside m { k with frames := k.frames.setTop g } f outer ip vs := by
  refine ⟨there ▸ toList_setTop_cons inside.frames g, inside.kept, ?_, inside.entries⟩
  intro i v found
  have lt := (List.getElem?_eq_some_iff.1 found).1
  exact inside.operands i v (by rw [List.getElem?_append_left lt]; exact found)

theorem Inside.stackTop {ip : Nat} (inside : Inside m k f outer ip vs) :
    k.stackTop = f.stackBase + vs.length := by
  rw [stackTop_eq, inside.frames]
  rfl

/-- Nothing above the operands matters. -/
theorem Inside.truncate {ip : Nat} (inside : Inside m k f outer ip vs) :
    Inside m (k.truncate k.stackTop) f outer ip vs := by
  have top := inside.stackTop
  refine ⟨inside.frames, ?_, ?_, inside.entries⟩
  · intro slot lt
    rw [slot?_truncate_stackTop k slot (by omega), inside.kept slot lt]
  · intro i v found
    have lt := (List.getElem?_eq_some_iff.1 found).1
    rw [slot?_truncate_stackTop k _ (by omega), inside.operands i v found]

/-- The topmost operands are the arguments and, above them, the selector. -/
theorem Inside.slots_args {ip : Nat} {selector : Value} {args : List Value}
    (inside : Inside m k f outer ip (vs ++ args ++ [selector])) (i : Nat) (v : Value)
    (found : args[i]? = some v) : k.slot? (f.stackBase + vs.length + i) = some v := by
  have lt := (List.getElem?_eq_some_iff.1 found).1
  rw [Nat.add_assoc]
  apply inside.operands (vs.length + i) v
  rw [List.append_assoc, List.getElem?_append_right (Nat.le_add_right _ _),
    Nat.add_sub_cancel_left, List.getElem?_append_left lt, found]

/-- The call instruction takes the selector and the arguments and delivers them. -/
theorem Inside.call_eq {ip : Nat} {selector : Value} {args : List Value}
    (inside : Inside m k f outer ip (vs ++ args ++ [selector])) (some_ : args ≠ [])
    (offset : Nat) :
    k.call args.length offset =
      { k with frames := k.frames.setTop { f with ip := ip, sp := f.stackBase + vs.length } }.deliver
        selector args := by
  obtain ⟨g, there⟩ : ∃ g : Frame, g = { f with ip := ip, sp := f.stackBase + vs.length } :=
    ⟨_, rfl⟩
  have whole : Inside m k f outer ip (vs ++ (args ++ [selector])) := by
    rw [← List.append_assoc]
    exact inside
  have lowered : Inside m { k with frames := k.frames.setTop g } f outer ip vs := whole.lower there
  have slots := inside.slots_args
  obtain ⟨receiver, others, rfl⟩ := List.exists_cons_of_ne_nil some_
  have first : k.slot? (f.stackBase + vs.length) = some receiver := slots 0 receiver rfl
  have last : k.slot? (f.stackBase + vs.length + (others.length + 1)) = some selector := by
    rw [Nat.add_assoc]
    apply whole.operands (vs.length + (others.length + 1)) selector
    rw [List.getElem?_append_right (Nat.le_add_right _ _), Nat.add_sub_cancel_left]
    exact List.getElem?_concat_length
  have size : f.stackBase + (vs ++ (receiver :: others ++ [selector])).length =
      f.stackBase + vs.length + (others.length + 1 + 1) := by
    simp only [List.length_append, List.length_cons, List.length_nil, Nat.add_assoc]
  have frames := whole.frames
  rw [size] at frames
  have covered : ¬ (others.length + 1 < 1 ∨
      f.stackBase + vs.length + (others.length + 1 + 1) < f.stackBase + (others.length + 1 + 1)) := by
    omega
  have below : f.stackBase + vs.length + (others.length + 1 + 1) - 1 =
      f.stackBase + vs.length + (others.length + 1) := rfl
  have passed : Machine.slots? { k with frames := k.frames.setTop g }
      (f.stackBase + vs.length) (others.length + 1) = some (receiver :: others) := slots?_eq slots
  have top := lowered.stackTop
  rw [← there]
  unfold call deliver
  simp only [List.length_cons, frames, if_neg covered, Nat.add_sub_cancel, below, last, first,
    List.headD_cons, ← there, top]
  cases selector.asSymbol? with
  | none => rfl
  | some name =>
    simp only
    cases k.image.handler? k.heap (k.image.classOf k.heap receiver) name with
    | error fault => rfl
    | ok found =>
      rcases found with _ | ⟨owner, p | r⟩
      · rfl
      · simp only [passed]
      · rfl

/-- When it has taken them they stay in their slots. -/
theorem Inside.calls {ip : Nat} {selector : Value} {args : List Value}
    (inside : Inside m k f outer ip (vs ++ args ++ [selector])) (some_ : args ≠ [])
    (offset : Nat) :
    ∃ l, k.call args.length offset = l.deliver selector args ∧ Inside m l f outer ip vs ∧
      l.world = k.world ∧
      ∀ (i : Nat) v, args[i]? = some v → l.slot? (f.stackBase + vs.length + i) = some v := by
  have whole : Inside m k f outer ip (vs ++ (args ++ [selector])) := by
    rw [← List.append_assoc]
    exact inside
  exact ⟨_, inside.call_eq some_ offset, whole.lower rfl, rfl, inside.slots_args⟩

/-! ## Returning -/

/-- Whoever waits for the result of a frame gets it: code that has called the method,
or whoever has made the entry that begins with the frame. -/
def handBack (m : Machine) (v : Value) : Activity × Machine :=
  match m.entries with
  | base :: entries =>
    if m.frames.size = base then (.reply v, { m with entries := entries }) else m.push v
  | [] => m.push v

/-- Leaving a method. Its frame and everything in it are taken off. -/
theorem Inside.leaves (running : Running library .fetch k)
    (coded : k.heap.Coded f.method a start) (inside : Inside m k f outer (start place) [v])
    (here : a.At place (.plain .leave)) :
    ∃ l : Machine, step .fetch k = .ofActivity (l.handBack v) ∧ l.frames.toList = outer ∧
      (∀ slot < f.argBase, l.slot? slot = m.slot? slot) ∧ l.entries = m.entries ∧
      l.world = k.world := by
  have decoded := coded.laid.plain place _ here (Int.le_refl 0)
  have windows := (sound_of_reachable running.reachable).windows
  rw [inside.frames] at windows
  have base : f.stackBase = f.argBase + f.argCount := windows.fits.stackBase_eq
  obtain ⟨n, ran, inside', world⟩ := inside.fetch decoded
  have operand : Inside m n f outer (start (place + 1)) ([] ++ [v]) := inside'
  obtain ⟨n', popped, inside'', world'⟩ := operand.pop
  refine ⟨{ n' with frames := n'.frames.pop, segment := resize n'.segment f.argBase }, ?_, ?_, ?_,
    inside''.entries, world'.trans world⟩
  · rw [ran]
    simp only [execute, popped, leave, inside''.frames]
    rfl
  · rw [FrameStack.toList_pop, inside''.frames]
    rfl
  · intro slot lt
    simp only [slot?, slot_resize, if_pos lt]
    exact inside''.kept slot (by omega)

end

end Machine

end MessageMachine
