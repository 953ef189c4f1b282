/-
# Machines in step

Two machines run the same program. One has nothing but its own frames, the other runs it
above frames of others, further up in the segment and with more entries below, and its
heap may remember other places for what was read and compiled. `Atop` says that apart
from this they are in the same state, and the theorem of this module is that a step of
the one is a step of the other.

What makes it true is that code cannot see where it is. All numbers in a frame are
compared with each other or with the operands of an instruction, entries count frames
from where the entry began, and primitives see no frames at all. There are two exceptions.
A limit may be reached by one machine and not by the other; `Refused` says which of them
it can be, from the room that they have. And the outermost frame ends by giving its result
to whoever is below. `Closing` says when a machine is about to do that.
-/

import MessageMachine.Proofs.Compiler.Run
import MessageMachine.Proofs.Machine.Relocation

namespace MessageMachine

/-- The frame further up in the segment. -/
def Frame.raised (f : Frame) (distance : Nat) : Frame :=
  { f with
    argBase := distance + f.argBase
    stackBase := distance + f.stackBase
    sp := distance + f.sp
    limit := distance + f.limit }

/-- Limits that are no wider than others. -/
structure Settings.Within (s t : Settings) : Prop where
  frames : s.maxFrames ≤ t.maxFrames
  slots : s.maxStackSlots ≤ t.maxStackSlots

theorem Settings.Within.refl (s : Settings) : s.Within s :=
  ⟨Int.le_refl _, Int.le_refl _⟩

namespace Machine

/-- The limits with which a machine could do alone what room it has left. -/
def left (m : Machine) : Settings :=
  { m.settings with
    maxFrames := m.settings.maxFrames - m.frames.size
    maxStackSlots := m.settings.maxStackSlots - m.stackTop }

/-- A call is given up for lack of frames or of stack. -/
def Activity.HitsLimit : Activity → Prop
  | .abandon (.exhausted what) => what.IsLimit
  | _ => False

/-- What is made of a frame for a method, or of the limit that forbids it. -/
def Activity.ofFrame : Except Exhaustion Frame → Activity
  | .error what => .abandon (.exhausted what)
  | .ok _ => .fetch

/-- A frame is made where there is room, and some limit forbids it otherwise. -/
theorem frameFor_of_hasRoom {m : Machine} {r : Ref .method} {argBase argCount : Nat}
    (room : m.HasRoom r argBase argCount) :
    m.frameFor r argBase argCount = .ok (entering m.heap r argBase argCount) := by
  have frames := room.frames
  have slots := room.slots
  unfold frameFor
  simp only [m.frames.size_eq]
  rw [if_neg (by omega), if_neg (by omega)]
  rfl

theorem hitsLimit_of_not_hasRoom {m : Machine} {r : Ref .method} {argBase argCount : Nat}
    (crowded : ¬ m.HasRoom r argBase argCount) :
    (Activity.ofFrame (m.frameFor r argBase argCount)).HitsLimit := by
  rcases m.frameFor_cases r argBase argCount with ⟨-, room⟩ | frames | slots
  · exact absurd room crowded
  · rw [frames]
    trivial
  · rw [slots]
    trivial

theorem hasRoom_of_not_hitsLimit {m : Machine} {r : Ref .method} {argBase argCount : Nat}
    (free : ¬ (Activity.ofFrame (m.frameFor r argBase argCount)).HitsLimit) :
    m.HasRoom r argBase argCount := by
  by_contra crowded
  exact free (hitsLimit_of_not_hasRoom crowded)

/-- Go on in a new frame for a method, if there is room for it. -/
def proceed (m : Machine) (r : Ref .method) (argBase argCount : Nat) : Activity × Machine :=
  match m.frameFor r argBase argCount with
  | .error what => (.abandon (.exhausted what), m)
  | .ok callee => (.fetch, { m with frames := m.frames.push callee })

theorem proceed_fst (m : Machine) (r : Ref .method) (argBase argCount : Nat) :
    (m.proceed r argBase argCount).1 = .ofFrame (m.frameFor r argBase argCount) := by
  unfold proceed
  cases m.frameFor r argBase argCount with
  | error what => rfl
  | ok callee => rfl

theorem proceed_of_hasRoom {m : Machine} {r : Ref .method} {argBase argCount : Nat}
    (room : m.HasRoom r argBase argCount) :
    m.proceed r argBase argCount =
      (.fetch, { m with frames := m.frames.push (entering m.heap r argBase argCount) }) := by
  unfold proceed
  rw [frameFor_of_hasRoom room]

theorem slots?_of_frames (m : Machine) (frames : FrameStack) (start count : Nat) :
    { m with frames := frames }.slots? start count = m.slots? start count := rfl

/-! ## Two machines -/

/-- What a machine stands on that another one does without. -/
structure Footing where
  /-- The machine below, as it was when the two began to run in step. -/
  base : Machine
  /-- The limits of the machine that stands on nothing. -/
  limits : Settings
  /-- The entries of that machine that were open already. -/
  under : List Nat
  /-- The place that the machine above has for each of the other. -/
  place : Location → Location
  trace : base.settings.trace = limits.trace
  /-- Traces are indented by the number of frames. -/
  quiet : limits.trace = false ∨ base.frames.toList = []
  /-- The two began together with an entry, or inside the first entry of both. -/
  begun : under = [] ∨ under = [0] ∧ ∃ outer rest,
    base.entries = outer :: rest ∧ outer ≤ base.frames.size

/-- A report of the machine that stands on nothing, and what the other one makes of it. The
places differ where nothing that has a place was executing but what is below. -/
structure Footing.Moves (g : Footing) (d d' : Diagnostic) : Prop where
  kind : d'.kind = d.kind
  message : d'.message = d.message
  location : d'.location = d.location.map g.place ∨
    d.location = none ∧ d'.location = g.base.currentLocation

/-- `k` is in the state of `c`, on top of a machine. -/
structure Atop (g : Footing) (c k : Machine) : Prop where
  heap : k.heap = c.heap.relocate g.place
  image : k.image = c.image
  limits : c.settings = g.limits
  settings : k.settings = g.base.settings
  frames : k.frames.toList =
    c.frames.toList.map (·.raised g.base.stackTop) ++ g.base.frames.toList
  slots : ∀ slot < c.stackTop, k.slot? (g.base.stackTop + slot) = c.slot? slot
  entries : ∃ added, c.entries = added ++ g.under ∧
    k.entries = added.map (· + g.base.frames.size) ++ g.base.entries
  methods : k.heap.methods = g.base.heap.methods
  log : ∃ reports, k.log.toList = g.base.log.toList ++ reports ∧
    List.Forall₂ g.Moves c.log.toList reports

/-- One machine has the limits of the other and no frames below, so both run out of room
together. -/
def Footing.Level (g : Footing) : Prop :=
  g.base.frames.toList = [] ∧ g.limits = g.base.settings

/-- All of the room of the machine above is left. -/
theorem Footing.Level.within {g : Footing} (level : g.Level) : g.limits.Within g.base.left := by
  obtain ⟨none_, limits⟩ := level
  have bottom : g.base.stackTop = 0 := by rw [stackTop_eq, none_, topOf_nil]
  have size : g.base.frames.size = 0 := by rw [FrameStack.size_eq, none_, List.length_nil]
  refine ⟨?_, ?_⟩
  · simp [left, limits, size]
  · simp [left, limits, bottom]

/-- A call is given up on one of two machines for lack of room, on the one that has less if
it has less of everything. -/
structure Footing.Refused (g : Footing) (a b : Activity) : Prop where
  uneven : ¬ g.Level
  one : a.HitsLimit ∨ b.HitsLimit
  alone : g.limits.Within g.base.left → a.HitsLimit
  above : g.base.left.Within g.limits → b.HitsLimit

/-- Two machines go on in step, or the room of one of them is at an end. -/
inductive Together (g : Footing) : Activity × Machine → Activity × Machine → Prop
  | onward {a : Activity} {c k : Machine} : Atop g c k → Together g (a, c) (a, k)
  | refused {next other : Activity × Machine} :
      g.Refused next.1 other.1 → Together g next other

namespace Atop

variable {g : Footing} {a : Activity} {c k : Machine} {f : Frame} {rest : List Frame} {why : Abort}

/-! ## Looking -/

theorem frames_cons (atop : Atop g c k) (frames : c.frames.toList = f :: rest) :
    k.frames.toList = f.raised g.base.stackTop ::
      (rest.map (·.raised g.base.stackTop) ++ g.base.frames.toList) := by
  rw [atop.frames, frames]
  rfl

theorem size (atop : Atop g c k) : k.frames.size = c.frames.size + g.base.frames.size := by
  simp [FrameStack.size_eq, atop.frames]

theorem stackTop (atop : Atop g c k) : k.stackTop = g.base.stackTop + c.stackTop := by
  rw [k.stackTop_eq, c.stackTop_eq, atop.frames]
  cases c.frames.toList with
  | nil =>
    rw [g.base.stackTop_eq]
    rfl
  | cons f rest => rfl

theorem method (atop : Atop g c k) (r : Ref .method) :
    k.heap.method r = (c.heap.method r).relocate g.place := by
  rw [atop.heap, Heap.method_relocate]

theorem print_eq (atop : Atop g c k) (v : Value) : k.heap.print v = c.heap.print v := by
  rw [atop.heap, Heap.print_relocate]

theorem handler?_eq (atop : Atop g c k) (receiver : Value) (selector : String) :
    k.image.handler? k.heap (k.image.classOf k.heap receiver) selector =
      c.image.handler? c.heap (c.image.classOf c.heap receiver) selector := by
  rw [atop.image, atop.heap, Image.classOf_relocate, Image.handler?_relocate]

theorem location (atop : Atop g c k) (frames : c.frames.toList = f :: rest) :
    k.currentLocation = c.currentLocation.map g.place := by
  unfold currentLocation
  simp only [frames, atop.frames_cons frames, atop.method]
  rfl

theorem location_base (atop : Atop g c k) (frames : c.frames.toList = []) :
    c.currentLocation = none ∧ k.currentLocation = g.base.currentLocation := by
  have above : k.frames.toList = g.base.frames.toList := by
    rw [atop.frames, frames]
    rfl
  constructor
  · unfold currentLocation
    simp only [frames]
  · unfold currentLocation
    rw [above]
    cases g.base.frames.toList with
    | nil => rfl
    | cons f rest =>
      simp only
      rw [Heap.method_of_methods atop.methods]

theorem slots?_eq (atop : Atop g c k) (count start : Nat) (live : start + count ≤ c.stackTop) :
    k.slots? (g.base.stackTop + start) count = c.slots? start count := by
  unfold slots?
  induction count generalizing start with
  | zero => rfl
  | succ count ih =>
    rw [List.range'_succ, List.range'_succ, List.mapM_cons, List.mapM_cons,
      atop.slots start (by omega), Nat.add_assoc, ih (start + 1) (by omega)]

/-! ## Reporting -/

theorem note (atop : Atop g c k) {d d' : Diagnostic} (moves : g.Moves d d') :
    Atop g (c.note d) (k.note d') := by
  obtain ⟨reports, log, moved⟩ := atop.log
  refine { atop with log := ⟨reports ++ [d'], ?_, ?_⟩ }
  · simp [Machine.note, log]
  · simp only [Machine.note, Array.toList_push]
    exact List.rel_append moved (.cons moves .nil)

theorem report (atop : Atop g c k) (kind : Diagnostic.Kind) (message : String)
    (location : Option Location := none) :
    Atop g (c.report kind message location) (k.report kind message (location.map g.place)) := by
  refine atop.note ⟨rfl, rfl, ?_⟩
  cases location with
  | some l => exact .inl rfl
  | none =>
    cases frames : c.frames.toList with
    | nil => exact .inr (atop.location_base frames)
    | cons f rest => exact .inl (atop.location frames)

/-! ## Changing -/

/-- The heap changes, and no method is made. -/
theorem store (atop : Atop g c k) (h : Heap) (methods : h.methods = c.heap.methods) :
    Atop g { c with heap := h } { k with heap := h.relocate g.place } := by
  refine { atop with heap := rfl, methods := ?_ }
  rw [← atop.methods, atop.heap]
  simp only [Heap.relocate, methods]

/-- The image changes as well. -/
theorem data (atop : Atop g c k) (h : Heap) (image : Image) (methods : h.methods = c.heap.methods) :
    Atop g { c with heap := h, image := image }
      { k with heap := h.relocate g.place, image := image } :=
  { atop.store h methods with image := rfl }

/-- The innermost frame changes and has no more operands than before. -/
theorem setTop (atop : Atop g c k) (frames : c.frames.toList = f :: rest) (f' : Frame)
    (le : f'.sp ≤ f.sp) :
    Atop g { c with frames := c.frames.setTop f' }
      { k with frames := k.frames.setTop (f'.raised g.base.stackTop) } := by
  have alone := toList_setTop_cons frames f'
  refine { atop with frames := ?_, slots := ?_ }
  · simp only [alone, toList_setTop_cons (atop.frames_cons frames)]
    rfl
  · intro slot lt
    simp only [stackTop_eq, alone, topOf_cons] at lt
    refine atop.slots slot ?_
    rw [stackTop_eq, frames, topOf_cons]
    omega

/-- The segment is cut off where the innermost frame ends. -/
theorem truncate (atop : Atop g c k) :
    Atop g (c.truncate c.stackTop) (k.truncate (g.base.stackTop + c.stackTop)) := by
  refine { atop with slots := ?_ }
  intro slot lt
  have live : slot < c.stackTop := lt
  simp only [slot?, Machine.truncate, slot_resize]
  rw [if_pos (by omega), if_pos live]
  exact atop.slots slot live

/-! ## The operand stack -/

theorem push (atop : Atop g c k) (frames : c.frames.toList = f :: rest) (v : Value) :
    Together g (c.push v) (k.push v) := by
  have top : c.stackTop = f.sp := by rw [stackTop_eq, frames, topOf_cons]
  have same : (f.raised g.base.stackTop).limit ≤ ((f.raised g.base.stackTop).sp : Int) ↔
      f.limit ≤ (f.sp : Int) := by
    simp only [Frame.raised]
    omega
  unfold Machine.push
  simp only [frames, atop.frames_cons frames, same]
  by_cases full : f.limit ≤ (f.sp : Int)
  · rw [if_pos full, if_pos full]
    simp only [atop.method]
    exact .onward atop
  · rw [if_neg full, if_neg full]
    refine .onward { atop with frames := ?_, slots := ?_ }
    · simp only [toList_setTop_cons frames, toList_setTop_cons (atop.frames_cons frames)]
      rfl
    · intro slot lt
      simp only [stackTop_eq, toList_setTop_cons frames, topOf_cons] at lt
      have place : (f.raised g.base.stackTop).sp = g.base.stackTop + f.sp := rfl
      simp only [slot?, slot_writeSlot, place, Nat.add_left_cancel_iff]
      split
      · rfl
      · exact atop.slots slot (by omega)

/-- Both machines pop the same value and go on with it. -/
theorem pop (atop : Atop g c k) (frames : c.frames.toList = f :: rest)
    {go go' : Value → Machine → Activity × Machine}
    (each : ∀ v, f.stackBase < f.sp →
      Atop g { c with frames := c.frames.setTop { f with sp := f.sp - 1 } }
        { k with frames := k.frames.setTop ({ f with sp := f.sp - 1 }.raised g.base.stackTop) } →
      Together g (go v { c with frames := c.frames.setTop { f with sp := f.sp - 1 } })
        (go' v { k with
          frames := k.frames.setTop ({ f with sp := f.sp - 1 }.raised g.base.stackTop) })) :
    Together g (c.pop go) (k.pop go') := by
  have same : (f.raised g.base.stackTop).sp ≤ (f.raised g.base.stackTop).stackBase ↔
      f.sp ≤ f.stackBase := by
    simp only [Frame.raised]
    omega
  unfold Machine.pop
  simp only [frames, atop.frames_cons frames, same]
  by_cases empty : f.sp ≤ f.stackBase
  · rw [if_pos empty, if_pos empty]
    simp only [atop.method]
    exact .onward atop
  · rw [if_neg empty, if_neg empty]
    have place : (f.raised g.base.stackTop).sp - 1 = g.base.stackTop + (f.sp - 1) := by
      simp only [Frame.raised]
      omega
    have lower : { f.raised g.base.stackTop with sp := g.base.stackTop + (f.sp - 1) } =
        { f with sp := f.sp - 1 }.raised g.base.stackTop := rfl
    have live : f.sp - 1 < c.stackTop := by
      rw [stackTop_eq, frames, topOf_cons]
      omega
    rw [place, atop.slots _ live, lower]
    cases c.slot? (f.sp - 1) with
    | none => exact .onward atop
    | some v => exact each v (by omega) (atop.setTop frames _ (Nat.sub_le _ _))

/-! ## Calls -/

theorem callPrimitive (atop : Atop g c k) (standard : c.heap.Standard) (p : Ref .primitive)
    (args : List Value) : Together g (c.callPrimitive p args) (k.callPrimitive p args) := by
  have performed : Together g
      (c.perform (c.heap.primitive p).behaviour (c.heap.primitive p).name args)
      (k.perform (c.heap.primitive p).behaviour (c.heap.primitive p).name args) := by
    have alike := alike_perform atop.heap atop.image (standard p) (c.heap.primitive p).name args
    have answers := answers_perform c (c.heap.primitive p).behaviour (c.heap.primitive p).name args
    have methods := answers.undisturbed.methods
    generalize c.perform _ _ args = next at alike methods ⊢
    generalize k.perform _ _ args = other at alike ⊢
    cases alike with
    | same a => exact .onward atop
    | data v h image => exact .onward (atop.data h image methods)
    | decline message => exact .onward (atop.report _ _)
  have same : k.heap.primitive p = c.heap.primitive p := by rw [atop.heap, Heap.primitive_relocate]
  unfold Machine.callPrimitive
  simp only [same]
  cases (c.heap.primitive p).arity with
  | none => exact performed
  | some expected =>
    simp only
    split
    · exact performed
    · exact .onward (atop.report _ _)

theorem notUnderstood (atop : Atop g c k) (receiver : Value) (selector : String) :
    Together g (c.notUnderstood receiver selector) (k.notUnderstood receiver selector) := by
  unfold Machine.notUnderstood
  simp only [atop.heap, atop.image, Image.classOf_relocate, Heap.classAt_relocate,
    Heap.print_relocate]
  exact .onward (atop.report _ _)

/-- Where the machines are level, they have room for the same frames. -/
theorem frameFor_of_level (atop : Atop g c k) (level : g.Level) (r : Ref .method)
    (argBase argCount : Nat) {what : Exhaustion}
    (refused : c.frameFor r argBase argCount = .error what) :
    k.frameFor r (g.base.stackTop + argBase) argCount = .error what := by
  obtain ⟨none_, limits⟩ := level
  have bottom : g.base.stackTop = 0 := by rw [stackTop_eq, none_, topOf_nil]
  have settings : k.settings = c.settings := by rw [atop.settings, atop.limits, limits]
  have size : k.frames.size = c.frames.size := by
    rw [atop.size, FrameStack.size_eq g.base.frames, none_]
    rfl
  rw [bottom, Nat.zero_add]
  unfold frameFor at refused ⊢
  simp only [settings, size, atop.method, Method.name_relocate, Method.maxStack_relocate]
  simp only at refused
  split at refused
  next full =>
    cases refused
    rw [if_pos full]
  next open_ =>
    rw [if_neg open_]
    split at refused
    next high =>
      cases refused
      rw [if_pos high]
    · cases refused

theorem maxStack_eq (atop : Atop g c k) (r : Ref .method) :
    (k.heap.method r).maxStack = (c.heap.method r).maxStack := by
  rw [atop.method, Method.maxStack_relocate]

variable {r : Ref .method} {argBase argCount : Nat}

/-- Where the machine above has at least as much room, it has room for the same frames. -/
theorem hasRoom_above (atop : Atop g c k) (within : g.limits.Within g.base.left)
    (alone : c.HasRoom r argBase argCount) : k.HasRoom r (g.base.stackTop + argBase) argCount := by
  obtain ⟨frames, slots⟩ := within
  obtain ⟨frames', slots'⟩ := alone
  have size := atop.size
  rw [FrameStack.size_eq, FrameStack.size_eq c.frames] at size
  rw [atop.limits] at frames' slots'
  simp only [left] at frames slots
  refine ⟨?_, ?_⟩
  · rw [atop.settings, size]
    omega
  · rw [atop.settings, atop.maxStack_eq]
    omega

/-- Where it has no more room, the other machine has room for the same frames. -/
theorem hasRoom_alone (atop : Atop g c k) (within : g.base.left.Within g.limits)
    (above : k.HasRoom r (g.base.stackTop + argBase) argCount) :
    c.HasRoom r argBase argCount := by
  obtain ⟨frames, slots⟩ := within
  obtain ⟨frames', slots'⟩ := above
  have size := atop.size
  rw [FrameStack.size_eq, FrameStack.size_eq c.frames] at size
  rw [atop.settings, size] at frames'
  rw [atop.settings, atop.maxStack_eq] at slots'
  simp only [left] at frames slots
  refine ⟨?_, ?_⟩
  · rw [atop.limits]
    omega
  · rw [atop.limits]
    omega

/-- Both machines have room for a frame, or both are refused it in the same way, or one of
them is. -/
theorem room (atop : Atop g c k) (r : Ref .method) (argBase argCount : Nat) :
    (c.HasRoom r argBase argCount ∧ k.HasRoom r (g.base.stackTop + argBase) argCount) ∨
      (∃ what, c.frameFor r argBase argCount = .error what ∧
        k.frameFor r (g.base.stackTop + argBase) argCount = .error what) ∨
      g.Refused (.ofFrame (c.frameFor r argBase argCount))
        (.ofFrame (k.frameFor r (g.base.stackTop + argBase) argCount)) := by
  by_cases level : g.Level
  · cases made : c.frameFor r argBase argCount with
    | error what => exact .inr (.inl ⟨what, rfl, atop.frameFor_of_level level r _ _ made⟩)
    | ok f =>
      have alone : c.HasRoom r argBase argCount := by
        apply hasRoom_of_not_hitsLimit
        rw [made]
        exact id
      exact .inl ⟨alone, atop.hasRoom_above level.within alone⟩
  by_cases alone : c.HasRoom r argBase argCount
  · by_cases above : k.HasRoom r (g.base.stackTop + argBase) argCount
    · exact .inl ⟨alone, above⟩
    · exact .inr (.inr ⟨level, .inr (hitsLimit_of_not_hasRoom above),
        fun within => absurd (atop.hasRoom_above within alone) above,
        fun _ => hitsLimit_of_not_hasRoom above⟩)
  · refine .inr (.inr ⟨level, .inl (hitsLimit_of_not_hasRoom alone),
      fun _ => hitsLimit_of_not_hasRoom alone, fun within => hitsLimit_of_not_hasRoom ?_⟩)
    exact fun above => alone (atop.hasRoom_alone within above)

theorem entering_raised (atop : Atop g c k) (r : Ref .method) (argBase argCount : Nat) :
    entering k.heap r (g.base.stackTop + argBase) argCount =
      (entering c.heap r argBase argCount).raised g.base.stackTop := by
  simp only [entering, Frame.raised, atop.maxStack_eq, Frame.mk.injEq]
  refine ⟨trivial, trivial, trivial, trivial, ?_, ?_, ?_⟩ <;> omega

/-- A frame is entered over slots in which both machines have the same. -/
theorem entered (atop : Atop g c k) (callee : Frame)
    (slots : ∀ slot < callee.sp, k.slot? (g.base.stackTop + slot) = c.slot? slot) :
    Atop g { c with frames := c.frames.push callee }
      { k with frames := k.frames.push (callee.raised g.base.stackTop) } := by
  refine { atop with frames := ?_, slots := ?_ }
  · simp only [FrameStack.toList_push, atop.frames]
    rfl
  · intro slot lt
    simp only [stackTop_eq, FrameStack.toList_push, topOf_cons] at lt
    exact slots slot lt

/-- Both machines go on in a new frame, or the room of one of them is at an end. -/
theorem proceed (atop : Atop g c k) (r : Ref .method) (argBase argCount : Nat)
    (slots : ∀ slot < argBase + argCount, k.slot? (g.base.stackTop + slot) = c.slot? slot) :
    Together g (c.proceed r argBase argCount)
      (k.proceed r (g.base.stackTop + argBase) argCount) := by
  rcases atop.room r argBase argCount with ⟨alone, above⟩ | ⟨what, alone, above⟩ | refused
  · rw [proceed_of_hasRoom alone, proceed_of_hasRoom above, atop.entering_raised]
    exact .onward (atop.entered (entering c.heap r argBase argCount) slots)
  · unfold Machine.proceed
    rw [alone, above]
    exact .onward atop
  · refine .refused ?_
    rwa [proceed_fst, proceed_fst]

theorem call (atop : Atop g c k) (standard : c.heap.Standard)
    (frames : c.frames.toList = f :: rest) (count offset : Nat) :
    Together g (c.call count offset) (k.call count offset) := by
  have same : (f.raised g.base.stackTop).sp < (f.raised g.base.stackTop).stackBase + (count + 1) ↔
      f.sp < f.stackBase + (count + 1) := by
    simp only [Frame.raised]
    omega
  unfold Machine.call
  simp only [frames, atop.frames_cons frames, same]
  by_cases short : count < 1 ∨ f.sp < f.stackBase + (count + 1)
  · rw [if_pos short, if_pos short]
    exact .onward atop
  rw [if_neg short, if_neg short]
  have top : c.stackTop = f.sp := by rw [stackTop_eq, frames, topOf_cons]
  have last : (f.raised g.base.stackTop).sp - 1 = g.base.stackTop + (f.sp - 1) := by
    simp only [Frame.raised]
    omega
  have window : (f.raised g.base.stackTop).sp - (count + 1) =
      g.base.stackTop + (f.sp - (count + 1)) := by
    simp only [Frame.raised]
    omega
  have lower : { f.raised g.base.stackTop with sp := g.base.stackTop + (f.sp - (count + 1)) } =
      { f with sp := f.sp - (count + 1) }.raised g.base.stackTop := rfl
  have low := atop.setTop frames { f with sp := f.sp - (count + 1) } (Nat.sub_le _ _)
  have frames' := toList_setTop_cons frames { f with sp := f.sp - (count + 1) }
  have cut := low.truncate
  rw [stackTop_eq, frames', topOf_cons] at cut
  rw [last, window, atop.slots _ (by omega), atop.slots _ (by omega), lower]
  cases c.slot? (f.sp - 1) with
  | none => exact .onward atop
  | some selectorValue =>
    cases c.slot? (f.sp - (count + 1)) with
    | none => exact .onward atop
    | some receiver =>
      simp only
      cases selectorValue.asSymbol? with
      | none =>
        simp only [Machine.truncate, atop.print_eq]
        exact (cut.report _ _).push frames' _
      | some selector =>
        simp only [atop.handler?_eq]
        cases c.image.handler? c.heap (c.image.classOf c.heap receiver) selector with
        | error fault => exact .onward low
        | ok handler =>
          rcases handler with _ | ⟨_, p | r⟩
          · exact cut.notUnderstood _ _
          · have passed := atop.slots?_eq count (f.sp - (count + 1)) (by omega)
            simp only [slots?_of_frames, passed]
            cases c.slots? (f.sp - (count + 1)) count with
            | none => exact .onward low
            | some args => exact cut.callPrimitive standard p args
          · simp only [atop.method, Method.argCount_relocate, Method.name_relocate]
            by_cases arity : (c.heap.method r).argCount = count
            · rw [if_pos arity, if_pos arity]
              exact low.proceed r _ count fun slot lt => atop.slots slot (by omega)
            · rw [if_neg arity, if_neg arity]
              exact (cut.report _ _).push frames' _

/-! ## Returning -/

theorem leave (atop : Atop g c k) (frames : c.frames.toList = f :: rest)
    (fits : f.Fits c.heap c.settings (topOf rest)) (nested : Nested (rest.length + 1) c.entries)
    (inside : c.entries = g.under → rest ≠ []) (result : Value) :
    Together g (c.leave result) (k.leave result) := by
  have outer : c.frames.pop.toList = rest := by rw [FrameStack.toList_pop, frames]; rfl
  have outer' : k.frames.pop.toList =
      rest.map (·.raised g.base.stackTop) ++ g.base.frames.toList := by
    rw [FrameStack.toList_pop, atop.frames_cons frames]
    rfl
  have size : c.frames.pop.size = rest.length := by rw [FrameStack.size_eq, outer]
  have size' : k.frames.pop.size = rest.length + g.base.frames.size := by
    rw [FrameStack.size_eq, outer', FrameStack.size_eq g.base.frames]
    simp
  have popped : Atop g { c with frames := c.frames.pop, segment := resize c.segment f.argBase }
      { k with
        frames := k.frames.pop
        segment := resize k.segment (f.raised g.base.stackTop).argBase } := by
    refine { atop with frames := ?_, slots := ?_ }
    · simp only [outer, outer']
    · intro slot lt
      simp only [stackTop_eq, outer] at lt
      have from_ := fits.argBase_eq
      have first := fits.stackBase_eq
      have le := fits.stackBase_le
      have base : (f.raised g.base.stackTop).argBase = g.base.stackTop + f.argBase := rfl
      simp only [slot?, slot_resize, base]
      rw [if_pos (by omega), if_pos (by omega)]
      exact atop.slots slot (by rw [stackTop_eq, frames, topOf_cons]; omega)
  obtain ⟨added, entries, entries'⟩ := atop.entries
  unfold Machine.leave
  simp only [frames, atop.frames_cons frames, size, size']
  cases added with
  | cons base added =>
    simp only [List.cons_append, List.map_cons] at entries entries'
    rw [entries] at nested
    simp only [entries, entries', Nat.add_right_cancel_iff] at popped ⊢
    by_cases last : rest.length = base
    · rw [if_pos last, if_pos last]
      exact .onward { popped with entries := ⟨added, rfl, rfl⟩ }
    · rw [if_neg last, if_neg last]
      cases rest with
      | nil =>
        have lt : base < 1 := nested.1
        exact absurd (show ([] : List Frame).length = base by simp; omega) last
      | cons f' rest => exact popped.push outer result
  | nil =>
    have entries : c.entries = g.under := entries
    have entries' : k.entries = g.base.entries := entries'
    obtain ⟨f', others, rfl⟩ := List.exists_cons_of_ne_nil (inside entries)
    rcases g.begun with none_ | ⟨first, base, others', open_, low⟩
    · rw [entries, none_] at nested
      exact absurd nested (by simp [Nested])
    · rw [first] at entries
      rw [open_] at entries'
      have high : ¬ (f' :: others).length + g.base.frames.size = base := by
        simp only [List.length_cons]
        omega
      simp only [entries, entries', if_neg high] at popped ⊢
      rw [if_neg (by simp)]
      exact popped.push outer result

/-! ## Instructions -/

theorem jumpTo (atop : Atop g c k) (frames : c.frames.toList = f :: rest) (target : Int) :
    Atop g (c.jumpTo target) (k.jumpTo target) := by
  unfold Machine.jumpTo modifyFrame
  simp only [frames, atop.frames_cons frames]
  exact atop.setTop frames { f with ip := target } (Nat.le_refl _)

/-- The value of a global is looked up on both machines. -/
theorem execute_loadGlobal (atop : Atop g c k) (frames : c.frames.toList = f :: rest)
    (offset next : Nat) :
    Together g (c.execute f ⟨offset, .loadGlobal, next⟩)
      (k.execute (f.raised g.base.stackTop) ⟨offset, .loadGlobal, next⟩) := by
  have frames' := toList_setTop_cons frames { f with sp := f.sp - 1 }
  unfold Machine.execute
  refine atop.pop frames fun nameValue _ atop' => ?_
  simp only
  cases nameValue.asSymbol? with
  | none =>
    simp only [atop.print_eq]
    exact (atop'.report _ _).push frames' _
  | some name =>
    have bound : k.image.globals.lookup? k.heap name = c.image.globals.lookup? c.heap name := by
      rw [atop.image, atop.heap, Environment.lookup?_relocate]
    simp only [Environment.lookupOrNil, bound]
    cases c.image.globals.lookup? c.heap name with
    | some v => exact atop'.push frames' v
    | none =>
      have moves (l : Option Location) : g.Moves (Environment.undefined name l)
          (Environment.undefined name (l.map g.place)) := ⟨rfl, rfl, .inl rfl⟩
      simp only [atop'.location frames']
      exact (atop'.note (moves _)).push frames' .nil

/-- A global is bound on both machines. -/
theorem execute_defineGlobal (atop : Atop g c k) (frames : c.frames.toList = f :: rest)
    (offset next : Nat) :
    Together g (c.execute f ⟨offset, .defineGlobal, next⟩)
      (k.execute (f.raised g.base.stackTop) ⟨offset, .defineGlobal, next⟩) := by
  have frames' := toList_setTop_cons frames { f with sp := f.sp - 1 }
  have frames'' := toList_setTop_cons frames' { f with sp := f.sp - 1 - 1 }
  unfold Machine.execute
  refine atop.pop frames fun v _ atop' => ?_
  refine atop'.pop frames' fun nameValue _ atop'' => ?_
  simp only
  cases nameValue.asSymbol? with
  | none =>
    simp only [atop.print_eq]
    exact .onward atop''
  | some name =>
    have defined : k.image.globals.define k.heap name v =
        (c.image.globals.define c.heap name v).relocate g.place := by
      rw [atop.image, atop.heap, Environment.define_relocate]
    simp only [defined]
    have bound := atop''.store (c.image.globals.define c.heap name v) rfl
    exact bound.push frames'' v

/-- An argument of the innermost frame is loaded on both machines. -/
theorem execute_loadArgument (atop : Atop g c k) (frames : c.frames.toList = f :: rest)
    (fits : f.Fits c.heap c.settings (topOf rest)) (index offset next : Nat) :
    Together g (c.execute f ⟨offset, .loadArgument index, next⟩)
      (k.execute (f.raised g.base.stackTop) ⟨offset, .loadArgument index, next⟩) := by
  have place : (f.raised g.base.stackTop).argBase + index =
      g.base.stackTop + (f.argBase + index) := Nat.add_assoc _ _ _
  have count : (f.raised g.base.stackTop).argCount = f.argCount := rfl
  simp only [Machine.execute, count, place]
  by_cases beyond : f.argCount ≤ index
  · rw [if_pos beyond, if_pos beyond]
    exact .onward atop
  · have first := fits.stackBase_eq
    have le := fits.stackBase_le
    rw [if_neg beyond, if_neg beyond,
      atop.slots _ (by rw [stackTop_eq, frames, topOf_cons]; omega)]
    cases c.slot? (f.argBase + index) with
    | none => exact .onward atop
    | some v => exact atop.push frames v

theorem execute (atop : Atop g c k) (standard : c.heap.Standard)
    (frames : c.frames.toList = f :: rest) (fits : f.Fits c.heap c.settings (topOf rest))
    (nested : Nested (rest.length + 1) c.entries) (i : Instruction)
    (inside : i.operation = .leave → c.entries = g.under → rest ≠ []) :
    Together g (c.execute f i) (k.execute (f.raised g.base.stackTop) i) := by
  have popped := toList_setTop_cons frames { f with sp := f.sp - 1 }
  obtain ⟨offset, operation, next⟩ := i
  unfold Machine.execute
  cases operation with
  | loadGlobal => exact atop.execute_loadGlobal frames offset next
  | defineGlobal => exact atop.execute_defineGlobal frames offset next
  | loadArgument index => exact atop.execute_loadArgument frames fits index offset next
  | nop => exact .onward atop
  | loadConstant index =>
    have callee : (f.raised g.base.stackTop).method = f.method := rfl
    simp only [callee, atop.method, Method.constants_relocate]
    cases (c.heap.method f.method).constants[index]? with
    | none => exact .onward atop
    | some v => exact atop.push frames v
  | call count => exact atop.call standard frames count offset
  | leave =>
    refine atop.pop frames fun result some_ atop' => ?_
    have fits' := fits.lower f.ip (f.sp - 1) (by omega) (Nat.sub_le _ _)
    exact atop'.leave popped fits' nested (inside rfl) result
  | pop => exact atop.pop frames fun _ _ atop' => .onward atop'
  | jump distance => exact .onward (atop.jumpTo frames _)
  | jumpIfFalse distance =>
    refine atop.pop frames fun v _ atop' => ?_
    cases v.truthy with
    | true => exact .onward atop'
    | false => exact .onward (atop'.jumpTo popped _)

theorem traceInstruction (atop : Atop g c k) (f : Frame) (i : Instruction) :
    Atop g (c.traceInstruction f i) (k.traceInstruction (f.raised g.base.stackTop) i) := by
  have traces : k.settings.trace = c.settings.trace := by
    rw [atop.settings, atop.limits, g.trace]
  unfold Machine.traceInstruction
  rw [traces]
  split
  next on =>
    have none_ : g.base.frames.toList = [] := by
      rcases g.quiet with off | none_
      · rw [atop.limits, off] at on
        cases on
      · exact none_
    have size : k.frames.size = c.frames.size := by
      rw [atop.size, FrameStack.size_eq g.base.frames, none_]
      rfl
    have depth : (f.raised g.base.stackTop).depth = f.depth := by
      simp only [Frame.depth, Frame.raised]
      omega
    have name : (k.heap.method (f.raised g.base.stackTop).method).name =
        (c.heap.method f.method).name := by
      rw [atop.method]
      rfl
    have line : k.traceLine (f.raised g.base.stackTop) i = c.traceLine f i := by
      unfold traceLine
      simp only [size, depth, name]
    exact atop.note ⟨rfl, line, .inl rfl⟩
  · exact atop

/-- Both machines are at the same instruction. -/
theorem decode_raised (atop : Atop g c k) (f : Frame) :
    Instruction.decode (k.heap.method (f.raised g.base.stackTop).method).code
        (f.raised g.base.stackTop).ip =
      Instruction.decode (c.heap.method f.method).code f.ip := by
  rw [atop.method]
  rfl

theorem executeNext (atop : Atop g c k) (standard : c.heap.Standard) (sound : Sound .fetch c)
    (inside : c.entries = g.under → ∀ f i, c.frames.toList = [f] →
      Instruction.decode (c.heap.method f.method).code f.ip = .ok i → i.operation ≠ .leave) :
    Together g c.executeNext k.executeNext := by
  obtain ⟨f, rest, frames⟩ := List.exists_cons_of_ne_nil (sound.running rfl)
  have windows := sound.windows
  have nested := sound.nested_fetch
  rw [frames] at windows nested
  unfold Machine.executeNext
  simp only [frames, atop.frames_cons frames, atop.decode_raised]
  cases decoded : Instruction.decode (c.heap.method f.method).code f.ip with
  | error fault => exact .onward atop
  | ok i =>
    have fits := windows.fits.lower i.next f.sp windows.fits.stackBase_le (Nat.le_refl _)
    have fetched := (atop.setTop frames { f with ip := i.next } (Nat.le_refl _)).traceInstruction
      { f with ip := i.next } i
    have traced := undisturbed_traceInstruction
      { c with frames := c.frames.setTop { f with ip := i.next } } { f with ip := i.next } i
    have frames' := (congrArg FrameStack.toList traced.frames).trans (toList_setTop_cons frames _)
    refine fetched.execute (standard.congr traced.primitives) frames' ?_ ?_ i ?_
    · exact fits.congr (Heap.method_of_methods traced.methods _) (by rw [traced.settings])
    · rw [traced.entries]
      exact nested
    · rw [traced.entries]
      rintro leaves under rfl
      exact inside under f i frames decoded leaves

/-! ## Requests -/

theorem openEntry (atop : Atop g c k) : Atop g c.openEntry k.openEntry := by
  obtain ⟨added, entries, entries'⟩ := atop.entries
  refine { atop with entries := ⟨c.frames.size :: added, ?_, ?_⟩ }
  · simp only [Machine.openEntry, entries]
    rfl
  · simp only [Machine.openEntry, entries', atop.size]
    rfl

/-- An entry begins over arguments that are the same on both machines. -/
theorem begin (atop : Atop g c k) (method : Ref .method) (argCount : Nat)
    (slots : ∀ slot < c.stackTop + argCount, k.slot? (g.base.stackTop + slot) = c.slot? slot) :
    Together g (c.begin method c.stackTop argCount) (k.begin method k.stackTop argCount) := by
  rw [atop.stackTop]
  exact atop.openEntry.proceed method c.stackTop argCount slots

theorem invokeCallable (atop : Atop g c k) (standard : c.heap.Standard) (callable : Callable)
    (args : List Value) :
    Together g (c.invokeCallable callable args) (k.invokeCallable callable args) := by
  unfold Machine.invokeCallable
  cases callable with
  | primitive p =>
    have called := atop.callPrimitive standard p args
    simp only
    generalize c.callPrimitive p args = next at called ⊢
    generalize k.callPrimitive p args = other at called ⊢
    cases called with
    | @onward a c' k' atop' =>
      cases a with
      | abandon why => exact .onward atop'.openEntry
      | fetch | reply _ | request _ | fault _ => exact .onward atop'
    | refused refused =>
      refine .refused ?_
      convert refused using 1
      · split <;> rfl
      · split <;> rfl
  | method r =>
    simp only [atop.method, Method.argCount_relocate, Method.name_relocate]
    split
    · have slots (slot : Nat) (lt : slot < c.stackTop + args.length) :
          { k with segment := writeArgs k.segment k.stackTop args }.slot? (g.base.stackTop + slot) =
            { c with segment := writeArgs c.segment c.stackTop args }.slot? slot := by
        simp only [slot?, slot_writeArgs, atop.stackTop]
        by_cases written : c.stackTop ≤ slot
        · rw [if_pos (by omega), if_pos (by omega)]
          congr 1
          omega
        · rw [if_neg (by omega), if_neg (by omega)]
          exact atop.slots slot (by omega)
      have passed : Atop g { c with segment := writeArgs c.segment c.stackTop args }
          { k with segment := writeArgs k.segment k.stackTop args } :=
        { atop with slots := fun slot lt => slots slot (Nat.lt_add_right _ lt) }
      exact passed.begin r args.length slots
    · exact .onward (atop.report _ _)

theorem enter (atop : Atop g c k) (standard : c.heap.Standard) (r : Request) :
    Together g (c.enter r) (k.enter r) := by
  unfold Machine.enter
  cases r with
  | execute program =>
    simp only [atop.method, Method.argCount_relocate, Method.name_relocate, Method.source_relocate]
    split
    · exact atop.begin program 0 atop.slots
    · exact .onward (atop.report _ _ _)
  | send receiver selector args =>
    simp only [atop.handler?_eq]
    cases c.image.handler? c.heap (c.image.classOf c.heap receiver) selector with
    | error fault => exact .onward atop
    | ok handler =>
      cases handler with
      | none => exact atop.notUnderstood receiver selector
      | some handler => exact atop.invokeCallable standard handler.callable (receiver :: args)
  | invoke callable args => exact atop.invokeCallable standard callable args

/-! ## Giving up -/

/-- The innermost entry is taken down on both machines. -/
theorem takeDown (atop : Atop g c k) (sound : Sound a c) (base : Nat) (added : List Nat)
    {c' k' : Machine}
    (alone : c' = { c with entries := added ++ g.under, frames := c.frames.keep base })
    (above : k' = { k with
      entries := added.map (· + g.base.frames.size) ++ g.base.entries
      frames := k.frames.keep (base + g.base.frames.size) }) :
    Atop g (c'.truncate c'.stackTop) (k'.truncate k'.stackTop) := by
  have kept : c'.frames.toList = c.frames.toList.drop (c.frames.toList.length - base) := by
    rw [alone, FrameStack.toList_keep]
  have kept' : k'.frames.toList =
      c'.frames.toList.map (·.raised g.base.stackTop) ++ g.base.frames.toList := by
    have count : k.frames.toList.length - (base + g.base.frames.size) =
        c.frames.toList.length - base := by
      rw [← FrameStack.size_eq, ← FrameStack.size_eq, atop.size]
      omega
    rw [kept, above, FrameStack.toList_keep, count, atop.frames,
      List.drop_append_of_le_length (by rw [List.length_map]; exact Nat.sub_le _ _), List.map_drop]
  have lower : c'.stackTop ≤ c.stackTop := by
    rw [stackTop_eq, stackTop_eq, kept]
    exact sound.windows.topOf_drop_le _
  have unwound : Atop g c' k' := by
    subst alone above
    refine { atop with frames := kept', slots := ?_, entries := ⟨added, rfl, rfl⟩ }
    exact fun slot lt => atop.slots slot (Nat.lt_of_lt_of_le lt lower)
  rw [unwound.stackTop]
  exact unwound.truncate

/-- A report is made of what happened in frames that have been taken down since. -/
theorem reportAfter {c' k' : Machine} (atop : Atop g c k) (after : Atop g c' k')
    (fewer : c.frames.toList = [] → c'.frames.toList = []) (kind : Diagnostic.Kind)
    (message : String) :
    Atop g (c'.report kind message c.currentLocation)
      (k'.report kind message k.currentLocation) := by
  cases frames : c.frames.toList with
  | cons f rest =>
    rw [atop.location frames]
    exact after.report kind message _
  | nil =>
    obtain ⟨here, there⟩ := atop.location_base frames
    obtain ⟨here', there'⟩ := after.location_base (fewer frames)
    refine after.note ⟨rfl, rfl, .inr ⟨?_, ?_⟩⟩
    · rw [here, here']
      rfl
    · rw [there, there']
      simp

theorem abandonEntry (atop : Atop g c k) (sound : Sound (.abandon why) c)
    (inside : c.entries ≠ g.under) :
    Together g (c.abandonEntry why) (k.abandonEntry why) := by
  obtain ⟨added, entries, entries'⟩ := atop.entries
  obtain ⟨base, added, rfl⟩ := List.exists_cons_of_ne_nil
    (show added ≠ [] by rintro rfl; exact inside entries)
  simp only [List.cons_append, List.map_cons] at entries entries'
  unfold Machine.abandonEntry
  simp only [entries, entries']
  refine .onward (atop.reportAfter (atop.takeDown sound base added rfl rfl) ?_ why.kind _)
  intro none_
  show (c.frames.keep base).toList = []
  rw [FrameStack.toList_keep, none_, List.drop_nil]

/-! ## Steps -/

/-- Whoever waits for a result does so on both machines. -/
theorem entries_ne_nil (atop : Atop g c k) (waits : c.entries ≠ []) : k.entries ≠ [] := by
  obtain ⟨added, entries, entries'⟩ := atop.entries
  rintro none_
  rw [entries'] at none_
  obtain ⟨mapped, base⟩ := List.append_eq_nil_iff.1 none_
  rw [List.map_eq_nil_iff.1 mapped, List.nil_append] at entries
  rcases g.begun with under | ⟨-, outer, rest, open_, -⟩
  · exact waits (entries.trans under)
  · rw [base] at open_
    cases open_

end Atop

/-- The next step has to do with what was there before the two machines ran in step. -/
def Footing.Closing (g : Footing) (a : Activity) (c : Machine) : Prop :=
  match a with
  | .fetch => c.entries = g.under ∧ ∃ f i, c.frames.toList = [f] ∧
      Instruction.decode (c.heap.method f.method).code f.ip = .ok i ∧ i.operation = .leave
  | .request _ => False
  | .reply _ => c.entries = []
  | .abandon _ | .fault _ => c.entries = g.under

variable {g : Footing} {a : Activity} {c k : Machine}

/-- What one machine does next, the other does, unless one of them has no room for it. -/
theorem Atop.step (atop : Atop g c k) (sound : Sound a c) (standard : c.heap.Standard)
    (going : ¬ g.Closing a c) :
    ∃ next other, Machine.step a c = .ofActivity next ∧ Machine.step a k = .ofActivity other ∧
      Together g next other := by
  cases a with
  | fetch =>
    refine ⟨_, _, rfl, rfl, atop.executeNext standard sound ?_⟩
    exact fun under f i frames decoded leaves => going ⟨under, f, i, frames, decoded, leaves⟩
  | request r => exact ⟨_, _, rfl, rfl, atop.enter standard r⟩
  | abandon why => exact ⟨_, _, rfl, rfl, atop.abandonEntry sound going⟩
  | reply v =>
    obtain ⟨base, outer, open_⟩ := List.exists_cons_of_ne_nil going
    have nested := sound.entries.nested (by simp)
    rw [open_] at nested
    have lt : base < c.frames.toList.length := nested.1
    obtain ⟨f, rest, frames⟩ := List.exists_cons_of_length_pos
      (show 0 < c.frames.toList.length by omega)
    obtain ⟨base', outer', open'⟩ := List.exists_cons_of_ne_nil (atop.entries_ne_nil going)
    refine ⟨c.push v, k.push v, ?_, ?_, atop.push frames v⟩
    · simp only [Machine.step, open_]
    · simp only [Machine.step, open']
  | fault f =>
    obtain ⟨added, entries, entries'⟩ := atop.entries
    obtain ⟨base, added, rfl⟩ := List.exists_cons_of_ne_nil
      (show added ≠ [] by rintro rfl; exact going entries)
    simp only [List.cons_append, List.map_cons] at entries entries'
    have down := atop.takeDown sound base added rfl rfl
    refine ⟨(.fault f, _), (.fault f, _), ?_, ?_, .onward down⟩
    · simp only [Machine.step, entries]
      rfl
    · simp only [Machine.step, entries']
      rfl

end Machine

end MessageMachine
