/-
# Windows of the segment

All frames of a machine share one segment, and nothing but arithmetic keeps them
apart. This module says what that arithmetic has to maintain. Every frame lies in a
window that begins where its caller's live operands end, its arguments come first
and its operands follow, and every slot below the innermost operand holds a value.

`Sound` is the invariant of a machine together with what it is about to do. A
frame that waits for a result has room for it, and it has executed an instruction,
so its method is one that the heap holds. The innermost frame waits whenever a
primitive or a host has control. No condition is put on the numbers that a method
declares; a negative capacity only means that the frame never pushes.
-/

import MessageMachine.Machine.Step

namespace MessageMachine

/-! ## One window -/

namespace Frame

/-- A frame lies over the arguments that begin where the frames `below` end, and
its numbers are those that its method declares. With a negative capacity the
operand pointer never leaves the first operand slot. -/
structure Fits (h : Heap) (s : Settings) (f : Frame) (below : Nat) : Prop where
  argBase_eq : f.argBase = below
  argCount_eq : (f.argCount : Int) = (h.method f.method).argCount
  stackBase_eq : f.stackBase = f.argBase + f.argCount
  limit_eq : f.limit = f.stackBase + (h.method f.method).maxStack
  limit_le : f.limit ≤ s.maxStackSlots
  stackBase_le : f.stackBase ≤ f.sp
  sp_le : f.sp = f.stackBase ∨ (f.sp : Int) ≤ f.limit

/-- A frame has room for the result of the call that it has made. Its method
exists, for it has been executed. -/
structure Waits (h : Heap) (f : Frame) : Prop where
  room : (f.sp : Int) < f.limit
  exists_method : f.method.index < h.methods.size

/-- The depth of a frame that fits is the distance of its operand pointer. -/
theorem Fits.sp_eq {h : Heap} {s : Settings} {f : Frame} {below : Nat}
    (fits : f.Fits h s below) : f.sp = f.stackBase + f.depth := by
  have := fits.stackBase_le
  unfold depth
  omega

end Frame

namespace Machine

/-- The first free slot above some frames. -/
def topOf : List Frame → Nat
  | [] => 0
  | f :: _ => f.sp

@[simp] theorem topOf_nil : topOf [] = 0 := rfl

@[simp] theorem topOf_cons (f : Frame) (outer : List Frame) : topOf (f :: outer) = f.sp := rfl

theorem stackTop_eq (m : Machine) : m.stackTop = topOf m.frames.toList := by
  unfold stackTop topOf
  split <;> simp_all

/-- Every frame lies in a window of its own, on top of those outside it. -/
def Windows (h : Heap) (s : Settings) : List Frame → Prop
  | [] => True
  | f :: outer => f.Fits h s (topOf outer) ∧ Windows h s outer

/-- Entries are nested: the frames above the beginning of each belong to it, and
there is at least one. Every frame belongs to an entry. -/
def Nested : Nat → List Nat → Prop
  | size, [] => size = 0
  | size, base :: outer => base < size ∧ Nested base outer

/-! ## The invariant -/

/-- The innermost frame waits for a result while anyone but the machine's own code
has control. -/
def Activity.Awaits : Activity → Prop
  | .reply _ | .request _ | .fault _ => True
  | .fetch | .abandon _ => False

/-- The entries that can be open while the machine does something. An entry that
is given up may have been opened without a frame. -/
def EntriesFit (a : Activity) (size : Nat) (entries : List Nat) : Prop :=
  Nested size entries ∨
    (∃ why, a = .abandon why) ∧ ∃ outer, entries = size :: outer ∧ Nested size outer

/-- The part of the invariant that does not depend on what the machine is about
to do. -/
structure Layout (m : Machine) : Prop where
  windows : Windows m.heap m.settings m.frames.toList
  waiting : ∀ f ∈ m.frames.toList.tail, f.Waits m.heap
  filled : ∀ slot < m.stackTop, ∃ v, m.slot? slot = some v
  bounded : m.frames.toList ≠ [] → (m.frames.toList.length : Int) ≤ m.settings.maxFrames

/-- The invariant. Where an entry was opened without a frame, it was opened by
someone for whom all frames wait. -/
structure Sound (a : Activity) (m : Machine) : Prop extends Layout m where
  awaiting : a.Awaits → ∀ f ∈ m.frames.toList, f.Waits m.heap
  frameless : m.entries.head? = some m.frames.toList.length →
    ∀ f ∈ m.frames.toList, f.Waits m.heap
  running : a = .fetch → m.frames.toList ≠ []
  entries : EntriesFit a m.frames.toList.length m.entries

/-! ## Consequences for windows -/

variable {h : Heap} {s : Settings} {f : Frame} {outer frames : List Frame}

theorem Windows.fits (w : Windows h s (f :: outer)) : f.Fits h s (topOf outer) :=
  w.1

theorem Windows.below (w : Windows h s (f :: outer)) : Windows h s outer :=
  w.2

/-- Windows below others are windows. -/
theorem Windows.drop (w : Windows h s frames) (count : Nat) : Windows h s (frames.drop count) := by
  induction count generalizing frames with
  | zero => simpa using w
  | succ count ih =>
    cases frames with
    | nil => simpa using w
    | cons f outer => simpa using ih w.below

/-- A frame begins at or above the end of the frames outside it. -/
theorem Windows.topOf_outer_le (w : Windows h s (f :: outer)) : topOf outer ≤ f.sp := by
  have base := w.fits.argBase_eq
  have first := w.fits.stackBase_eq
  have le := w.fits.stackBase_le
  omega

/-- Windows further out end no later. -/
theorem Windows.topOf_drop_le (w : Windows h s frames) (count : Nat) :
    topOf (frames.drop count) ≤ topOf frames := by
  induction count generalizing frames with
  | zero => simp
  | succ count ih =>
    cases frames with
    | nil => simp
    | cons f outer => simpa using Nat.le_trans (ih w.below) w.topOf_outer_le

/-- The window of every frame ends no later than that of the innermost. -/
theorem Windows.sp_le_topOf (w : Windows h s frames) (member : f ∈ frames) :
    f.sp ≤ topOf frames := by
  induction frames with
  | nil => cases member
  | cons g outer ih =>
    rcases List.mem_cons.1 member with rfl | inside
    · simp
    · exact Nat.le_trans (ih w.below inside) w.topOf_outer_le

/-- Every frame fits over some frames. -/
theorem Windows.exists_fits (w : Windows h s frames) (member : f ∈ frames) :
    ∃ below, f.Fits h s below := by
  induction frames with
  | nil => cases member
  | cons g outer ih =>
    rcases List.mem_cons.1 member with rfl | inside
    · exact ⟨_, w.fits⟩
    · exact ih w.below inside

/-! ## Consequences for entries -/

theorem Nested.eq_nil_iff {size : Nat} {entries : List Nat} (n : Nested size entries) :
    entries = [] ↔ size = 0 := by
  cases entries with
  | nil => simpa [Nested] using n
  | cons base outer =>
    have : base < size := n.1
    simp
    omega

theorem EntriesFit.nested {a : Activity} {size : Nat} {entries : List Nat}
    (fit : EntriesFit a size entries) (settled : ∀ why, a ≠ .abandon why) :
    Nested size entries := by
  rcases fit with nested | ⟨⟨why, rfl⟩, _⟩
  · exact nested
  · exact absurd rfl (settled why)

end Machine

end MessageMachine
