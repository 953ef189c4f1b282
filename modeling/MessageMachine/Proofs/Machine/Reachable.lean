/-
# Reachable states

Where a machine can get to. It moves by its own steps, and by what a host does
while it has control. A host has control when a result or a failure has just
arrived, since that is when one of its primitives runs or has been returned to. It
may then do anything with the heap and the image except change a method, and it may
go on in any way. It can answer another value, enter the machine again as often as
it likes, give up, or fail.

Nothing is assumed about the methods that run. Their code, constants, counts and
capacities are arbitrary, and the limits of the machine are too. The second half
of the module has the lemmas by which a layout survives what a move does to it.
-/

import MessageMachine.Proofs.Machine.Inversion

namespace MessageMachine

/-! ## Methods stay as they are -/

/-- Every method that the first heap holds, the second holds as well. -/
def Heap.Grows (h h' : Heap) : Prop :=
  ∀ index < h.methods.size, h'.methods[index]? = h.methods[index]?

namespace Heap

theorem Grows.of_eq {h h' : Heap} (methods : h'.methods = h.methods) : h.Grows h' := by
  intro index _
  rw [methods]

theorem Grows.method {h h' : Heap} (grows : h.Grows h') {r : Ref .method}
    (here : r.index < h.methods.size) : h'.method r = h.method r := by
  simp only [Heap.method, Array.getD_eq_getD_getElem?]
  rw [grows r.index here]

theorem Grows.size {h h' : Heap} (grows : h.Grows h') {index : Nat}
    (here : index < h.methods.size) : index < h'.methods.size := by
  have found := grows index here
  rw [Array.getElem?_eq_getElem here] at found
  exact (Array.getElem?_eq_some_iff.1 found).1

theorem method_of_methods {h h' : Heap} (methods : h'.methods = h.methods) (r : Ref .method) :
    h'.method r = h.method r := by
  unfold Heap.method
  rw [methods]

/-- A method that the heap does not hold is an empty one. -/
theorem method_of_size_le {h : Heap} {r : Ref .method} (outside : h.methods.size ≤ r.index) :
    h.method r = default := by
  unfold Heap.method
  rw [Array.getD_eq_getD_getElem?, Array.getElem?_eq_none outside]
  rfl

/-- A method with an instruction in it is one that the heap holds. -/
theorem index_lt_of_decode {h : Heap} {r : Ref .method} {ip : Int} {i : Instruction}
    (decoded : Instruction.decode (h.method r).code ip = .ok i) : r.index < h.methods.size := by
  by_cases here : r.index < h.methods.size
  · exact here
  · have empty : (default : Method).code = #[] := rfl
    rw [method_of_size_le (Nat.le_of_not_lt here), empty] at decoded
    cases ip <;> simp [Instruction.decode] at decoded

end Heap

/-! ## Moves -/

namespace Machine

/-- What a host may have changed while it had control. -/
structure HostChange (m m' : Machine) : Prop where
  frames : m'.frames = m.frames
  segment : m'.segment = m.segment
  entries : m'.entries = m.entries
  maxFrames : m'.settings.maxFrames = m.settings.maxFrames
  maxStackSlots : m'.settings.maxStackSlots = m.settings.maxStackSlots
  grows : m.heap.Grows m'.heap
  log : ∃ added, m'.log = m.log ++ added

/-- How a host may go on. A primitive that was called by a request of the host gives
up that request, which counts as an entry. -/
inductive HostTurn (m : Machine) : Activity → Machine → Prop
  | answer (v : Value) : HostTurn m (.reply v) m
  | enter (r : Request) : HostTurn m (.request r) m
  | giveUpRequest (why : Abort) : HostTurn m (.abandon why) m.openEntry
  | fail (f : HostFault) : HostTurn m (.fault f) m

/-- A host has control when a result or a failure has arrived. -/
def Activity.HostMayAct : Activity → Prop
  | .reply _ | .fault _ => True
  | .fetch | .request _ | .abandon _ => False

/-- One move of a machine or of its host. -/
inductive Move : Activity → Machine → Activity → Machine → Prop
  | step {a a' : Activity} {m m' : Machine} : step a m = .running a' m' → Move a m a' m'
  | host {a a' : Activity} {m n m' : Machine} :
      a.HostMayAct → HostChange m n → HostTurn n a' m' → Move a m a' m'
  /-- A primitive that was called by code gives up the entry that the code runs in. -/
  | giveUp {a : Activity} {m n : Machine} (why : Abort) :
      a.HostMayAct → HostChange m n → n.entries ≠ [] → Move a m (.abandon why) n

/-- The states that a machine can get to, from a first request on. -/
inductive Reachable : Activity → Machine → Prop
  | start (heap : Heap) (image : Image) (settings : Settings) (r : Request) :
      Reachable (.request r) (idle heap image settings)
  | move {a a' : Activity} {m m' : Machine} : Reachable a m → Move a m a' m' → Reachable a' m'

/-- A heap with one method, which answers its receiver. -/
def identityHeap : Heap :=
  { Heap.empty with methods := #[⟨"identity", 1, #[5, 0, 4], #[], 1, none⟩] }

/-- A machine that has just entered this method. -/
def enteredIdentity : Machine :=
  ((idle identityHeap default .standard).enter (.invoke (.method ⟨0⟩) [.integer 7])).2

theorem reachable_enteredIdentity : Reachable .fetch enteredIdentity :=
  .move (.start identityHeap default .standard (.invoke (.method ⟨0⟩) [.integer 7])) (.step rfl)

/-- Moves through states that all satisfy `P`, up to a last one that may not. -/
inductive MovesWhile (P : Activity → Machine → Prop) (a : Activity) (m : Machine) :
    Activity → Machine → Prop
  | refl : MovesWhile P a m a m
  | tail {b c : Activity} {k l : Machine} :
      MovesWhile P a m b k → P b k → Move b k c l → MovesWhile P a m c l

theorem MovesWhile.reachable {P : Activity → Machine → Prop} {a b : Activity} {m k : Machine}
    (moves : MovesWhile P a m b k) (reachable : Reachable a m) : Reachable b k := by
  induction moves with
  | refl => exact reachable
  | tail _ _ move ih => exact .move ih move

/-! ## Layouts survive -/

end Machine

namespace Frame

theorem Waits.grows {h h' : Heap} {f : Frame} (waits : f.Waits h) (grows : h.Grows h') :
    f.Waits h' :=
  ⟨waits.room, grows.size waits.exists_method⟩

/-- A window stays one as long as its method does. -/
theorem Fits.congr {h h' : Heap} {s s' : Settings} {f : Frame} {below : Nat}
    (fits : f.Fits h s below) (method : h'.method f.method = h.method f.method)
    (slots : s'.maxStackSlots = s.maxStackSlots) : f.Fits h' s' below where
  argBase_eq := fits.argBase_eq
  argCount_eq := by rw [method]; exact fits.argCount_eq
  stackBase_eq := fits.stackBase_eq
  limit_eq := by rw [method]; exact fits.limit_eq
  limit_le := by rw [slots]; exact fits.limit_le
  stackBase_le := fits.stackBase_le
  sp_le := fits.sp_le

/-- A frame may go elsewhere in its code and drop operands. -/
theorem Fits.lower {h : Heap} {s : Settings} {f : Frame} {below : Nat} (fits : f.Fits h s below)
    (ip : Int) (sp : Nat) (base : f.stackBase ≤ sp) (le : sp ≤ f.sp) :
    Fits h s { f with ip := ip, sp := sp } below where
  argBase_eq := fits.argBase_eq
  argCount_eq := fits.argCount_eq
  stackBase_eq := fits.stackBase_eq
  limit_eq := fits.limit_eq
  limit_le := fits.limit_le
  stackBase_le := base
  sp_le := by
    have := fits.sp_le
    simp only
    omega

/-- A frame may get an operand for which it has room. -/
theorem Fits.raise {h : Heap} {s : Settings} {f : Frame} {below : Nat} (fits : f.Fits h s below)
    (room : (f.sp : Int) < f.limit) : Fits h s { f with sp := f.sp + 1 } below where
  argBase_eq := fits.argBase_eq
  argCount_eq := fits.argCount_eq
  stackBase_eq := fits.stackBase_eq
  limit_eq := fits.limit_eq
  limit_le := fits.limit_le
  stackBase_le := Nat.le_succ_of_le fits.stackBase_le
  sp_le := by
    simp only
    omega

end Frame

namespace Machine

theorem Windows.congr {h h' : Heap} {s s' : Settings} {frames : List Frame}
    (windows : Windows h s frames)
    (methods : ∀ f ∈ frames, h'.method f.method = h.method f.method)
    (slots : s'.maxStackSlots = s.maxStackSlots) : Windows h' s' frames := by
  induction frames with
  | nil => trivial
  | cons f outer ih =>
    exact ⟨windows.fits.congr (methods f (List.mem_cons_self ..)) slots,
      ih windows.below fun g inside => methods g (List.mem_cons_of_mem _ inside)⟩

/-- The frame of a method that has just been called fits where there is room. -/
theorem HasRoom.fits {m : Machine} {r : Ref .method} {argBase argCount : Nat}
    (room : m.HasRoom r argBase argCount) (arity : (m.heap.method r).argCount = argCount) :
    (entering m.heap r argBase argCount).Fits m.heap m.settings argBase where
  argBase_eq := rfl
  argCount_eq := arity.symm
  stackBase_eq := rfl
  limit_eq := rfl
  limit_le := room.slots
  stackBase_le := Nat.le_refl _
  sp_le := .inl rfl

/-- A layout is put together from its innermost frame and the rest. -/
theorem Layout.of_cons {m m' : Machine} {g : Frame} {outer : List Frame}
    (frames : m'.frames.toList = g :: outer) (fits : g.Fits m.heap m.settings (topOf outer))
    (windows : Windows m.heap m.settings outer) (waiting : ∀ f ∈ outer, f.Waits m.heap)
    (filled : ∀ slot < g.sp, ∃ v, m'.slot? slot = some v)
    (bounded : (outer.length : Int) + 1 ≤ m.settings.maxFrames)
    (settings : m'.settings = m.settings) (methods : m'.heap.methods = m.heap.methods) :
    Layout m' := by
  have whole : Windows m.heap m.settings m'.frames.toList := by
    rw [frames]
    exact ⟨fits, windows⟩
  refine ⟨?_, ?_, ?_, ?_⟩
  · exact whole.congr (fun f _ => Heap.method_of_methods methods _) (by rw [settings])
  · rw [frames]
    exact fun f inside => (waiting f inside).grows (.of_eq methods)
  · rw [stackTop_eq, frames]
    exact filled
  · rw [frames, settings]
    exact fun _ => by simpa using bounded

/-- Frames further out are a layout in which every frame waits. -/
theorem Layout.of_drop {m m' : Machine} (layout : Layout m) (count : Nat)
    (frames : m'.frames.toList = m.frames.toList.drop count)
    (waiting : ∀ f ∈ m'.frames.toList, f.Waits m.heap)
    (kept : ∀ slot < m'.stackTop, m'.slot? slot = m.slot? slot)
    (settings : m'.settings = m.settings) (methods : m'.heap.methods = m.heap.methods) :
    Layout m' := by
  have whole : Windows m.heap m.settings m'.frames.toList := by
    rw [frames]
    exact layout.windows.drop count
  have lower : m'.stackTop ≤ m.stackTop := by
    rw [stackTop_eq, stackTop_eq, frames]
    exact layout.windows.topOf_drop_le count
  refine ⟨?_, ?_, ?_, ?_⟩
  · exact whole.congr (fun f _ => Heap.method_of_methods methods _) (by rw [settings])
  · exact fun f inside => (waiting f (List.mem_of_mem_tail inside)).grows (.of_eq methods)
  · intro slot lt
    rw [kept slot lt]
    exact layout.filled slot (Nat.lt_of_lt_of_le lt lower)
  · intro some_
    rw [settings]
    have bounded := layout.bounded (fun none_ => some_ (by rw [frames, none_, List.drop_nil]))
    have fewer : m'.frames.toList.length ≤ m.frames.toList.length := by
      rw [frames, List.length_drop]
      exact Nat.sub_le _ _
    omega

/-- A layout whose innermost frame stands as it did, or lower. -/
theorem Layout.stands {m m' : Machine} {f g : Frame} {outer : List Frame} (layout : Layout m)
    (frames : m.frames.toList = f :: outer) (st : Stands m m' g outer)
    (fits : g.Fits m.heap m.settings (topOf outer)) (le : g.sp ≤ f.sp) : Layout m' := by
  have windows := layout.windows
  have waiting := layout.waiting
  have bounded := layout.bounded (by rw [frames]; simp)
  have top : m.stackTop = f.sp := by rw [stackTop_eq, frames, topOf_cons]
  rw [frames] at windows waiting bounded
  refine .of_cons st.frames fits windows.below waiting (fun slot lt => ?_) (by simpa using bounded)
    st.settings st.methods
  rw [st.kept slot lt]
  exact layout.filled slot (by omega)

/-- A layout in which a frame has got one more operand. -/
theorem Layout.pushed {m m' : Machine} {g : Frame} {outer : List Frame} {v : Value}
    (layout : Layout m) (push : Pushed m m' g outer v)
    (fits : g.Fits m.heap m.settings (topOf outer)) (windows : Windows m.heap m.settings outer)
    (waiting : ∀ f ∈ outer, f.Waits m.heap) (room : (g.sp : Int) < g.limit)
    (le : g.sp ≤ m.stackTop) (bounded : (outer.length : Int) + 1 ≤ m.settings.maxFrames) :
    Layout m' := by
  refine .of_cons push.frames (fits.raise room) windows waiting (fun slot lt => ?_) bounded
    push.settings push.methods
  by_cases top : slot = g.sp
  · exact ⟨v, top ▸ push.top⟩
  · have below : slot < g.sp := by
      have lt' : slot < g.sp + 1 := lt
      omega
    rw [push.kept slot below]
    exact layout.filled slot (by omega)

/-- Nothing of a layout is in the shared data or the log. -/
theorem Layout.undisturbed {m m' : Machine} (layout : Layout m) (u : Undisturbed m m') :
    Layout m' := by
  have top : m'.stackTop = m.stackTop := by rw [stackTop_eq, stackTop_eq, u.frames]
  refine ⟨?_, ?_, ?_, ?_⟩
  · rw [u.frames]
    exact layout.windows.congr (fun f _ => Heap.method_of_methods u.methods _) (by rw [u.settings])
  · rw [u.frames]
    exact fun f inside => (layout.waiting f inside).grows (.of_eq u.methods)
  · intro slot lt
    rw [u.slot?]
    exact layout.filled slot (top ▸ lt)
  · rw [u.frames, u.settings]
    exact layout.bounded

end Machine

end MessageMachine
