/-
# The invariant holds in every reachable state

One lemma for the moves of the machine, case by case along `Transition`, and one
for the moves of a host. A host finds every frame waiting, so it can neither take
away room that a frame counts on nor leave a frame running that should not.
-/

import MessageMachine.Proofs.Machine.Reachable

namespace MessageMachine.Machine

variable {a a' : Activity} {m m' : Machine}

/-- A call that is not a mistake leaves its frame room for the result. -/
theorem waits_of_call {f : Frame} {outer : List Frame} {i : Instruction} {n : Nat}
    (fits : f.Fits m.heap m.settings (topOf outer))
    (decoded : Instruction.decode (m.heap.method f.method).code f.ip = .ok i)
    (covered : n + 1 ≤ f.depth) :
    Frame.Waits m.heap { f with ip := i.next, sp := f.sp - (n + 1) } := by
  have depth := fits.sp_eq
  have le := fits.sp_le
  refine ⟨?_, Heap.index_lt_of_decode decoded⟩
  show ((f.sp - (n + 1) : Nat) : Int) < f.limit
  omega

/-- Where entries are nested properly, none was opened without a frame. -/
theorem Nested.head?_ne {size : Nat} {entries : List Nat} (nested : Nested size entries) :
    entries.head? ≠ some size := by
  cases entries with
  | nil => simp
  | cons base outer =>
    have lt : base < size := nested.1
    simp
    omega

/-- What the invariant says of a machine that executes instructions or gives up
while it does. -/
theorem Sound.of_running (layout : Layout m') (not_awaiting : ¬ a'.Awaits)
    (running : m'.frames.toList ≠ []) (nested : Nested m'.frames.toList.length m'.entries) :
    Sound a' m' where
  toLayout := layout
  awaiting := fun awaits => absurd awaits not_awaiting
  frameless := fun frameless => absurd frameless nested.head?_ne
  running := fun _ => running
  entries := .inl nested

/-- What it says of a machine whose frames all wait. -/
theorem Sound.of_waiting (layout : Layout m') (not_fetch : a' ≠ .fetch)
    (waiting : ∀ f ∈ m'.frames.toList, f.Waits m'.heap)
    (fit : EntriesFit a' m'.frames.toList.length m'.entries) : Sound a' m' where
  toLayout := layout
  awaiting := fun _ => waiting
  frameless := fun _ => waiting
  running := fun fetch => absurd fetch not_fetch
  entries := fit

/-- While code executes, entries are nested properly. -/
theorem Sound.nested_fetch (sound : Sound .fetch m) :
    Nested m.frames.toList.length m.entries :=
  sound.entries.nested (by simp)

/-- An entry that is given up leaves entries behind that are nested in what remains
of the frames. These have called others, or the entry was opened without a frame. -/
theorem Sound.unwinds {why : Abort} {base : Nat} {outer : List Nat}
    (sound : Sound (.abandon why) m)
    (open_ : m.entries = base :: outer ∨
      m.entries = [] ∧ outer = [] ∧ base = m.frames.toList.length) :
    base ≤ m.frames.toList.length ∧ Nested base outer ∧
      ∀ f ∈ m.frames.toList.drop (m.frames.toList.length - base),
        f ∈ m.frames.toList.tail ∨ m.entries.head? = some m.frames.toList.length := by
  rcases open_ with open_ | ⟨none_open, rfl, rfl⟩
  · rcases sound.entries with nested | ⟨-, entries, frameless, nested⟩
    · rw [open_] at nested
      have lt : base < m.frames.toList.length := nested.1
      refine ⟨by omega, nested.2, fun f inside => .inl ?_⟩
      obtain ⟨more, count⟩ : ∃ more, m.frames.toList.length - base = more + 1 :=
        ⟨m.frames.toList.length - base - 1, by omega⟩
      rw [count, ← List.drop_tail] at inside
      exact List.mem_of_mem_drop inside
    · rw [open_] at frameless
      obtain ⟨rfl, rfl⟩ := List.cons.inj frameless
      exact ⟨Nat.le_refl _, nested, fun f _ => .inr (by rw [open_]; rfl)⟩
  · rcases sound.entries with nested | ⟨-, entries, frameless, -⟩
    · rw [none_open] at nested
      have empty : m.frames.toList.length = 0 := nested
      refine ⟨Nat.le_refl _, empty, fun f inside => ?_⟩
      rw [List.length_eq_zero_iff.1 empty] at inside
      simp at inside
    · rw [none_open] at frameless
      cases frameless

/-- Every transition keeps the invariant. -/
theorem sound_of_transition (sound : Sound a m) (transition : Transition a m a' m') :
    Sound a' m' := by
  have layout := sound.toLayout
  cases transition with
  | @advance _ _ f outer i ip frames decoded flows covered leaves st =>
    have windows := layout.windows
    rw [frames] at windows
    have depth := windows.fits.sp_eq
    have nested := sound.nested_fetch
    have fits := windows.fits.lower ip (f.sp - i.operation.pops) (by omega) (by omega)
    refine .of_running (layout.stands frames st fits (Nat.sub_le _ _)) id ?_ ?_
    · rw [st.frames]
      simp
    · rw [frames] at nested
      rw [st.frames, st.entries]
      exact nested
  | @produce _ _ f outer i v frames decoded flows covered leaves room pushed =>
    have windows := layout.windows
    have waiting := layout.waiting
    have bounded := layout.bounded (by rw [frames]; simp)
    have nested := sound.nested_fetch
    have top : m.stackTop = f.sp := by rw [stackTop_eq, frames, topOf_cons]
    rw [frames] at windows waiting bounded nested
    have depth := windows.fits.sp_eq
    have fits := windows.fits.lower i.next (f.sp - i.operation.pops) (by omega) (by omega)
    refine .of_running (layout.pushed pushed fits windows.below waiting room ?_ ?_) id ?_ ?_
    · rw [top]
      exact Nat.sub_le _ _
    · simpa using bounded
    · rw [pushed.frames]
      simp
    · rw [pushed.frames, pushed.entries]
      exact nested
  | @await _ _ f outer i n _ frames decoded calls positive covered not_fetch overflow st =>
    have windows := layout.windows
    have waiting := layout.waiting
    have nested := sound.nested_fetch
    rw [frames] at windows waiting nested
    have depth := windows.fits.sp_eq
    have fits := windows.fits.lower i.next (f.sp - (n + 1)) (by omega) (by omega)
    refine .of_waiting (layout.stands frames st fits (Nat.sub_le _ _)) not_fetch ?_ (.inl ?_)
    · rw [st.frames]
      intro g inside
      rcases List.mem_cons.1 inside with rfl | outside
      · exact (waits_of_call windows.fits decoded covered).grows (.of_eq st.methods)
      · exact (waiting g outside).grows (.of_eq st.methods)
    · rw [st.frames, st.entries]
      exact nested
  | @call _ _ f outer i n r frames decoded calls positive covered arity room frames' kept entries
      settings methods =>
    have windows := layout.windows
    have waiting := layout.waiting
    have nested := sound.nested_fetch
    have top : m.stackTop = f.sp := by rw [stackTop_eq, frames, topOf_cons]
    have more := room.frames
    rw [frames] at windows waiting nested more
    have depth := windows.fits.sp_eq
    have fits := windows.fits.lower i.next (f.sp - (n + 1)) (by omega) (by omega)
    refine .of_running (.of_cons frames' (room.fits arity) ⟨fits, windows.below⟩ ?_ ?_ ?_
      settings methods) id ?_ ?_
    · intro g inside
      rcases List.mem_cons.1 inside with rfl | outside
      · exact waits_of_call windows.fits decoded covered
      · exact waiting g outside
    · intro slot lt
      have lt' : slot < f.sp - (n + 1) + n := lt
      rw [kept slot (by omega)]
      exact layout.filled slot (by omega)
    · simp only [List.length_cons] at more ⊢
      omega
    · rw [frames']
      simp
    · rw [frames', entries]
      cases open_ : m.entries with
      | nil =>
        rw [open_] at nested
        exact absurd nested (by simp [Nested])
      | cons base outer' =>
        rw [open_] at nested
        exact ⟨Nat.lt_succ_of_lt nested.1, nested.2⟩
  | @handOut _ _ f outer i v outerEntries frames decoded leaves covered entries frames' kept
      entries' settings methods =>
    have waiting := layout.waiting
    have nested := sound.nested_fetch
    have windows := layout.windows
    rw [frames] at waiting windows
    rw [frames, entries] at nested
    have waiting' : ∀ g ∈ m'.frames.toList, g.Waits m.heap := frames' ▸ waiting
    have base : f.argBase = topOf outer := windows.fits.argBase_eq
    have top : m'.stackTop = topOf outer := by rw [stackTop_eq, frames']
    refine .of_waiting (layout.of_drop 1 ?_ waiting' ?_ settings methods) (by simp) ?_
      (.inl ?_)
    · rw [frames', frames]
      rfl
    · intro slot lt
      exact kept slot (by omega)
    · exact fun g inside => (waiting' g inside).grows (.of_eq methods)
    · rw [frames', entries']
      exact nested.2
  | @giveBack _ _ f g outer i v frames decoded leaves covered nested pushed =>
    have windows := layout.windows
    have waiting := layout.waiting
    have bounded := layout.bounded (by rw [frames]; simp)
    have top : m.stackTop = f.sp := by rw [stackTop_eq, frames, topOf_cons]
    rw [frames] at windows waiting bounded
    have below : g.sp ≤ f.sp := windows.topOf_outer_le
    have room := (waiting g (List.mem_cons_self ..)).room
    refine .of_running (layout.pushed pushed windows.below.fits windows.below.below ?_ room
      (by omega) ?_) id ?_ ?_
    · exact fun h inside => waiting h (List.mem_cons_of_mem _ inside)
    · simp only [List.length_cons] at bounded
      omega
    · rw [pushed.frames]
      simp
    · rw [pushed.frames, pushed.entries]
      exact nested
  | @mishap _ _ f outer ip sp why frames mishap base le st =>
    have windows := layout.windows
    have nested := sound.nested_fetch
    rw [frames] at windows nested
    have fits := windows.fits.lower ip sp base le
    refine .of_running (layout.stands frames st fits le) id ?_ ?_
    · rw [st.frames]
      simp
    · rw [st.frames, st.entries]
      exact nested
  | @receive _ _ f outer v frames pushed =>
    have windows := layout.windows
    have waiting := layout.waiting
    have bounded := layout.bounded (by rw [frames]; simp)
    have nested := sound.entries.nested (by simp)
    have room := (sound.awaiting trivial f (by rw [frames]; exact List.mem_cons_self ..)).room
    have top : m.stackTop = f.sp := by rw [stackTop_eq, frames, topOf_cons]
    rw [frames] at windows waiting bounded nested
    refine .of_running (layout.pushed pushed windows.fits windows.below waiting room
      (by omega) (by simpa using bounded)) id ?_ ?_
    · rw [pushed.frames]
      simp
    · rw [pushed.frames, pushed.entries]
      exact nested
  | @respond _ _ r a u not_fetch settled =>
    refine .of_waiting (layout.undisturbed u) not_fetch ?_ (.inl ?_)
    · rw [u.frames]
      exact fun f inside => (sound.awaiting trivial f inside).grows (.of_eq u.methods)
    · rw [u.frames, u.entries]
      exact sound.entries.nested (by simp)
  | @refuse _ _ r why frames kept entries settings methods not_malformed not_operands =>
    have waiting : ∀ f ∈ m'.frames.toList, f.Waits m.heap := frames ▸ sound.awaiting trivial
    have top : m'.stackTop = m.stackTop := by rw [stackTop_eq, stackTop_eq, frames]
    refine .of_waiting (layout.of_drop 0 (by rw [frames]; rfl) waiting
      (fun slot lt => kept slot (top ▸ lt)) settings methods) (by simp) ?_ (.inr ?_)
    · exact fun f inside => (waiting f inside).grows (.of_eq methods)
    · rw [frames]
      exact ⟨⟨why, rfl⟩, _, entries, sound.entries.nested (by simp)⟩
  | @begin _ _ r method arity room frames' kept written entries settings methods =>
    have top := m.stackTop_eq
    have size : m'.frames.toList.length = m.frames.toList.length + 1 := by
      rw [frames']
      rfl
    refine .of_running (.of_cons frames' (top ▸ room.fits arity) layout.windows
      (sound.awaiting trivial) ?_ ?_ settings methods) id ?_ ?_
    · intro slot lt
      have lt' : slot < m.stackTop + r.args.length := lt
      by_cases below : slot < m.stackTop
      · rw [kept slot below]
        exact layout.filled slot below
      · obtain ⟨index, rfl⟩ : ∃ index, slot = m.stackTop + index :=
          ⟨slot - m.stackTop, by omega⟩
        have within : index < r.args.length := by omega
        exact ⟨r.args[index], by rw [written index within, List.getElem?_eq_getElem within]⟩
    · have more := room.frames
      omega
    · rw [frames']
      simp
    · rw [size, entries]
      exact ⟨Nat.lt_succ_self _, sound.entries.nested (by simp)⟩
  | @unwind _ _ why base outer open_ frames' kept entries settings methods =>
    obtain ⟨le, nested, called⟩ := sound.unwinds open_
    have waiting : ∀ f ∈ m'.frames.toList, f.Waits m.heap := by
      rw [frames']
      intro f inside
      rcases called f inside with suspended | frameless
      · exact sound.waiting f suspended
      · exact sound.frameless frameless f (List.mem_of_mem_drop inside)
    refine .of_waiting (layout.of_drop _ frames' waiting kept settings methods) (by simp) ?_
      (.inl ?_)
    · exact fun f inside => (waiting f inside).grows (.of_eq methods)
    · have size : m'.frames.toList.length = base := by
        rw [frames', List.length_drop]
        omega
      rw [size, entries]
      exact nested
  | @propagate _ _ f base outer open_ frames' kept entries settings methods =>
    have waiting : ∀ f ∈ m'.frames.toList, f.Waits m.heap := by
      rw [frames']
      exact fun f inside => sound.awaiting trivial f (List.mem_of_mem_drop inside)
    have nested := sound.entries.nested (by simp)
    rw [open_] at nested
    have lt : base < m.frames.toList.length := nested.1
    refine .of_waiting (layout.of_drop _ frames' waiting kept settings methods) (by simp) ?_
      (.inl ?_)
    · exact fun f inside => (waiting f inside).grows (.of_eq methods)
    · have size : m'.frames.toList.length = base := by
        rw [frames', List.length_drop]
        omega
      rw [size, entries]
      exact nested.2

/-! ## Hosts -/

/-- A host that has control keeps the layout. -/
theorem Layout.hostChange (layout : Layout m) (waiting : ∀ f ∈ m.frames.toList, f.Waits m.heap)
    (change : HostChange m m') : Layout m' := by
  have top : m'.stackTop = m.stackTop := by rw [stackTop_eq, stackTop_eq, change.frames]
  refine ⟨?_, ?_, ?_, ?_⟩
  · rw [change.frames]
    exact layout.windows.congr
      (fun f inside => change.grows.method (waiting f inside).exists_method) change.maxStackSlots
  · rw [change.frames]
    exact fun f inside => (layout.waiting f inside).grows change.grows
  · intro slot lt
    rw [slot?, change.segment]
    exact layout.filled slot (top ▸ lt)
  · rw [change.frames, change.maxFrames]
    exact layout.bounded

/-- What a host has changed leaves all frames waiting, in entries that are nested. -/
theorem Sound.hostChange (sound : Sound a m) (control : a.HostMayAct) (change : HostChange m m') :
    Layout m' ∧ (∀ f ∈ m'.frames.toList, f.Waits m'.heap) ∧
      Nested m'.frames.toList.length m'.entries := by
  have awaits : a.Awaits := by cases a <;> trivial
  have settled : ∀ why, a ≠ .abandon why := by
    rintro why rfl
    exact control
  refine ⟨sound.toLayout.hostChange (sound.awaiting awaits) change, ?_, ?_⟩
  · rw [change.frames]
    exact fun f inside => (sound.awaiting awaits f inside).grows change.grows
  · rw [change.frames, change.entries]
    exact sound.entries.nested settled

/-- Whatever a host does, the invariant survives. -/
theorem sound_of_host {n : Machine} (sound : Sound a m) (control : a.HostMayAct)
    (change : HostChange m n) (turn : HostTurn n a' m') : Sound a' m' := by
  obtain ⟨layout, waiting, nested⟩ := sound.hostChange control change
  cases turn with
  | answer v => exact .of_waiting layout (by simp) waiting (.inl nested)
  | enter r => exact .of_waiting layout (by simp) waiting (.inl nested)
  | giveUpRequest why =>
    refine .of_waiting ⟨layout.windows, layout.waiting, layout.filled, layout.bounded⟩ (by simp)
      waiting (.inr ⟨⟨why, rfl⟩, n.entries, ?_, nested⟩)
    rw [← FrameStack.size_eq]
    rfl
  | fail f => exact .of_waiting layout (by simp) waiting (.inl nested)

/-! ## Reachable states -/

/-- Every move keeps the invariant. -/
theorem sound_of_move (sound : Sound a m) (move : Move a m a' m') : Sound a' m' := by
  cases move with
  | step ran => exact sound_of_transition sound (transition_of_step sound ran)
  | host control change turn => exact sound_of_host sound control change turn
  | giveUp why control change _ =>
    obtain ⟨layout, waiting, nested⟩ := sound.hostChange control change
    exact .of_waiting layout (by simp) waiting (.inl nested)

/-- Nothing runs on an idle machine. -/
theorem sound_idle (heap : Heap) (image : Image) (settings : Settings) (r : Request) :
    Sound (.request r) (idle heap image settings) := by
  have none_ : (idle heap image settings).frames.toList = [] := rfl
  refine .of_waiting ⟨trivial, ?_, ?_, ?_⟩ (by simp) ?_ (.inl rfl)
  · simp [none_]
  · intro slot lt
    exact absurd lt (Nat.not_lt_zero slot)
  · exact fun some_ => absurd none_ some_
  · simp [none_]

/-- The invariant holds in every reachable state. -/
theorem sound_of_reachable (reachable : Reachable a m) : Sound a m := by
  induction reachable with
  | start heap image settings r => exact sound_idle heap image settings r
  | move _ move ih => exact sound_of_move ih move

end MessageMachine.Machine
