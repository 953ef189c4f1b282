/-
# What a move does to the frames

Most of what can be said about a frame while others run on top of it depends on
three facts about a move. It changes the innermost frame and may put another on
top, or it takes that frame off and changes the one below, or it takes some frames
off and changes none of those that remain. `Shift` is this classification, with
the slots that each kind of move leaves alone.

Two consequences carry the rest. A frame that is not taken off remains the same
activation, over the same arguments (`Shift.lives`). Frames that are neither run
nor returned to remain exactly as they are (`Shift.keeps`).
-/

import MessageMachine.Proofs.Machine.Invariant

namespace MessageMachine

/-- Two states of one activation: they differ in the place in the code and in the
number of operands. -/
structure Frame.SameActivation (g f : Frame) : Prop where
  method : g.method = f.method
  argBase : g.argBase = f.argBase
  argCount : g.argCount = f.argCount
  stackBase : g.stackBase = f.stackBase
  limit : g.limit = f.limit

@[refl] theorem Frame.SameActivation.refl (f : Frame) : f.SameActivation f :=
  ⟨rfl, rfl, rfl, rfl, rfl⟩

theorem Frame.SameActivation.trans {f g h : Frame} (second : h.SameActivation g)
    (first : g.SameActivation f) : h.SameActivation f :=
  ⟨second.method.trans first.method, second.argBase.trans first.argBase,
    second.argCount.trans first.argCount, second.stackBase.trans first.stackBase,
    second.limit.trans first.limit⟩

namespace Machine

/-- What a move does to frames and slots. -/
inductive Shift (m m' : Machine) : Prop
  /-- The innermost frame goes on, and other frames may be entered. -/
  | onward (entered : List Frame) {f g : Frame} {outer : List Frame} :
      m.frames.toList = f :: outer → m'.frames.toList = entered ++ g :: outer →
      g.SameActivation f → (∀ slot < f.stackBase, m'.slot? slot = m.slot? slot) → Shift m m'
  /-- The innermost frame returns to the one below. -/
  | back {f g g' : Frame} {outer : List Frame} :
      m.frames.toList = f :: g :: outer → m'.frames.toList = g' :: outer →
      g'.SameActivation g → (∀ slot < g.sp, m'.slot? slot = m.slot? slot) → Shift m m'
  /-- Frames are taken off and none of the others changes. -/
  | outward (count : Nat) :
      m'.frames.toList = m.frames.toList.drop count →
      (∀ slot < topOf (m.frames.toList.drop count), m'.slot? slot = m.slot? slot) → Shift m m'
  /-- A frame is entered on top of all others. -/
  | inward (callee : Frame) :
      m'.frames.toList = callee :: m.frames.toList →
      (∀ slot < m.stackTop, m'.slot? slot = m.slot? slot) → Shift m m'

variable {a a' : Activity} {m m' : Machine}

/-- A transition is a shift. A return to the caller is the only one that takes a
frame off and goes on executing. -/
theorem shift_of_transition (sound : Sound a m) (transition : Transition a m a' m') :
    Shift m m' := by
  have windows := sound.windows
  cases transition with
  | @advance _ _ f outer i ip frames decoded flows covered leaves st =>
    rw [frames] at windows
    have depth := windows.fits.sp_eq
    exact .onward [] frames st.frames ⟨rfl, rfl, rfl, rfl, rfl⟩
      fun slot lt => st.kept slot (show slot < f.sp - i.operation.pops by omega)
  | @produce _ _ f outer i v frames decoded flows covered leaves room pushed =>
    rw [frames] at windows
    have depth := windows.fits.sp_eq
    exact .onward [] frames pushed.frames ⟨rfl, rfl, rfl, rfl, rfl⟩
      fun slot lt => pushed.kept slot (show slot < f.sp - i.operation.pops by omega)
  | @await _ _ f outer i n _ frames decoded calls positive covered not_fetch overflow st =>
    rw [frames] at windows
    have depth := windows.fits.sp_eq
    exact .onward [] frames st.frames ⟨rfl, rfl, rfl, rfl, rfl⟩
      fun slot lt => st.kept slot (show slot < f.sp - (n + 1) by omega)
  | @call _ _ f outer i n r frames decoded calls positive covered arity room frames' kept =>
    rw [frames] at windows
    have depth := windows.fits.sp_eq
    exact .onward [_] frames frames' ⟨rfl, rfl, rfl, rfl, rfl⟩ fun slot lt => kept slot (by omega)
  | @handOut _ _ f outer i v entries frames decoded leaves covered open_ frames' kept =>
    rw [frames] at windows
    have top : f.argBase = topOf outer := windows.fits.argBase_eq
    refine .outward 1 (by rw [frames', frames]; rfl) fun slot lt => kept slot ?_
    rw [frames] at lt
    exact top ▸ lt
  | giveBack frames decoded leaves covered nested pushed =>
    exact .back frames pushed.frames ⟨rfl, rfl, rfl, rfl, rfl⟩ pushed.kept
  | @mishap _ _ f outer ip sp why frames mishap base le st =>
    exact .onward [] frames st.frames ⟨rfl, rfl, rfl, rfl, rfl⟩
      fun slot lt => st.kept slot (Nat.lt_of_lt_of_le lt base)
  | @receive _ _ f outer v frames pushed =>
    rw [frames] at windows
    exact .onward [] frames pushed.frames ⟨rfl, rfl, rfl, rfl, rfl⟩
      fun slot lt => pushed.kept slot (Nat.lt_of_lt_of_le lt windows.fits.stackBase_le)
  | respond u => exact .outward 0 (by rw [u.frames]; rfl) fun slot _ => u.slot? slot
  | refuse frames kept =>
    exact .outward 0 (by rw [frames]; rfl) fun slot lt => kept slot (m.stackTop_eq ▸ lt)
  | begin arity room frames' kept => exact .inward _ frames' kept
  | unwind open_ frames' kept =>
    refine .outward _ frames' fun slot lt => kept slot ?_
    rwa [stackTop_eq, frames']
  | propagate open_ frames' kept =>
    refine .outward _ frames' fun slot lt => kept slot ?_
    rwa [stackTop_eq, frames']

/-- A host touches no frame and no slot. -/
theorem shift_of_host {n : Machine} (change : HostChange m n) (frames : m'.frames = n.frames)
    (segment : m'.segment = n.segment) : Shift m m' := by
  refine .outward 0 ?_ fun slot _ => ?_
  · rw [frames, change.frames]
    rfl
  · rw [slot?, slot?, segment, change.segment]

theorem shift_of_move (sound : Sound a m) (move : Move a m a' m') : Shift m m' := by
  cases move with
  | step ran => exact shift_of_transition sound (transition_of_step sound ran)
  | host _ change turn => exact shift_of_host change (by cases turn <;> rfl) (by cases turn <;> rfl)
  | giveUp why _ change _ => exact shift_of_host change rfl rfl

/-! ## Frames that live on -/

/-- Windows end where the next one inside begins, or before. -/
theorem Windows.topOf_append_le {h : Heap} {s : Settings} {inner outer : List Frame}
    (windows : Windows h s (inner ++ outer)) : topOf outer ≤ topOf (inner ++ outer) := by
  have le := windows.topOf_drop_le inner.length
  rwa [List.drop_left] at le

/-- A frame that is not taken off remains the same activation over the same
arguments, and the frames outside it remain where they were. -/
theorem Shift.lives {inner outer : List Frame} {f : Frame} (shift : Shift m m')
    (windows : Windows m.heap m.settings m.frames.toList)
    (frames : m.frames.toList = inner ++ f :: outer)
    (long : outer.length < m'.frames.toList.length) :
    ∃ inner' f', m'.frames.toList = inner' ++ f' :: outer ∧ f'.SameActivation f ∧
      ∀ slot < f.stackBase, m'.slot? slot = m.slot? slot := by
  rw [frames] at windows
  have base : f.stackBase ≤ f.sp := (windows.exists_fits (by simp)).elim
    fun _ fits => fits.stackBase_le
  cases shift with
  | @onward entered top g below frames₁ frames' same kept =>
    rw [frames] at frames₁
    cases inner with
    | nil =>
      obtain ⟨rfl, rfl⟩ := List.cons.inj frames₁
      exact ⟨entered, g, frames', same, kept⟩
    | cons first rest =>
      obtain ⟨rfl, rfl⟩ := List.cons.inj frames₁
      refine ⟨entered ++ g :: rest, f, by rw [frames']; simp, .refl f, fun slot lt => kept slot ?_⟩
      have fits := Windows.fits windows
      have le : topOf (f :: outer) ≤ topOf (rest ++ f :: outer) := windows.below.topOf_append_le
      have from_ : first.argBase = topOf (rest ++ f :: outer) := fits.argBase_eq
      have first_ := fits.stackBase_eq
      simp only [topOf_cons] at le
      omega
  | @back top g g' below frames₁ frames' same kept =>
    rw [frames] at frames₁
    rcases inner with - | ⟨first, - | ⟨second, rest⟩⟩
    · obtain ⟨rfl, rfl⟩ := List.cons.inj frames₁
      rw [frames'] at long
      exact absurd long (by simp)
    · obtain ⟨rfl, inner₁⟩ := List.cons.inj frames₁
      obtain ⟨rfl, rfl⟩ := List.cons.inj inner₁
      exact ⟨[], g', frames', same, fun slot lt => kept slot (Nat.lt_of_lt_of_le lt base)⟩
    · obtain ⟨rfl, inner₁⟩ := List.cons.inj frames₁
      obtain ⟨rfl, rfl⟩ := List.cons.inj inner₁
      refine ⟨g' :: rest, f, by rw [frames']; rfl, .refl f, fun slot lt => kept slot ?_⟩
      have le : topOf (f :: outer) ≤ topOf ((second :: rest) ++ f :: outer) :=
        Windows.topOf_append_le windows.below
      simp only [List.cons_append, topOf_cons] at le
      omega
  | outward count frames' kept =>
    rw [frames] at frames' kept
    have few : count ≤ inner.length := by
      rw [frames', List.length_drop, List.length_append, List.length_cons] at long
      omega
    rw [List.drop_append_of_le_length few] at frames' kept
    refine ⟨inner.drop count, f, frames', .refl f, fun slot lt => kept slot ?_⟩
    have rest := windows.drop count
    rw [List.drop_append_of_le_length few] at rest
    have le : f.sp ≤ _ := rest.topOf_append_le
    omega
  | inward callee frames' kept =>
    refine ⟨callee :: inner, f, by rw [frames', frames]; rfl, .refl f, fun slot lt => kept slot ?_⟩
    have le : f.sp ≤ _ := windows.topOf_append_le
    rw [stackTop_eq, frames]
    omega

/-- A frame lives on for as long as there are as many frames as it takes. -/
theorem MovesWhile.lives {b : Activity} {k : Machine} {inner outer : List Frame} {f : Frame}
    (moves : MovesWhile (fun _ s => outer.length < s.frames.toList.length) a m b k)
    (sound : Sound a m) (frames : m.frames.toList = inner ++ f :: outer)
    (long : outer.length < k.frames.toList.length) :
    Sound b k ∧ ∃ inner' f', k.frames.toList = inner' ++ f' :: outer ∧ f'.SameActivation f ∧
      ∀ slot < f.stackBase, k.slot? slot = m.slot? slot := by
  induction moves with
  | refl => exact ⟨sound, inner, f, frames, .refl f, fun _ _ => rfl⟩
  | tail _ longer move ih =>
    obtain ⟨sound', inner', g, frames', same, kept⟩ := ih longer
    obtain ⟨inner'', g', frames'', same', kept'⟩ :=
      (shift_of_move sound' move).lives sound'.windows frames' long
    refine ⟨sound_of_move sound' move, inner'', g', frames'', same'.trans same,
      fun slot lt => ?_⟩
    rw [kept' slot (same.stackBase ▸ lt), kept slot lt]

end Machine

end MessageMachine
