/-
# Compiled code comes to an end

A frame of compiled code only goes forward, so each instruction that it executes brings
it nearer to the end of its code. A call enters a frame and thereby uses up one of the
frames that the machine may have, and nothing gives such a frame back without the caller
having gone on. So the frames, taken together, are a number in a positional system. The
digit of a frame is the code that it has still in front of it, the outermost frame has
the highest place, and every step makes the number smaller.

Three things are in the way of counting frames alone. A primitive may have the machine
call a function without any code being executed in between, a call may be given up while
the code around it goes on, and a failure of the host takes down one entry after another.
The first is paid for by the arguments, of which there are fewer each time. The second
takes down a frame that had code in front of it. For the third the entries are counted.
-/

import MessageMachine.Proofs.Compiler.Forward

namespace MessageMachine

/-! ## Code in front of a frame -/

/-- The bytes of its code that a frame has not got past. -/
def Frame.ahead (h : Heap) (f : Frame) : Nat :=
  (h.method f.method).code.size - f.ip.toNat

/-- A frame that has gone on has less in front of it. -/
theorem Frame.ahead_lt {h : Heap} {f : Frame} {i : Instruction} {ip : Int}
    (decoded : Instruction.decode (h.method f.method).code f.ip = .ok i) (onward : (i.next : Int) ≤ ip)
    (sp : Nat) : Frame.ahead h { f with ip := ip, sp := sp } < f.ahead h := by
  obtain ⟨start, inside, next⟩ := bounds_of_decode decoded
  unfold ahead
  simp only
  omega

theorem Frame.ahead_pos {h : Heap} {f : Frame} {i : Instruction}
    (decoded : Instruction.decode (h.method f.method).code f.ip = .ok i) : 0 < f.ahead h :=
  Nat.zero_lt_of_lt (Frame.ahead_lt decoded (Int.le_refl _) f.sp)

theorem Frame.ahead_congr {h h' : Heap} (methods : h'.methods = h.methods) (f : Frame) :
    f.ahead h' = f.ahead h := by
  unfold ahead
  rw [Heap.method_of_methods methods]

/-- No method of compiled code is longer than the assembler lets it be. -/
theorem Heap.Compiled.size_code_le {h : Heap} {library : List Function}
    (compiled : h.Compiled library) (r : Ref .method) :
    (h.method r).code.size ≤ Assembler.maxCodeSize := by
  by_cases inside : r.index < library.length
  · obtain ⟨a, last, finished, -⟩ :=
      (compiled.implements r.index _ (List.getElem?_eq_getElem inside)).code
    have method : h.method ⟨r.index⟩ = h.method r := rfl
    rw [method] at finished
    unfold Assembler.finish at finished
    split at finished
    · cases finished
    next code laid =>
      have fits := (Assembler.code_of_layout laid).2.2
      split at finished
      · cases finished
      · generalize h.method r = method at finished
        cases finished
        exact fits
  · rw [Heap.method_of_size_le (compiled.size ▸ Nat.le_of_not_lt inside)]
    exact Nat.zero_le _

/-! ## The number that the frames are -/

namespace Settings

/-- No digit is as large as this, and there is room for the arguments of a call. -/
def radix (s : Settings) : Nat :=
  Assembler.maxCodeSize + s.maxStackSlots.toNat + 4

/-- What one byte is worth to a frame with a number of frames outside it. -/
def place (s : Settings) (outside : Nat) : Nat :=
  s.radix ^ (s.maxFrames.toNat - outside)

theorem place_pos (s : Settings) (outside : Nat) : 0 < s.place outside :=
  Nat.pow_pos (Nat.succ_pos _)

/-- A byte of a caller outweighs all that a call of its may cost. -/
theorem place_eq {s : Settings} {outside : Nat} (room : (outside : Int) < s.maxFrames) :
    s.place outside = Assembler.maxCodeSize * s.place (outside + 1) +
      s.maxStackSlots.toNat * s.place (outside + 1) + 4 * s.place (outside + 1) := by
  have one : s.maxFrames.toNat - outside = s.maxFrames.toNat - (outside + 1) + 1 := by omega
  unfold place
  rw [one, Nat.pow_succ, Nat.mul_comm, radix, Nat.add_mul, Nat.add_mul]

/-- The steps that no program exceeds. -/
def allowance (s : Settings) : Nat :=
  (Assembler.maxCodeSize + 3) * s.place 0

end Settings

namespace Machine

/-- The number that the frames are, the innermost frame having the lowest place. -/
def outlook (h : Heap) (s : Settings) : List Frame → Nat
  | [] => 0
  | f :: outer => f.ahead h * s.place outer.length + outlook h s outer

theorem outlook_congr {h h' : Heap} (methods : h'.methods = h.methods) (s : Settings)
    (frames : List Frame) : outlook h' s frames = outlook h s frames := by
  induction frames with
  | nil => rfl
  | cons f outer ih => rw [outlook, outlook, Frame.ahead_congr methods, ih]

theorem outlook_drop_le (h : Heap) (s : Settings) (frames : List Frame) (count : Nat) :
    outlook h s (frames.drop count) ≤ outlook h s frames := by
  induction frames generalizing count with
  | nil => rw [List.drop_nil]
  | cons f outer ih =>
    cases count with
    | zero => exact Nat.le_refl _
    | succ count => exact Nat.le_trans (ih count) (Nat.le_add_left _ _)

/-- A frame that goes on makes the number smaller by its place. -/
theorem outlook_onward {h : Heap} (s : Settings) {f g : Frame} (outer : List Frame)
    (less : g.ahead h < f.ahead h) :
    outlook h s (g :: outer) + s.place outer.length ≤ outlook h s (f :: outer) := by
  rw [outlook, outlook, Nat.add_right_comm, ← Nat.succ_mul]
  exact Nat.add_le_add_right (Nat.mul_le_mul_right _ less) _

/-- A frame that was about to execute an instruction makes the number smaller by its place
when it is taken off. -/
theorem outlook_return {h : Heap} (s : Settings) {f : Frame} (outer : List Frame)
    (some_ : 0 < f.ahead h) : outlook h s outer + s.place outer.length ≤ outlook h s (f :: outer) := by
  rw [outlook, Nat.add_comm]
  exact Nat.add_le_add_right (Nat.le_mul_of_pos_left _ some_) _

/-! ## Steps that are left -/

/-- The frames that remain when the innermost entry is given up. -/
def remaining (m : Machine) : List Frame :=
  m.frames.toList.drop (m.frames.toList.length - m.entries.headD m.frames.toList.length)

/-- A number of steps that a machine is certain not to exceed, but for those that take down
entries. A request may go through as many others as it has arguments before a method is
entered, or given up. -/
def stepsAhead (a : Activity) (m : Machine) : Nat :=
  match a with
  | .fetch => outlook m.heap m.settings m.frames.toList
  | .reply _ => outlook m.heap m.settings m.frames.toList + 1
  | .abandon _ => outlook m.heap m.settings m.remaining + 2
  | .request r => outlook m.heap m.settings m.frames.toList + r.args.length +
      (Assembler.maxCodeSize + 3) * m.settings.place m.frames.toList.length
  | .fault _ => 0

/-- A number of steps that a machine is certain not to exceed. -/
def stepsLeft (a : Activity) (m : Machine) : Nat :=
  stepsAhead a m + m.entries.length

variable {library : List Function} {a b : Activity} {m k : Machine}

theorem stepsLeft_fetch (m : Machine) :
    stepsLeft .fetch m = outlook m.heap m.settings m.frames.toList + m.entries.length := rfl

theorem stepsLeft_reply (v : Value) (m : Machine) :
    stepsLeft (.reply v) m =
      outlook m.heap m.settings m.frames.toList + 1 + m.entries.length := rfl

theorem stepsLeft_abandon (why : Abort) (m : Machine) :
    stepsLeft (.abandon why) m =
      outlook m.heap m.settings m.remaining + 2 + m.entries.length := rfl

theorem stepsLeft_request (r : Request) (m : Machine) :
    stepsLeft (.request r) m = outlook m.heap m.settings m.frames.toList + r.args.length +
      (Assembler.maxCodeSize + 3) * m.settings.place m.frames.toList.length +
      m.entries.length := rfl

theorem stepsLeft_fault (f : HostFault) (m : Machine) :
    stepsLeft (.fault f) m = m.entries.length := Nat.zero_add _

theorem settings_of_transition (transition : Transition a m b k) : k.settings = m.settings := by
  cases transition with
  | advance _ _ _ _ _ st => exact st.settings
  | produce _ _ _ _ _ _ pushed => exact pushed.settings
  | await _ _ _ _ _ _ _ st => exact st.settings
  | call _ _ _ _ _ _ _ _ _ _ settings => exact settings
  | handOut _ _ _ _ _ _ _ _ settings => exact settings
  | giveBack _ _ _ _ _ pushed => exact pushed.settings
  | mishap _ _ _ _ st => exact st.settings
  | receive _ pushed => exact pushed.settings
  | respond u => exact u.settings
  | refuse _ _ _ settings => exact settings
  | begin _ _ _ _ _ _ settings => exact settings
  | unwind _ _ _ _ settings => exact settings
  | propagate _ _ _ _ settings => exact settings

/-- What one byte of the innermost frame is worth is enough to give up. -/
theorem two_lt_place {s : Settings} {outside : Nat} (room : (outside : Int) < s.maxFrames) :
    2 < s.place outside := by
  have above := s.place_pos (outside + 1)
  have split := Settings.place_eq room
  omega

/-- Entering a method costs no more than all its code. -/
theorem outlook_entering_le {h : Heap} (compiled : h.Compiled library) (r : Ref .method)
    (argBase argCount : Nat) (s : Settings) (frames : List Frame) :
    outlook h s (entering h r argBase argCount :: frames) ≤
      Assembler.maxCodeSize * s.place frames.length + outlook h s frames :=
  Nat.add_le_add_right (Nat.mul_le_mul_right _
    (Nat.le_trans (Nat.sub_le _ _) (compiled.size_code_le r))) _

/-- Code that is not to blame was given up at an instruction. -/
theorem Mishap.decoded {f : Frame} {why : Abort} (mishap : Mishap m f why)
    (blameless : ¬ why.BlamesCode) :
    ∃ i, Instruction.decode (m.heap.method f.method).code f.ip = .ok i := by
  cases mishap with
  | undecodable => exact absurd trivial blameless
  | constant decoded | argument decoded | underflow decoded | overflow decoded | name decoded
  | frames decoded | segment decoded => exact ⟨_, decoded⟩

theorem room_of_frames {f : Frame} {outer : List Frame} (sound : Sound a m)
    (frames : m.frames.toList = f :: outer) : (outer.length : Int) < m.settings.maxFrames := by
  have bounded := sound.bounded (by rw [frames]; exact List.cons_ne_nil _ _)
  rw [frames, List.length_cons] at bounded
  omega

/-- Giving up takes down the innermost frame at least, if it was not called for. -/
theorem outlook_remaining_le {f : Frame} {outer : List Frame} (frames : m.frames.toList = f :: outer)
    (nested : Nested (outer.length + 1) m.entries) (h : Heap) (s : Settings) :
    outlook h s m.remaining ≤ outlook h s outer := by
  have some_ : m.entries ≠ [] := fun none_ => absurd (nested.eq_nil_iff.1 none_) (Nat.succ_ne_zero _)
  obtain ⟨base, entries, open_⟩ := List.exists_cons_of_ne_nil some_
  rw [open_] at nested
  have below : base < outer.length + 1 := nested.1
  have count : outer.length + 1 - base = (outer.length - base) + 1 := by omega
  unfold remaining
  rw [open_, frames, List.headD_cons, List.length_cons, count, List.drop_succ_cons]
  exact outlook_drop_le _ _ _ _

/-- What a call can cost at most is less than the byte of the caller that it takes. -/
theorem cost_lt_place {s : Settings} {outside count : Nat} (room : (outside : Int) < s.maxFrames)
    (few : count < s.maxStackSlots.toNat) :
    count + (Assembler.maxCodeSize + 3) * s.place (outside + 1) < s.place outside := by
  have above := s.place_pos (outside + 1)
  have slots : s.maxStackSlots.toNat ≤ s.maxStackSlots.toNat * s.place (outside + 1) :=
    Nat.le_mul_of_pos_right _ above
  have split := Settings.place_eq room
  rw [Nat.add_mul]
  omega

/-- A call that is answered without running code takes a byte of the caller, whoever is to
answer it. -/
theorem stepsLeft_await_lt {f : Frame} {outer : List Frame} {i : Instruction} {sp : Nat}
    (reachable : Reachable .fetch m) (conducted : Conducted library .fetch m)
    (ran : step .fetch m = .running b k) (frames : m.frames.toList = f :: outer)
    (decoded : Instruction.decode (m.heap.method f.method).code f.ip = .ok i)
    (not_fetch : b ≠ .fetch) (st : Stands m k { f with ip := i.next, sp := sp } outer) :
    stepsLeft b k < stepsLeft .fetch m := by
  have sound := sound_of_reachable reachable
  have same := outlook_congr st.methods m.settings
  have less := Frame.ahead_lt decoded (Int.le_refl _) sp
  have onward := outlook_onward m.settings outer less
  have room := room_of_frames sound frames
  have place := two_lt_place room
  rw [stepsLeft_fetch, frames]
  cases b with
  | fetch => exact absurd rfl not_fetch
  | reply v =>
    rw [stepsLeft_reply, st.settings, same, st.frames, st.entries]
    omega
  | abandon why =>
    have nested := sound.nested_fetch
    rw [frames, List.length_cons, ← st.entries] at nested
    have lower := outlook_remaining_le st.frames nested m.heap m.settings
    rw [outlook] at onward
    rw [stepsLeft_abandon, st.settings, same, st.entries]
    omega
  | request r =>
    have windows := sound.windows
    obtain ⟨_, _, _, n, frames', -, -, covered, -, fewer⟩ :=
      request_of_fetch conducted.compiled.standard sound ran
    rw [frames] at frames' windows
    cases frames'
    -- The arguments are fewer than the operands of the caller, which lie in the segment.
    have few : r.args.length < m.settings.maxStackSlots.toNat := by
      have depth := windows.fits.sp_eq
      have le := windows.fits.sp_le
      have limit := windows.fits.limit_le
      omega
    have cost := cost_lt_place room few
    rw [stepsLeft_request, st.settings, same, st.frames, st.entries, List.length_cons]
    omega
  | fault f =>
    rw [stepsLeft_fault, st.entries]
    omega

theorem stepsLeft_fetch_lt (reachable : Reachable .fetch m) (conducted : Conducted library .fetch m)
    (ran : step .fetch m = .running b k) : stepsLeft b k < stepsLeft .fetch m := by
  have sound := sound_of_reachable reachable
  have transition := transition_of_step sound ran
  have settings := settings_of_transition transition
  have same := outlook_congr (sameCode_of_step ran).methods m.settings
  cases transition with
  | @advance _ _ f outer i ip frames decoded flows covered leaves st =>
    have course := conducted.onCourse.executing rfl f outer frames
    have less := Frame.ahead_lt decoded (course.advance decoded flows covered leaves).1
      (f.sp - i.operation.pops)
    have onward := outlook_onward m.settings outer less
    have place := m.settings.place_pos outer.length
    rw [stepsLeft_fetch, stepsLeft_fetch, settings, same, frames, st.frames, st.entries]
    exact Nat.add_lt_add_right
      (Nat.lt_of_lt_of_le (Nat.lt_add_of_pos_right place) onward) m.entries.length
  | @produce _ _ f outer i v frames decoded flows covered leaves room pushed =>
    have less := Frame.ahead_lt decoded (Int.le_refl _) (f.sp - i.operation.pops + 1)
    have onward := outlook_onward m.settings outer less
    have place := m.settings.place_pos outer.length
    rw [stepsLeft_fetch, stepsLeft_fetch, settings, same, frames, pushed.frames, pushed.entries]
    exact Nat.add_lt_add_right
      (Nat.lt_of_lt_of_le (Nat.lt_add_of_pos_right place) onward) m.entries.length
  | await frames decoded _ _ _ not_fetch _ st =>
    exact stepsLeft_await_lt reachable conducted ran frames decoded not_fetch st
  | @call _ _ f outer i n r frames decoded calls positive covered arity room frames' _ entries =>
    have less := Frame.ahead_lt decoded (Int.le_refl _) (f.sp - (n + 1))
    have onward := outlook_onward m.settings outer less
    have entered := outlook_entering_le conducted.compiled r (f.sp - (n + 1)) n m.settings
      ({ f with ip := i.next, sp := f.sp - (n + 1) } :: outer)
    have above := m.settings.place_pos (outer.length + 1)
    have place := Settings.place_eq (room_of_frames sound frames)
    rw [List.length_cons] at entered
    rw [stepsLeft_fetch, stepsLeft_fetch, settings, same, frames, frames', entries]
    omega
  | @handOut _ _ f outer i v entries frames decoded leaves covered open_ frames' _ entries' =>
    have returned := outlook_return m.settings outer (Frame.ahead_pos decoded)
    have place := two_lt_place (room_of_frames sound frames)
    rw [stepsLeft_reply, stepsLeft_fetch, settings, same, frames, frames', entries', open_,
      List.length_cons]
    omega
  | @giveBack _ _ f g outer i v frames decoded leaves covered nested pushed =>
    have returned := outlook_return m.settings (g :: outer) (Frame.ahead_pos decoded)
    have place := m.settings.place_pos (g :: outer).length
    have resumed : outlook m.heap m.settings ({ g with sp := g.sp + 1 } :: outer) =
        outlook m.heap m.settings (g :: outer) := rfl
    rw [stepsLeft_fetch, stepsLeft_fetch, settings, same, frames, pushed.frames, pushed.entries,
      resumed]
    omega
  | @mishap _ _ f outer ip sp why frames mishap base le st =>
    -- The frame had its instruction in front of it, and it is taken down with all of that.
    obtain ⟨i, decoded⟩ := mishap.decoded ((conducted.step reachable ran).blameless why rfl)
    have returned := outlook_return m.settings outer (Frame.ahead_pos decoded)
    have place := two_lt_place (room_of_frames sound frames)
    have nested := sound.nested_fetch
    rw [frames, List.length_cons, ← st.entries] at nested
    have lower := outlook_remaining_le st.frames nested m.heap m.settings
    rw [stepsLeft_abandon, stepsLeft_fetch, settings, same, frames, st.entries]
    omega

theorem stepsLeft_request_lt {r : Request} (reachable : Reachable (.request r) m)
    (conducted : Conducted library (.request r) m) (ran : step (.request r) m = .running b k) :
    stepsLeft b k < stepsLeft (.request r) m := by
  have sound := sound_of_reachable reachable
  have conducted' := conducted.step reachable ran
  have transition := transition_of_step sound ran
  have settings := settings_of_transition transition
  have same := outlook_congr (sameCode_of_step ran).methods m.settings
  have place := m.settings.place_pos m.frames.toList.length
  rw [stepsLeft_request, Nat.add_mul]
  cases transition with
  | @respond _ _ r a u not_fetch settled =>
    cases b with
    | fetch => exact absurd rfl not_fetch
    | reply v =>
      rw [stepsLeft_reply, settings, same, u.frames, u.entries]
      omega
    | abandon why => exact absurd rfl (settled why)
    | request r' =>
      have fewer := (request_of_request conducted.compiled.standard ran).2
      rw [stepsLeft_request, settings, same, u.frames, u.entries, Nat.add_mul]
      omega
    | fault f =>
      rw [stepsLeft_fault, u.entries]
      omega
  | @refuse _ _ r why frames kept entries =>
    have all : k.remaining = m.frames.toList := by
      unfold remaining
      rw [entries, frames, List.headD_cons, Nat.sub_self, List.drop_zero]
    have code : 0 < Assembler.maxCodeSize * m.settings.place m.frames.toList.length :=
      Nat.mul_pos (by decide) place
    rw [stepsLeft_abandon, settings, same, all, entries, List.length_cons]
    omega
  | @begin _ _ r method arity room frames' _ _ entries =>
    have entered := outlook_entering_le conducted.compiled method m.stackTop r.args.length
      m.settings m.frames.toList
    rw [stepsLeft_fetch, settings, same, frames', entries, List.length_cons]
    omega

/-- An entry that is given up answers nil, and the frames outside it are left to go on. -/
theorem step_abandon {why : Abort} (sound : Sound (.abandon why) m) :
    ∃ k, step (.abandon why) m = .running (.reply .nil) k ∧ k.frames.toList = m.remaining := by
  obtain ⟨b, k, ran⟩ : ∃ b k, step (.abandon why) m = .running b k := ⟨_, _, rfl⟩
  rw [ran]
  cases transition_of_step sound ran with
  | unwind open_ frames' =>
    refine ⟨k, rfl, ?_⟩
    rw [frames', remaining]
    rcases open_ with nested | ⟨none_, -, rfl⟩
    · rw [nested, List.headD_cons]
    · rw [none_, List.headD_nil]

/-- Every step of compiled code leaves fewer steps. -/
theorem stepsLeft_lt (reachable : Reachable a m) (conducted : Conducted library a m)
    (ran : step a m = .running b k) : stepsLeft b k < stepsLeft a m := by
  have transition := transition_of_step (sound_of_reachable reachable) ran
  have settings := settings_of_transition transition
  have same := outlook_congr (sameCode_of_step ran).methods m.settings
  cases a with
  | fetch => exact stepsLeft_fetch_lt reachable conducted ran
  | request r => exact stepsLeft_request_lt reachable conducted ran
  | reply v =>
    cases transition with
    | @receive _ _ f outer _ frames pushed =>
      have resumed : outlook m.heap m.settings ({ f with sp := f.sp + 1 } :: outer) =
          outlook m.heap m.settings (f :: outer) := rfl
      rw [stepsLeft_fetch, stepsLeft_reply, settings, same, frames, pushed.frames, pushed.entries,
        resumed]
      omega
  | abandon why =>
    obtain ⟨k', unwound, left⟩ := step_abandon (sound_of_reachable reachable)
    cases unwound.symm.trans ran
    have fewer : k.entries.length ≤ m.entries.length := by
      cases transition with
      | unwind open_ _ _ entries =>
        rcases open_ with nested | ⟨none_, rfl, -⟩
        · rw [entries, nested, List.length_cons]
          exact Nat.le_succ _
        · rw [entries, none_]
    rw [stepsLeft_reply, stepsLeft_abandon, settings, same, left]
    omega
  | fault f =>
    cases transition with
    | propagate nested _ _ entries =>
      rw [stepsLeft_fault, stepsLeft_fault, entries, nested, List.length_cons]
      exact Nat.lt_succ_self _

/-! ## Runs -/

/-- Compiled code ends before its steps are used up. -/
theorem exists_completion {fuel : Nat} (reachable : Reachable a m)
    (conducted : Conducted library a m) (enough : stepsLeft a m < fuel) :
    ∃ completion k, run fuel a m = (some completion, k) := by
  induction fuel generalizing a m with
  | zero => exact absurd enough (Nat.not_lt_zero _)
  | succ fuel ih =>
    rw [run]
    cases taken : step a m with
    | running b l =>
      have less := stepsLeft_lt reachable conducted taken
      exact ih (.move reachable (.step taken)) (conducted.step reachable taken)
        (Nat.lt_of_lt_of_le less (Nat.le_of_lt_succ enough))
    | finished ended l => exact ⟨ended, l, rfl⟩

/-- A program that is about to be run has the steps that the settings allow. -/
theorem stepsLeft_execute (h : Heap) (image : Image) (s : Settings) (program : Ref .method) :
    stepsLeft (.request (.execute program)) (idle h image s) = s.allowance :=
  (Nat.add_zero _).trans (Nat.zero_add _)

theorem Leads.settings (leads : Leads a m b k) (reachable : Reachable a m) :
    k.settings = m.settings := by
  obtain ⟨count, steps⟩ := leads
  induction steps with
  | zero => rfl
  | succ ran _ ih =>
    have first := settings_of_transition (transition_of_step (sound_of_reachable reachable) ran)
    exact (ih (.move reachable (.step ran))).trans first

end Machine

end MessageMachine
