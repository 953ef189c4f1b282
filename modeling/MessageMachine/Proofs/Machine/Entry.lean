/-
# Every entry restores the machine

A request may be made of an idle machine or by a primitive in the middle of an
execution, and it may end in four ways. It is answered, it cannot be served, it is
given up, or the host fails. Whatever happens in between, the frames that were
active are afterwards what they were before, with the same values in their slots, and
none of them has executed an instruction.

`Serving` is everything that happens for the sake of one request. It stops where
whoever made the request has its answer or failure and goes on by itself. A primitive
that the request has called directly is part of it, so a host may act even where
there is an answer already, as long as it does not give up what the request was made
in.

The invariant is `Intact`. The entries that a request opens lie over those that were
open before, the outermost of them begins exactly over the frames that were active,
and so giving them up cannot reach further.
-/

import MessageMachine.Proofs.Machine.Representation

namespace MessageMachine.Machine

/-! ## Serving a request -/

/-- Whoever has made a request of `m` has its answer, or the failure has come back. -/
def Returned (m : Machine) (a : Activity) (k : Machine) : Prop :=
  a.HostMayAct ∧ k.entries.length ≤ m.entries.length

/-- What happens for the sake of a request made of `m`. -/
inductive Serving (m : Machine) (r : Request) : Activity → Machine → Prop
  | start : Serving m r (.request r) m
  | move {a a' : Activity} {k k' : Machine} :
      Serving m r a k → ¬ Returned m a k → Move a k a' k' → Serving m r a' k'
  | linger {a a' : Activity} {k n k' : Machine} :
      Serving m r a k → Returned m a k → HostChange k n → HostTurn n a' k' → Serving m r a' k'

theorem Serving.reachable {m : Machine} {r : Request} {a : Activity} {k : Machine}
    (serving : Serving m r a k) (reachable : Reachable (.request r) m) : Reachable a k := by
  induction serving with
  | start => exact reachable
  | move _ _ move ih => exact .move ih move
  | linger _ returned change turn ih => exact .move ih (.host returned.1 change turn)

/-! ## What stays intact -/

/-- The frames and slots of `m` are intact in `k`, below frames and entries of the
request alone. -/
structure Intact (m : Machine) (a : Activity) (k : Machine) (inner : List Frame)
    (added : List Nat) : Prop where
  frames : k.frames.toList = inner ++ m.frames.toList
  slots : ∀ slot < m.stackTop, k.slot? slot = m.slot? slot
  entries : k.entries = added ++ m.entries
  /-- Entries of the request begin over the frames that were active, -/
  above : ∀ base ∈ added, m.frames.toList.length ≤ base
  /-- the outermost of them exactly, -/
  outermost : ∀ base, added.getLast? = some base → base = m.frames.toList.length
  /-- and outside all of them there is no frame of the request. -/
  bare : added = [] → inner = []
  /-- Only code that runs in an entry of the request executes or is given up. -/
  inside : a = .fetch ∨ (∃ why, a = .abandon why) → added ≠ []

variable {m k k' : Machine} {a a' : Activity} {inner inner' : List Frame} {added : List Nat}

theorem Intact.start (m : Machine) (r : Request) : Intact m (.request r) m [] [] where
  frames := rfl
  slots := fun _ _ => rfl
  entries := rfl
  above := by simp
  outermost := by simp
  bare := fun _ => rfl
  inside := by simp

/-- Frames of the request lie on top of the frames that were active. -/
theorem Intact.stackTop_le (intact : Intact m a k inner added) (sound : Sound a k) :
    m.stackTop ≤ k.stackTop := by
  have windows := sound.windows
  rw [intact.frames] at windows
  rw [stackTop_eq, stackTop_eq, intact.frames]
  exact windows.topOf_append_le

/-- Code of the request executes in a frame of the request, and a frame of the
request waits for what has not returned from it. -/
theorem Intact.inner_ne_nil (intact : Intact m a k inner added)
    (nested : Nested k.frames.toList.length k.entries) (some_ : added ≠ []) : inner ≠ [] := by
  rintro rfl
  obtain ⟨base, rest, rfl⟩ := List.exists_cons_of_ne_nil some_
  rw [intact.frames, intact.entries] at nested
  have lt : base < m.frames.toList.length := nested.1
  have le := intact.above base (List.mem_cons_self ..)
  omega

/-- What has not returned has an entry of the request open. -/
theorem Intact.added_ne_nil (intact : Intact m a k inner added) (going : ¬ Returned m a k)
    (control : a.HostMayAct) : added ≠ [] := by
  rintro rfl
  apply going
  have same : k.entries = m.entries := intact.entries
  exact ⟨control, Nat.le_of_eq (congrArg List.length same)⟩

/-- The frames of the request change, and its entries do not. -/
theorem Intact.change (intact : Intact m a k inner added)
    (frames : k'.frames.toList = inner' ++ m.frames.toList)
    (slots : ∀ slot < m.stackTop, k'.slot? slot = k.slot? slot)
    (entries : k'.entries = k.entries) (some_ : added ≠ []) : Intact m a' k' inner' added where
  frames := frames
  slots := fun slot lt => (slots slot lt).trans (intact.slots slot lt)
  entries := entries.trans intact.entries
  above := intact.above
  outermost := intact.outermost
  bare := fun none_ => absurd none_ some_
  inside := fun _ => some_

/-- Nothing of the machine's control changes. -/
theorem Intact.same (intact : Intact m a k inner added) (frames : k'.frames = k.frames)
    (slots : ∀ slot < m.stackTop, k'.slot? slot = k.slot? slot)
    (entries : k'.entries = k.entries) (waits : a' = .fetch ∨ (∃ why, a' = .abandon why) →
      added ≠ []) : Intact m a' k' inner added where
  frames := by rw [frames, intact.frames]
  slots := fun slot lt => (slots slot lt).trans (intact.slots slot lt)
  entries := entries.trans intact.entries
  above := intact.above
  outermost := intact.outermost
  bare := intact.bare
  inside := waits

/-- An entry is opened over all frames. -/
theorem Intact.opened (intact : Intact m a k inner added) {entered : List Frame}
    (frames : k'.frames.toList = entered ++ k.frames.toList)
    (slots : ∀ slot < m.stackTop, k'.slot? slot = k.slot? slot)
    (entries : k'.entries = k.frames.toList.length :: k.entries) :
    Intact m a' k' (entered ++ inner) (k.frames.toList.length :: added) where
  frames := by rw [frames, intact.frames, List.append_assoc]
  slots := fun slot lt => (slots slot lt).trans (intact.slots slot lt)
  entries := by rw [entries, intact.entries]; rfl
  above := by
    intro base member
    rcases List.mem_cons.1 member with rfl | later
    · rw [intact.frames, List.length_append]
      exact Nat.le_add_left _ _
    · exact intact.above base later
  outermost := by
    intro base last
    cases added with
    | nil =>
      have eq : k.frames.toList.length = base := Option.some.inj last
      rw [← eq, intact.frames, intact.bare rfl]
      rfl
    | cons next rest =>
      rw [List.getLast?_cons_cons] at last
      exact intact.outermost base last
  bare := fun none_ => by cases none_
  inside := fun _ => List.cons_ne_nil _ _

/-- The innermost entry of the request is closed and its frames are taken off. -/
theorem Intact.closed {base : Nat} {entries : List Nat} (intact : Intact m a k inner added)
    (sound : Sound a k) (some_ : added ≠ []) (open_ : k.entries = base :: entries)
    (low : base ≤ k.frames.toList.length)
    (frames : k'.frames.toList = k.frames.toList.drop (k.frames.toList.length - base))
    (kept : ∀ slot < k'.stackTop, k'.slot? slot = k.slot? slot)
    (entries' : k'.entries = entries) (waits : ¬ (a' = .fetch ∨ ∃ why, a' = .abandon why)) :
    ∃ inner' added', Intact m a' k' inner' added' := by
  obtain ⟨first, rest, rfl⟩ := List.exists_cons_of_ne_nil some_
  rw [intact.entries] at open_
  obtain ⟨rfl, rfl⟩ := List.cons.inj open_
  have above := intact.above first (List.mem_cons_self ..)
  have size : k.frames.toList.length = inner.length + m.frames.toList.length := by
    rw [intact.frames, List.length_append]
  have few : k.frames.toList.length - first ≤ inner.length := by omega
  have frames' : k'.frames.toList =
      inner.drop (k.frames.toList.length - first) ++ m.frames.toList := by
    rw [frames, ← List.drop_append_of_le_length few, ← intact.frames]
  have below : m.stackTop ≤ k'.stackTop := by
    have windows := sound.windows.drop (k.frames.toList.length - first)
    rw [← frames, frames'] at windows
    rw [stackTop_eq, stackTop_eq, frames']
    exact windows.topOf_append_le
  have slots : ∀ slot < m.stackTop, k'.slot? slot = m.slot? slot := by
    intro slot lt
    rw [kept slot (Nat.lt_of_lt_of_le lt below), intact.slots slot lt]
  refine ⟨inner.drop (k.frames.toList.length - first), rest, frames', slots, entries', ?_, ?_, ?_,
    ?_⟩
  · exact fun base member => intact.above base (List.mem_cons_of_mem _ member)
  · intro base last
    cases rest with
    | nil => cases last
    | cons next others =>
      exact intact.outermost base (by rw [List.getLast?_cons_cons]; exact last)
  · rintro rfl
    have exact_ := intact.outermost first rfl
    rw [List.drop_eq_nil_iff]
    omega
  · exact fun runs => absurd runs waits

/-! ## Moves -/

/-- The innermost frame, when it is one of the request's. -/
theorem Intact.innermost (intact : Intact m a k inner added) (some_ : inner ≠ []) {f : Frame}
    {outer : List Frame} (frames : k.frames.toList = f :: outer) :
    ∃ rest, inner = f :: rest ∧ outer = rest ++ m.frames.toList := by
  obtain ⟨first, rest, rfl⟩ := List.exists_cons_of_ne_nil some_
  rw [intact.frames] at frames
  obtain ⟨rfl, rfl⟩ := List.cons.inj frames
  exact ⟨rest, rfl, rfl⟩

/-- A frame of the request begins above everything that was live. -/
theorem Intact.stackTop_le_stackBase (intact : Intact m a k inner added) (sound : Sound a k)
    {f : Frame} {rest : List Frame} (innermost : inner = f :: rest) :
    m.stackTop ≤ f.stackBase := by
  have windows := sound.windows
  rw [intact.frames, innermost] at windows
  have below : m.stackTop ≤ topOf (rest ++ m.frames.toList) := by
    rw [stackTop_eq]
    exact windows.below.topOf_append_le
  have from_ : f.argBase = topOf (rest ++ m.frames.toList) := windows.fits.argBase_eq
  have first := windows.fits.stackBase_eq
  omega

/-- The innermost frame of the request goes on, and may call another. -/
theorem Intact.onward (intact : Intact m a k inner added) (sound : Sound a k)
    (some_ : added ≠ []) (nested : Nested k.frames.toList.length k.entries) {f g : Frame}
    {outer : List Frame} (frames : k.frames.toList = f :: outer) (entered : List Frame)
    (frames' : k'.frames.toList = entered ++ g :: outer)
    (kept : ∀ slot < f.stackBase, k'.slot? slot = k.slot? slot) (entries : k'.entries = k.entries) :
    ∃ inner' added', Intact m a' k' inner' added' := by
  obtain ⟨rest, innermost, rfl⟩ := intact.innermost (intact.inner_ne_nil nested some_) frames
  have base := intact.stackTop_le_stackBase sound innermost
  refine ⟨entered ++ g :: rest, added, intact.change ?_ ?_ entries some_⟩
  · rw [frames', List.append_assoc]
    rfl
  · exact fun slot lt => kept slot (Nat.lt_of_lt_of_le lt base)

/-- What a transition does for the sake of a request leaves everything else intact. -/
theorem intact_of_transition (intact : Intact m a k inner added) (sound : Sound a k)
    (going : ¬ Returned m a k) (transition : Transition a k a' k') :
    ∃ inner' added', Intact m a' k' inner' added' := by
  have windows := sound.windows
  cases transition with
  | @advance _ _ f outer i ip frames decoded flows covered leaves st =>
    rw [frames] at windows
    have depth := windows.fits.sp_eq
    apply intact.onward sound (intact.inside (.inl rfl)) sound.nested_fetch frames [] st.frames
    · exact fun slot lt => st.kept slot (show slot < f.sp - i.operation.pops by omega)
    · exact st.entries
  | @produce _ _ f outer i v frames decoded flows covered leaves room pushed =>
    rw [frames] at windows
    have depth := windows.fits.sp_eq
    apply intact.onward sound (intact.inside (.inl rfl)) sound.nested_fetch frames [] pushed.frames
    · exact fun slot lt => pushed.kept slot (show slot < f.sp - i.operation.pops by omega)
    · exact pushed.entries
  | @await _ _ f outer i n _ frames decoded calls positive covered not_fetch overflow st =>
    rw [frames] at windows
    have depth := windows.fits.sp_eq
    apply intact.onward sound (intact.inside (.inl rfl)) sound.nested_fetch frames [] st.frames
    · exact fun slot lt => st.kept slot (show slot < f.sp - (n + 1) by omega)
    · exact st.entries
  | @call _ _ f outer i n r frames decoded calls positive covered arity room frames' kept entries =>
    rw [frames] at windows
    have depth := windows.fits.sp_eq
    apply intact.onward sound (intact.inside (.inl rfl)) sound.nested_fetch frames [_] frames'
    · exact fun slot lt => kept slot (by omega)
    · exact entries
  | @handOut _ _ f outer i v entries frames decoded leaves covered open_ frames' kept entries' =>
    have some_ := intact.inside (.inl rfl)
    have height : k.frames.toList.length - outer.length = 1 := by
      rw [frames, List.length_cons]
      omega
    apply intact.closed sound some_ open_
    · rw [frames]
      exact Nat.le_succ _
    · rw [height, frames', frames]
      rfl
    · intro slot lt
      rw [frames] at windows
      have from_ : f.argBase = topOf outer := windows.fits.argBase_eq
      rw [stackTop_eq, frames'] at lt
      exact kept slot (from_ ▸ lt)
    · exact entries'
    · simp
  | @giveBack _ _ f g outer i v frames decoded leaves covered nested pushed =>
    have some_ := intact.inside (.inl rfl)
    obtain ⟨rest, innermost, below⟩ :=
      intact.innermost (intact.inner_ne_nil sound.nested_fetch some_) frames
    -- The entries are nested in the frames that remain, so the caller is the request's too.
    have whole : ∃ others, rest = g :: others ∧ outer = others ++ m.frames.toList := by
      cases rest with
      | nil =>
        obtain ⟨base, others, rfl⟩ := List.exists_cons_of_ne_nil some_
        rw [intact.entries] at nested
        have lt : base < outer.length + 1 := nested.1
        have le := intact.above base (List.mem_cons_self ..)
        have size := congrArg List.length below
        simp only [List.length_cons, List.nil_append] at size
        omega
      | cons next others =>
        obtain ⟨rfl, rfl⟩ := List.cons.inj below
        exact ⟨others, rfl, rfl⟩
    obtain ⟨others, rfl, rfl⟩ := whole
    rw [frames] at windows
    have top : m.stackTop ≤ topOf ((g :: others) ++ m.frames.toList) := by
      rw [stackTop_eq]
      exact windows.below.topOf_append_le
    refine ⟨{ g with sp := g.sp + 1 } :: others, added, intact.change ?_ ?_ pushed.entries some_⟩
    · exact pushed.frames
    · exact fun slot lt => pushed.kept slot (Nat.lt_of_lt_of_le lt top)
  | @mishap _ _ f outer ip sp why frames mishap base le st =>
    apply intact.onward sound (intact.inside (.inl rfl)) sound.nested_fetch frames [] st.frames
    · exact fun slot lt => st.kept slot (Nat.lt_of_lt_of_le lt base)
    · exact st.entries
  | @receive _ _ f outer v frames pushed =>
    have nested := sound.entries.nested (by simp)
    rw [frames] at windows
    apply intact.onward sound (intact.added_ne_nil going trivial) nested frames [] pushed.frames
    · exact fun slot lt => pushed.kept slot (Nat.lt_of_lt_of_le lt windows.fits.stackBase_le)
    · exact pushed.entries
  | respond u not_fetch settled =>
    refine ⟨inner, added, intact.same u.frames (fun slot _ => u.slot? slot) u.entries ?_⟩
    rintro (fetch | ⟨why, abandoned⟩)
    · exact absurd fetch not_fetch
    · exact absurd abandoned (settled why)
  | refuse frames kept entries =>
    have le := intact.stackTop_le sound
    refine ⟨[] ++ inner, _, intact.opened ?_ (fun slot lt => kept slot (by omega)) entries⟩
    rw [frames]
    rfl
  | begin arity room frames' kept written entries =>
    have le := intact.stackTop_le sound
    exact ⟨[_] ++ inner, _, intact.opened frames' (fun slot lt => kept slot (by omega)) entries⟩
  | @unwind _ _ why base entries open_ frames' kept entries' =>
    have some_ := intact.inside (.inr ⟨why, rfl⟩)
    obtain ⟨low, -, -⟩ := sound.unwinds open_
    have open' : k.entries = base :: entries := by
      rcases open_ with open_ | ⟨none_, -⟩
      · exact open_
      · rw [intact.entries] at none_
        exact absurd (List.append_eq_nil_iff.1 none_).1 some_
    exact intact.closed sound some_ open' low frames' kept entries' (by simp)
  | @propagate _ _ f base entries open_ frames' kept entries' =>
    have nested := sound.entries.nested (by simp)
    rw [open_] at nested
    have some_ := intact.added_ne_nil going trivial
    exact intact.closed sound some_ open_ (Nat.le_of_lt nested.1) frames' kept entries' (by simp)

/-- What a host changes while it has control is nothing that has to stay intact. -/
theorem Intact.hostChange {n : Machine} (intact : Intact m a k inner added)
    (change : HostChange k n) (not_inside : ¬ (a' = .fetch ∨ ∃ why, a' = .abandon why)) :
    Intact m a' n inner added := by
  apply intact.same change.frames _ change.entries fun runs => absurd runs not_inside
  intro slot _
  rw [slot?, slot?, change.segment]

theorem intact_of_hostTurn {n : Machine} (intact : Intact m a k inner added)
    (change : HostChange k n) (turn : HostTurn n a' k') :
    ∃ inner' added', Intact m a' k' inner' added' := by
  cases turn with
  | answer v => exact ⟨inner, added, intact.hostChange change (by simp)⟩
  | enter r => exact ⟨inner, added, intact.hostChange change (by simp)⟩
  | fail f => exact ⟨inner, added, intact.hostChange change (by simp)⟩
  | giveUpRequest why =>
    have still : Intact m (.reply .nil) n inner added := intact.hostChange change (by simp)
    refine ⟨[] ++ inner, _, still.opened rfl (fun _ _ => rfl) ?_⟩
    rw [← FrameStack.size_eq]
    rfl

/-- Whatever happens for the sake of a request, everything else stays intact. -/
theorem intact_of_serving {r : Request} (reachable : Reachable (.request r) m)
    (serving : Serving m r a k) : ∃ inner added, Intact m a k inner added := by
  induction serving with
  | start => exact ⟨[], [], .start m r⟩
  | move before going move ih =>
    obtain ⟨inner, added, intact⟩ := ih
    have sound := sound_of_reachable (before.reachable reachable)
    cases move with
    | step ran => exact intact_of_transition intact sound going (transition_of_step sound ran)
    | host _ change turn => exact intact_of_hostTurn intact change turn
    | giveUp why control change _ =>
      have still : Intact m (.reply .nil) _ inner added := intact.hostChange change (by simp)
      have some_ := intact.added_ne_nil going control
      exact ⟨inner, added, still.same rfl (fun _ _ => rfl) rfl fun _ => some_⟩
  | linger before returned change turn ih =>
    obtain ⟨inner, added, intact⟩ := ih
    exact intact_of_hostTurn intact change turn

/-! ## How requests end -/

/-- A number of steps. -/
inductive StepsIn : Nat → Activity → Machine → Activity → Machine → Prop
  | zero {a : Activity} {m : Machine} : StepsIn 0 a m a m
  | succ {n : Nat} {a b c : Activity} {m k l : Machine} :
      step a m = .running b k → StepsIn n b k c l → StepsIn (n + 1) a m c l

/-- Only giving an execution up is reported as such. -/
theorem reports_of_step (sound : Sound a k) (going : ∀ why, a ≠ .abandon why)
    (ran : step a k = .running a' k') : Reports k k' := by
  cases transition_of_step sound ran with
  | advance _ _ _ _ _ st => exact st.reports
  | produce _ _ _ _ _ _ pushed => exact pushed.reports
  | await _ _ _ _ _ _ _ st => exact st.reports
  | call _ _ _ _ _ _ _ _ _ _ _ _ reports => exact reports
  | handOut _ _ _ _ _ _ _ _ _ _ reports => exact reports
  | giveBack _ _ _ _ _ pushed => exact pushed.reports
  | mishap _ _ _ _ st => exact st.reports
  | receive _ pushed => exact pushed.reports
  | respond u => exact u.reports
  | refuse _ _ _ _ _ _ _ reports => exact reports
  | begin _ _ _ _ _ _ _ _ reports => exact reports
  | unwind => exact absurd rfl (going _)
  | propagate _ _ _ _ _ _ log => exact .of_eq log

/-- A failure of the host comes back to whoever made the request, entry by entry,
and is not reported. -/
theorem failure_returns {f : HostFault} (count : Nat) (sound : Sound (.fault f) k)
    (intact : Intact m (.fault f) k inner added) (size : added.length = count) :
    ∃ k', StepsIn count (.fault f) k (.fault f) k' ∧ Returned m (.fault f) k' ∧ k'.log = k.log := by
  induction count generalizing k inner added with
  | zero =>
    have same : k.entries.length = m.entries.length := by
      rw [intact.entries, List.length_append, size, Nat.zero_add]
    exact ⟨k, .zero, ⟨trivial, Nat.le_of_eq same⟩, rfl⟩
  | succ count ih =>
    obtain ⟨base, rest, rfl⟩ := List.exists_cons_of_length_eq_add_one size
    have open_ : k.entries = base :: (rest ++ m.entries) := intact.entries
    obtain ⟨k', ran⟩ : ∃ k', step (.fault f) k = .running (.fault f) k' := by
      simp only [step, open_]
      exact ⟨_, rfl⟩
    have transition := transition_of_step sound ran
    have sound' := sound_of_transition sound transition
    cases transition with
    | @propagate _ _ _ base' entries open' frames kept entries' settings methods log =>
      have nested := sound.entries.nested (by simp)
      rw [open'] at nested
      obtain ⟨inner', added', intact'⟩ : ∃ inner' added',
          Intact m (.fault f) k' inner' added' :=
        intact.closed sound (by simp) open' (Nat.le_of_lt nested.1) frames kept entries' (by simp)
      have fewer : added'.length = count := by
        have shorter := open'.symm.trans open_
        obtain ⟨-, rfl⟩ := List.cons.inj shorter
        have same := congrArg List.length (intact'.entries.symm.trans entries')
        simp only [List.length_append, List.length_cons] at same size
        omega
      obtain ⟨k'', steps, returned, log'⟩ := ih sound' intact' fewer
      exact ⟨k'', .succ ran steps, returned, log'.trans log⟩

/-- What a request of `m` does to it, seen while it is served in `k`. -/
structure Contained (m : Machine) (a : Activity) (k : Machine) : Prop where
  /-- Frames that were active lie below those of the request and do not execute. -/
  suspended : ∃ inner, k.frames.toList = inner ++ m.frames.toList ∧ (a = .fetch → inner ≠ [])
  /-- Arguments and live operands of those frames are as they were. -/
  slots : ∀ slot < m.stackTop, k.slot? slot = m.slot? slot
  /-- However the request ends, the frames that were active are the frames again. -/
  restored : Returned m a k → k.frames = m.frames ∧ k.entries = m.entries
  /-- An execution that is given up makes its entry, which is one of the request's,
  answer nil, and is reported once. -/
  abandoned : ∀ why, a = .abandon why → ∃ base entries k',
    k.entries = base :: entries ∧ m.entries.length ≤ entries.length ∧
      step a k = .running (.reply .nil) k' ∧ k'.entries = entries ∧
      k'.frames.toList.length = base ∧
      ∃ location, k'.log = k.log.push
        ⟨why.kind, s!"Execution abandoned: {why.message}", location⟩
  /-- No other step reports anything of the kind. -/
  reported : ∀ a' k', (∀ why, a ≠ .abandon why) → step a k = .running a' k' → Reports k k'
  /-- A failure of the host comes back without a report. -/
  failed : ∀ f, a = .fault f →
    ∃ n k', StepsIn n (.fault f) k (.fault f) k' ∧ Returned m (.fault f) k' ∧ k'.log = k.log

/-- Every request restores the machine that it was made of, whatever code it runs,
whatever hosts do in between, and however it ends. -/
theorem contained_of_serving {r : Request} (reachable : Reachable (.request r) m)
    (serving : Serving m r a k) : Contained m a k := by
  obtain ⟨inner, added, intact⟩ := intact_of_serving reachable serving
  have sound := sound_of_reachable (serving.reachable reachable)
  refine ⟨⟨inner, intact.frames, ?_⟩, intact.slots, ?_, ?_, ?_, ?_⟩
  · rintro rfl
    exact intact.inner_ne_nil sound.nested_fetch (intact.inside (.inl rfl))
  · intro returned
    have none_ : added = [] := by
      have few := returned.2
      rw [intact.entries, List.length_append] at few
      exact List.length_eq_zero_iff.1 (by omega)
    refine ⟨FrameStack.ext ?_, ?_⟩
    · rw [intact.frames, intact.bare none_, List.nil_append]
    · rw [intact.entries, none_, List.nil_append]
  · rintro why rfl
    obtain ⟨base, rest, rfl⟩ := List.exists_cons_of_ne_nil (intact.inside (.inr ⟨why, rfl⟩))
    have open_ : k.entries = base :: (rest ++ m.entries) := intact.entries
    obtain ⟨k', ran⟩ : ∃ k', step (.abandon why) k = .running (.reply .nil) k' := by
      simp only [step, abandonEntry, open_]
      exact ⟨_, rfl⟩
    have more : m.entries.length ≤ (rest ++ m.entries).length := by
      rw [List.length_append]
      exact Nat.le_add_left _ _
    cases transition_of_step sound ran with
    | @unwind _ _ _ base' entries open' frames kept entries' settings methods log =>
      obtain ⟨low, -, -⟩ := sound.unwinds open'
      rcases open' with open' | ⟨none_, -⟩
      · obtain ⟨rfl, rfl⟩ := List.cons.inj (open'.symm.trans open_)
        refine ⟨base', _, k', open_, more, ran, entries', ?_, log⟩
        rw [frames, List.length_drop]
        omega
      · rw [open_] at none_
        cases none_
  · exact fun a' k' going ran => reports_of_step sound going ran
  · rintro f rfl
    obtain ⟨k', steps, returned, log⟩ := failure_returns _ sound intact rfl
    exact ⟨_, k', steps, returned, log⟩

/-- The standard classes with a behaviour of the host that runs programs, a program that has it
run another one, and that other one, which has no code at all. -/
def nestingHeap : Heap :=
  let (h, image) := Image.create .empty none false
  let h := Image.installPrimitive h (image.classOf h (.integer 7)) ⟨"run", none, .host .execute⟩
  { h with
    methods := #[
      ⟨"outer", 0, #[1, 0, 1, 1, 1, 2, 3, 2, 4],
        #[.integer 7, .callable (.method ⟨1⟩), .symbol "run"], 3, none⟩,
      ⟨"inner", 0, #[], #[], 0, none⟩] }

/-- The outer program has been entered, -/
def nestingOuter : Machine :=
  ((idle nestingHeap (Image.create .empty none false).2 .standard).enter (.execute ⟨0⟩)).2

/-- and has pushed its operands and called the behaviour, which asks for the inner program. -/
def nestingCall : Machine :=
  nestingOuter.executeNext.2.executeNext.2.executeNext.2.executeNext.2

theorem reachable_executeNext (reachable : Reachable .fetch m) (next : m.executeNext.1 = a) :
    Reachable a m.executeNext.2 :=
  next ▸ .move reachable (.step rfl)

theorem reachable_nestingCall : Reachable (.request (.execute ⟨1⟩)) nestingCall := by
  have outer : Reachable .fetch nestingOuter :=
    .move (.start nestingHeap (Image.create .empty none false).2 .standard (.execute ⟨0⟩))
      (.step rfl)
  have first := reachable_executeNext (a := .fetch) outer (by decide +kernel)
  have second := reachable_executeNext (a := .fetch) first (by decide +kernel)
  have third := reachable_executeNext (a := .fetch) second (by decide +kernel)
  exact reachable_executeNext third (by decide +kernel)

/-- A program without code that is run inside another one is given up, and the frame of the
other one is the only one again. -/
theorem contained_nestingCall : ∃ why k l, nestingCall.frames.toList.length = 1 ∧
    Serving nestingCall (.execute ⟨1⟩) (.abandon why) k ∧ k.frames.toList.length = 2 ∧
    Contained nestingCall (.abandon why) k ∧
    Serving nestingCall (.execute ⟨1⟩) (.reply .nil) l ∧ Returned nestingCall (.reply .nil) l ∧
    Contained nestingCall (.reply .nil) l := by
  have enters : (nestingCall.enter (.execute ⟨1⟩)).1 = .fetch := by decide +kernel
  have entered : Serving nestingCall (.execute ⟨1⟩) .fetch
      (nestingCall.enter (.execute ⟨1⟩)).2 :=
    enters ▸ .move .start (fun returned => returned.1.elim) (.step rfl)
  have fails : (nestingCall.enter (.execute ⟨1⟩)).2.executeNext.1 =
      .abandon (.malformed (.at .outsideCode 0)) := by decide +kernel
  have failed : Serving nestingCall (.execute ⟨1⟩) (.abandon (.malformed (.at .outsideCode 0)))
      (nestingCall.enter (.execute ⟨1⟩)).2.executeNext.2 :=
    fails ▸ .move entered (fun returned => returned.1.elim) (.step rfl)
  have contained := contained_of_serving reachable_nestingCall failed
  obtain ⟨base, entries, l, open_, more, answers, entries', -, -⟩ := contained.abandoned _ rfl
  have given : Serving nestingCall (.execute ⟨1⟩) (.reply .nil) l :=
    .move failed (fun returned => returned.1.elim) (.step answers)
  have depth : (nestingCall.enter (.execute ⟨1⟩)).2.executeNext.2.entries.length = 2 ∧
      nestingCall.entries.length = 1 := by decide +kernel
  rw [open_, List.length_cons] at depth
  refine ⟨_, _, l, by decide +kernel, failed, by decide +kernel, contained, given, ⟨trivial, ?_⟩,
    contained_of_serving reachable_nestingCall given⟩
  rw [entries']
  omega

end MessageMachine.Machine
