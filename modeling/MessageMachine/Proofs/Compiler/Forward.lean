/-
# Compiled code only goes forward

A frame of compiled code gets past every instruction that it executes and never comes
back to it. This is so at its next instruction, since every jump leads forward, and it
remains so whatever runs in the meantime: methods that it calls, calls inside those that
primitives ask for, and calls that are given up. Only the frame's own code could take it
back, and that does not. It may be given up, but then it is taken down.
-/

import MessageMachine.Proofs.Compiler.Conduct
import MessageMachine.Proofs.Machine.Shift

namespace MessageMachine

/-- What was decoded lies within the code, and its operation takes one byte at least. -/
theorem bounds_of_decode {code : Code} {ip : Int} {i : Instruction}
    (decoded : Instruction.decode code ip = .ok i) :
    0 ≤ ip ∧ ip < code.size ∧ ip < i.next := by
  match ip with
  | .negSucc n =>
    unfold Instruction.decode at decoded
    cases decoded
  | .ofNat start =>
    obtain ⟨-, inside, onward⟩ := StackDepth.span_of_decode decoded
    exact ⟨Int.natCast_nonneg start, Int.ofNat_lt.2 inside, Int.ofNat_lt.2 onward⟩

namespace Machine

variable {library : List Function} {a b : Activity} {m k : Machine}

/-! ## Runs above a height -/

/-- A machine gets from one state to another, and has more frames than `height` in every
state that it leaves. -/
inductive LeadsAbove (height : Nat) (a : Activity) (m : Machine) : Activity → Machine → Prop
  | refl : LeadsAbove height a m a m
  | tail {b c : Activity} {k l : Machine} :
      LeadsAbove height a m b k → height < k.frames.toList.length → step b k = .running c l →
      LeadsAbove height a m c l

theorem LeadsAbove.head {height : Nat} {c : Activity} {l : Machine}
    (long : height < m.frames.toList.length) (ran : step a m = .running b k)
    (leads : LeadsAbove height b k c l) : LeadsAbove height a m c l := by
  induction leads with
  | refl => exact .tail .refl long ran
  | tail _ longer more ih => exact .tail ih longer more

theorem LeadsAbove.moves {height : Nat} (leads : LeadsAbove height a m b k) :
    MovesWhile (fun _ s => height < s.frames.toList.length) a m b k := by
  induction leads with
  | refl => exact .refl
  | tail _ long ran ih => exact .tail ih long (.step ran)

theorem LeadsAbove.leads {height : Nat} (leads : LeadsAbove height a m b k) : Leads a m b k := by
  induction leads with
  | refl => exact .refl _ _
  | tail _ _ ran ih => exact ih.trans (.step ran)

/-! ## Frames past a place -/

/-- The frame above `outer` has gone on past a place. Or its code has just been given up,
and then it is about to be taken down. -/
inductive Past (ip : Int) (outer : List Frame) (a : Activity) (m : Machine) : Prop
  | onward (inner : List Frame) {g : Frame} :
      m.frames.toList = inner ++ g :: outer → ip < g.ip → Past ip outer a m
  | givenUp {g : Frame} {why : Abort} :
      m.frames.toList = g :: outer → a = .abandon why → Nested (outer.length + 1) m.entries →
      Past ip outer a m

variable {f g : Frame} {outer : List Frame} {ip : Int}

theorem Past.mono {ip' : Int} (past : Past ip outer a m) (le : ip' ≤ ip) : Past ip' outer a m := by
  cases past with
  | onward inner frames later => exact .onward inner frames (Int.lt_of_le_of_lt le later)
  | givenUp frames abandons nested => exact .givenUp frames abandons nested

/-- The frame that executes an instruction gets past it. -/
theorem past_of_fetch (reachable : Reachable .fetch m) (conducted : Conducted library .fetch m)
    (frames : m.frames.toList = f :: outer) (ran : step .fetch m = .running b k)
    (long : outer.length < k.frames.toList.length) : Past f.ip outer b k := by
  have sound := sound_of_reachable reachable
  cases transition_of_step sound ran with
  | advance top decoded flows covered leaves st =>
    cases frames.symm.trans top
    have course := conducted.onCourse.executing rfl f outer frames
    have next := (course.advance decoded flows covered leaves).1
    exact .onward [] st.frames (Int.lt_of_lt_of_le (bounds_of_decode decoded).2.2 next)
  | produce top decoded _ _ _ _ pushed =>
    cases frames.symm.trans top
    exact .onward [] pushed.frames (bounds_of_decode decoded).2.2
  | await top decoded _ _ _ _ _ st =>
    cases frames.symm.trans top
    exact .onward [] st.frames (bounds_of_decode decoded).2.2
  | call top decoded _ _ _ _ _ frames' =>
    cases frames.symm.trans top
    exact .onward [_] frames' (bounds_of_decode decoded).2.2
  | handOut top _ _ _ _ frames' =>
    cases frames.symm.trans top
    rw [frames'] at long
    exact absurd long (Nat.lt_irrefl _)
  | giveBack top _ _ _ _ pushed =>
    cases frames.symm.trans top
    rw [pushed.frames] at long
    exact absurd long (Nat.lt_irrefl _)
  | mishap top _ _ _ st =>
    cases frames.symm.trans top
    have nested := sound.nested_fetch
    rw [frames, List.length_cons, ← st.entries] at nested
    exact .givenUp st.frames rfl nested

/-- Frames that are taken off do not matter to one that is left. -/
theorem past_of_drop {inner : List Frame} (frames : m.frames.toList = inner ++ g :: outer)
    (later : ip < g.ip) (count : Nat) (frames' : k.frames.toList = m.frames.toList.drop count)
    (long : outer.length < k.frames.toList.length) : Past ip outer b k := by
  have few : count ≤ inner.length := by
    rw [frames', frames, List.length_drop, List.length_append, List.length_cons] at long
    omega
  rw [frames, List.drop_append_of_le_length few] at frames'
  exact .onward (inner.drop count) frames' later

/-- What happens to the innermost frame does not matter to one below it. -/
theorem past_of_top {inner : List Frame} {f' : Frame} {below : List Frame} (entered : List Frame)
    (frames : m.frames.toList = f :: inner ++ g :: outer) (later : ip < g.ip)
    (top : m.frames.toList = f' :: below) {f'' : Frame}
    (frames' : k.frames.toList = entered ++ f'' :: below) : Past ip outer b k := by
  rw [frames, List.cons_append] at top
  obtain ⟨-, rfl⟩ := List.cons.inj top
  refine .onward (entered ++ f'' :: inner) ?_ later
  rw [frames', List.append_assoc, List.cons_append]

/-- A frame does not change while another one executes, but for the result of a call. -/
theorem past_of_fetch_inside {inner : List Frame} (sound : Sound .fetch m)
    (frames : m.frames.toList = f :: inner ++ g :: outer) (later : ip < g.ip)
    (ran : step .fetch m = .running b k) : Past ip outer b k := by
  cases transition_of_step sound ran with
  | advance top _ _ _ _ st => exact past_of_top [] frames later top st.frames
  | produce top _ _ _ _ _ pushed => exact past_of_top [] frames later top pushed.frames
  | await top _ _ _ _ _ _ st => exact past_of_top [] frames later top st.frames
  | call top _ _ _ _ _ _ frames' => exact past_of_top [_] frames later top frames'
  | handOut top _ _ _ _ frames' =>
    cases frames.symm.trans top
    exact .onward inner frames' later
  | mishap top _ _ _ st => exact past_of_top [] frames later top st.frames
  | giveBack top _ _ _ _ pushed =>
    cases inner with
    | nil =>
      cases frames.symm.trans top
      exact .onward [] pushed.frames later
    | cons caller inner =>
      cases frames.symm.trans top
      exact .onward (_ :: inner) pushed.frames later

/-- A frame that has gone on past a place does not come back to it. -/
theorem Past.step (reachable : Reachable a m) (conducted : Conducted library a m)
    (past : Past ip outer a m) (ran : Machine.step a m = .running b k)
    (long : outer.length < k.frames.toList.length) : Past ip outer b k := by
  have sound := sound_of_reachable reachable
  have transition := transition_of_step sound ran
  cases past with
  | @givenUp g why frames abandons nested =>
    subst abandons
    cases transition with
    | @unwind _ _ _ base entries open_ frames' =>
      -- The entry was opened below the frame, so the frame is taken down with it.
      rcases open_ with top | ⟨none_, -⟩
      · rw [top] at nested
        have below : base < outer.length + 1 := nested.1
        rw [frames', frames, List.length_drop, List.length_cons] at long
        omega
      · exact absurd (nested.eq_nil_iff.1 none_) (Nat.succ_ne_zero _)
  | @onward inner g frames later =>
    cases a with
    | fetch =>
      cases inner with
      | nil => exact (past_of_fetch reachable conducted frames ran long).mono (Int.le_of_lt later)
      | cons f inner => exact past_of_fetch_inside sound frames later ran
    | reply v =>
      cases transition with
      | receive top pushed =>
        cases inner with
        | nil =>
          cases frames.symm.trans top
          exact .onward [] pushed.frames later
        | cons f inner => exact past_of_top [] frames later top pushed.frames
    | request r =>
      cases transition with
      | respond u =>
        rw [← u.frames] at frames
        exact .onward inner frames later
      | refuse same =>
        rw [← same] at frames
        exact .onward inner frames later
      | begin _ _ frames' =>
        rw [frames] at frames'
        exact .onward (_ :: inner) frames' later
    | abandon why =>
      cases transition with
      | unwind _ frames' => exact past_of_drop frames later _ frames' long
    | fault failure =>
      cases transition with
      | propagate _ frames' => exact past_of_drop frames later _ frames' long

/-! ## Instructions are executed once -/

theorem Past.leadsAbove (reachable : Reachable a m) (conducted : Conducted library a m)
    (past : outer.length < m.frames.toList.length → Past ip outer a m)
    (leads : LeadsAbove outer.length a m b k) (long : outer.length < k.frames.toList.length) :
    Past ip outer b k := by
  induction leads with
  | refl => exact past long
  | tail before longer ran ih =>
    have there := before.moves.reachable reachable
    exact (ih longer).step there (conducted.leads reachable before.leads) ran long

/-- A frame executes each instruction once at most. When it comes to execute another one,
that is further on in the code, whatever has run in the meantime. -/
theorem ip_lt_of_leadsAbove {l : Machine} {outer' : List Frame} (reachable : Reachable .fetch m)
    (conducted : Conducted library .fetch m) (frames : m.frames.toList = f :: outer)
    (ran : step .fetch m = .running b k) (leads : LeadsAbove outer.length b k .fetch l)
    (frames' : l.frames.toList = g :: outer') (height : outer'.length = outer.length) :
    g.SameActivation f ∧ f.ip < g.ip := by
  have first : outer.length < m.frames.toList.length := by
    rw [frames]
    exact Nat.lt_succ_self _
  have last : outer.length < l.frames.toList.length := by
    rw [frames', List.length_cons, height]
    exact Nat.lt_succ_self _
  have alone : ∀ {inner : List Frame} {h : Frame}, l.frames.toList = inner ++ h :: outer →
      h = g := by
    intro inner h lives
    have whole : [] ++ g :: outer' = inner ++ h :: outer := frames'.symm.trans lives
    have tails := (List.append_inj' whole (congrArg Nat.succ height)).2
    exact (List.cons.inj tails).1.symm
  have past : Past f.ip outer .fetch l :=
    .leadsAbove (.move reachable (.step ran)) (conducted.step reachable ran)
      (past_of_fetch reachable conducted frames ran) leads last
  have begins : m.frames.toList = [] ++ f :: outer := frames
  obtain ⟨-, inner, h, lives, same, -⟩ :=
    (LeadsAbove.head first ran leads).moves.lives (sound_of_reachable reachable) begins last
  cases past with
  | onward inner' frames'' later =>
    cases alone lives
    cases alone frames''
    exact ⟨same, later⟩
  | givenUp _ abandons => cases abandons

end Machine

end MessageMachine
