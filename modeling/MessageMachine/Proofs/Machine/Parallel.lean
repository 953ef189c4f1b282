/-
# Runs in step

From one step to runs. Two machines that are in step stay so until the one without
surroundings is about to give its result away, or until one of them has no room for a
call. `InStep` is how far they have got together. Where it is known that neither runs out
of room alone, they either come to the end together or go on together for as many steps as
one likes, and in that case neither run has an end.
-/

import MessageMachine.Proofs.Machine.Lockstep

namespace MessageMachine.Machine

variable {g : Footing} {a b : Activity} {c c' k k' l m : Machine} {n : Nat}

/-- Two machines have taken the same steps. -/
inductive InStep (g : Footing) (a : Activity) (c k : Machine) :
    Nat → Activity → Machine → Machine → Prop
  | start : InStep g a c k 0 a c k
  | step {n : Nat} {b b' : Activity} {c' c'' k' k'' : Machine} :
      InStep g a c k n b c' k' → ¬ g.Closing b c' → step b c' = .running b' c'' →
      step b k' = .running b' k'' → Atop g c'' k'' → InStep g a c k (n + 1) b' c'' k''

theorem InStep.alone (together : InStep g a c k n b c' k') : StepsIn n a c b c' := by
  induction together with
  | start => exact .zero
  | step _ _ ran _ _ ih => exact ih.trans (.succ ran .zero)

theorem InStep.above (together : InStep g a c k n b c' k') : StepsIn n a k b k' := by
  induction together with
  | start => exact .zero
  | step _ _ _ ran _ ih => exact ih.trans (.succ ran .zero)

theorem InStep.atop (together : InStep g a c k n b c' k') (start : Atop g c k) :
    Atop g c' k' := by
  cases together with
  | start => exact start
  | step _ _ _ _ atop => exact atop

/-- Two machines that start in step, and neither of which runs out of room alone. -/
structure Parallel (g : Footing) (a : Activity) (c k : Machine) : Prop where
  atop : Atop g c k
  reachable : Reachable a c
  standard : c.heap.Standard
  free : ∀ n b c' k' next other, InStep g a c k n b c' k' →
    step b c' = .ofActivity next → step b k' = .ofActivity other → ¬ g.Refused next.1 other.1

namespace Parallel

theorem sound_of_inStep (parallel : Parallel g a c k) (together : InStep g a c k n b c' k') :
    Sound b c' :=
  sound_of_reachable (together.alone.reachable parallel.reachable)

/-- They go on in step. -/
theorem next (parallel : Parallel g a c k) (together : InStep g a c k n b c' k')
    (going : ¬ g.Closing b c') :
    ∃ b' c'' k'', Machine.step b c' = .running b' c'' ∧ Machine.step b k' = .running b' k'' ∧
      InStep g a c k (n + 1) b' c'' k'' := by
  have standard := parallel.standard.congr together.alone.sameCode.primitives
  obtain ⟨next, other, ran, ran', both⟩ :=
    (together.atop parallel.atop).step (parallel.sound_of_inStep together) standard going
  cases both with
  | @onward b' c'' k'' atop => exact ⟨b', c'', k'', ran, ran', .step together going ran ran' atop⟩
  | refused refused => exact absurd refused (parallel.free _ _ _ _ _ _ together ran ran')

/-- They come to the end together, or they go on. -/
theorem closes_or_goes (parallel : Parallel g a c k) (count : Nat) :
    (∃ n b c' k', InStep g a c k n b c' k' ∧ g.Closing b c') ∨
      ∃ b c' k', InStep g a c k count b c' k' := by
  induction count with
  | zero => exact .inr ⟨a, c, k, .start⟩
  | succ count ih =>
    obtain closes | ⟨b, c', k', together⟩ := ih
    · exact .inl closes
    · by_cases closing : g.Closing b c'
      · exact .inl ⟨count, b, c', k', together, closing⟩
      · obtain ⟨b', c'', k'', -, -, onward⟩ := parallel.next together closing
        exact .inr ⟨b', c'', k'', onward⟩

end Parallel

/-- A run that takes more steps than its fuel allows has not ended. -/
theorem not_ended_of_stepsIn {fuel : Nat} {m k : Machine} (steps : StepsIn fuel a m b k) :
    run fuel a m = (none, k) :=
  run_of_stepsIn steps 0

/-- Where one of two parallel runs has an end, they come to the end together. -/
theorem Parallel.closes (parallel : Parallel g a c k) {fuel : Nat} {completion : Completion}
    {l : Machine}
    (ended : run fuel a c = (some completion, l) ∨ run fuel a k = (some completion, l)) :
    ∃ n b c' k', InStep g a c k n b c' k' ∧ g.Closing b c' := by
  obtain closes | ⟨b, c', k', together⟩ := parallel.closes_or_goes fuel
  · exact closes
  · rcases ended with alone | above
    · rw [not_ended_of_stepsIn together.alone] at alone
      cases alone
    · rw [not_ended_of_stepsIn together.above] at above
      cases above

/-! ## Where there is room -/

theorem Unlimited.leads (unlimited : Unlimited a m) (leads : Leads a m b l) : Unlimited b l :=
  fun k what later => unlimited k what (leads.trans later)

/-- Nothing is given up at a limit by an unlimited machine. -/
theorem Unlimited.not_hitsLimit (unlimited : Unlimited a m) : ¬ a.HitsLimit := by
  intro hit
  unfold Activity.HitsLimit at hit
  split at hit
  next what => exact unlimited m what (.refl _ _) hit
  · exact hit

theorem Unlimited.hasRoom {r : Ref .method} {argBase argCount : Nat}
    (unlimited : Unlimited (m.proceed r argBase argCount).1 (m.proceed r argBase argCount).2) :
    m.HasRoom r argBase argCount := by
  apply hasRoom_of_not_hitsLimit
  rw [← proceed_fst]
  exact unlimited.not_hitsLimit

/-- Two machines neither of which reaches a limit. -/
theorem Parallel.of_unlimited (atop : Atop g c k) (reachable : Reachable a c)
    (standard : c.heap.Standard) (alone : Unlimited a c) (above : Unlimited a k) :
    Parallel g a c k where
  atop := atop
  reachable := reachable
  standard := standard
  free := by
    intro n b c' k' next other together ran ran' refused
    rcases refused.one with hit | hit
    · exact (alone.leads (.trans ⟨n, together.alone⟩ (.step ran))).not_hitsLimit hit
    · exact (above.leads (.trans ⟨n, together.above⟩ (.step ran'))).not_hitsLimit hit

/-- What a machine alone has done in step with one machine it does in step with another. -/
theorem InStep.transfer {g' : Footing} {l : Machine} (together : InStep g a c k n b c' k')
    (parallel : Parallel g' a c l) (under : g'.under = g.under) :
    ∃ l', InStep g' a c l n b c' l' := by
  induction together with
  | start => exact ⟨l, .start⟩
  | @step n b b' c' c'' k' k'' _ going ran _ _ ih =>
    obtain ⟨l', together'⟩ := ih
    have going' : ¬ g'.Closing b c' := by
      unfold Footing.Closing
      rw [under]
      exact going
    obtain ⟨d, d', l'', ran', -, onward⟩ := parallel.next together' going'
    rw [ran] at ran'
    cases ran'
    exact ⟨l'', onward⟩

/-- Two machines that reach their limits together. -/
theorem Parallel.of_level (atop : Atop g c k) (reachable : Reachable a c)
    (standard : c.heap.Standard) (level : g.Level) : Parallel g a c k where
  atop := atop
  reachable := reachable
  standard := standard
  free := fun _ _ _ _ _ _ _ _ _ refused => refused.uneven level

/-! ## Beginning with a request -/

/-- A machine, and another one with the same data and other limits on which nothing is
active. -/
def Footing.of (m : Machine) (limits : Settings) (trace : m.settings.trace = limits.trace)
    (quiet : limits.trace = false) : Footing :=
  ⟨m, limits, [], id, trace, .inl quiet, .inl rfl⟩

/-- A machine, which has done something before, and one that has done nothing. -/
def Footing.inactive (m : Machine) (none_ : m.frames.toList = []) : Footing :=
  ⟨m, m.settings, [], id, rfl, .inr none_, .inl rfl⟩

/-- A machine with nothing on it, and another that has the same data at other places. -/
theorem Atop.start (g : Footing) (h : Heap) (none_ : g.under = [])
    (heap : g.base.heap = h.relocate g.place) :
    Atop g (idle h g.base.image g.limits) g.base where
  heap := heap
  image := rfl
  limits := rfl
  settings := rfl
  frames := rfl
  slots := nofun
  entries := ⟨[], none_.symm, rfl⟩
  methods := rfl
  log := ⟨[], (List.append_nil _).symm, .nil⟩

/-- Nothing is given up before an entry was opened. -/
theorem entries_ne_nil_of_transition {why : Abort} {m m' : Machine} (sound : Sound a m)
    (transition : Transition a m (.abandon why) m') : m'.entries ≠ [] := by
  cases transition with
  | await frames _ _ _ _ _ _ st =>
    rw [st.entries]
    intro none_
    have nested := sound.nested_fetch
    rw [frames, none_] at nested
    cases nested
  | mishap frames _ _ _ st =>
    rw [st.entries]
    intro none_
    have nested := sound.nested_fetch
    rw [frames, none_] at nested
    cases nested
  | respond _ _ settled => exact absurd rfl (settled why)
  | refuse _ _ entries =>
    rw [entries]
    exact List.cons_ne_nil _ _

/-! ## Serving a request in step -/

/-- What is given to whoever made the first request. -/
def Activity.completion? : Activity → Option Completion
  | .reply v => some (.answer v)
  | .fault f => some (.fault f)
  | _ => none

/-- Where no entry is open, it is given away in the next step. -/
theorem step_of_handed {completion : Completion} (entries : k.entries = [])
    (handed : a.completion? = some completion) : step a k = .finished completion k := by
  cases a with
  | fetch | request r | abandon why => cases handed
  | reply v | fault f =>
    cases handed
    simp only [step, entries]

section

variable {r : Request} {c₀ : Machine}

/-- Where a machine alone is about to give its answer away, the other one has it. -/
theorem Atop.closing_iff (atop : Atop g c k) (under : g.under = []) (sound : Sound a c)
    (opened : ∀ why, a = .abandon why → c.entries ≠ []) :
    g.Closing a c ↔ Returned g.base a k := by
  obtain ⟨added, entries, entries'⟩ := atop.entries
  rw [under, List.append_nil] at entries
  have few : c.entries = [] ↔ k.entries.length ≤ g.base.entries.length := by
    rw [entries, entries', List.length_append, List.length_map, ← List.length_eq_zero_iff]
    omega
  unfold Footing.Closing Returned
  cases a with
  | fetch =>
    refine ⟨fun closing => ?_, fun returned => returned.1.elim⟩
    have nested := sound.nested_fetch
    rw [closing.1, under] at nested
    exact absurd (List.length_eq_zero_iff.1 nested) (sound.running rfl)
  | request r => exact ⟨False.elim, fun returned => returned.1⟩
  | reply v => exact few.trans (and_iff_right trivial).symm
  | abandon why =>
    refine ⟨fun closing => ?_, fun returned => returned.1.elim⟩
    exact absurd (closing.trans under) (opened why rfl)
  | fault f =>
    simp only [under]
    exact few.trans (and_iff_right trivial).symm

theorem InStep.opened (together : InStep g (.request r) c₀ k n a c l)
    (reachable : Reachable (.request r) c₀) : ∀ why, a = .abandon why → c.entries ≠ [] := by
  rintro why rfl
  cases together with
  | step before _ ran _ _ =>
    have sound := sound_of_reachable (before.alone.reachable reachable)
    exact entries_ne_nil_of_transition sound (transition_of_step sound ran)

namespace InStep

variable (together : InStep g (.request r) c₀ g.base n a c k) (start : Atop g c₀ g.base)
  (reachable : Reachable (.request r) c₀) (under : g.under = [])

include together start reachable under

theorem closing_iff : g.Closing a c ↔ Returned g.base a k :=
  (together.atop start).closing_iff under
    (sound_of_reachable (together.alone.reachable reachable)) (together.opened reachable)

/-- As long as there is a next step, the request is being served. -/
theorem going {b : Activity} {c' : Machine} (ran : Machine.step a c = .running b c') :
    ¬ g.Closing a c := by
  intro closing
  have returned := (together.closing_iff start reachable under).1 closing
  unfold Footing.Closing at closing
  cases a with
  | fetch | request r | abandon why => exact returned.1
  | reply v =>
    simp only [Machine.step, closing] at ran
    cases ran
  | fault f =>
    simp only [Machine.step, closing, under] at ran
    cases ran

/-- Where the machine alone gives its answer away, it is done. -/
theorem handed (closing : g.Closing a c) :
    ∃ completion, a.completion? = some completion ∧ c.entries = [] ∧ c.frames.toList = [] := by
  have returned := (together.closing_iff start reachable under).1 closing
  have sound := sound_of_reachable (together.alone.reachable reachable)
  unfold Footing.Closing at closing
  cases a with
  | fetch | request r | abandon why => exact returned.1.elim
  | reply v =>
    have nested := sound.entries.nested nofun
    rw [closing] at nested
    exact ⟨.answer v, rfl, closing, List.length_eq_zero_iff.1 nested⟩
  | fault f =>
    have nested := sound.entries.nested nofun
    rw [closing.trans under] at nested
    exact ⟨.fault f, rfl, closing.trans under, List.length_eq_zero_iff.1 nested⟩

end InStep

namespace Parallel

variable (parallel : Parallel g (.request r) c₀ g.base) (under : g.under = [])

include parallel under

/-- All steps of the machine alone are taken in step. -/
theorem inStep_of_stepsIn {j : Nat} (together : InStep g (.request r) c₀ g.base n a c k)
    (steps : StepsIn j a c b c') : ∃ k', InStep g (.request r) c₀ g.base (n + j) b c' k' := by
  induction steps generalizing n k with
  | zero => exact ⟨k, together⟩
  | @succ j a d b c l c' ran _ ih =>
    have going := together.going parallel.atop parallel.reachable under ran
    obtain ⟨d', l', k', ran', -, onward⟩ := parallel.next together going
    rw [ran] at ran'
    cases ran'
    obtain ⟨k'', later⟩ := ih onward
    exact ⟨k'', by rwa [Nat.add_comm j 1, ← Nat.add_assoc]⟩

/-- A machine below which nothing is active serves a request in the same number of steps. -/
theorem run_eq (none_ : g.base.entries = []) (fuel : Nat) :
    (run fuel (.request r) g.base).1 = (run fuel (.request r) c₀).1 ∧
      Atop g (run fuel (.request r) c₀).2 (run fuel (.request r) g.base).2 := by
  suffices onward : ∀ n a c k, InStep g (.request r) c₀ g.base n a c k →
      (run fuel a k).1 = (run fuel a c).1 ∧ Atop g (run fuel a c).2 (run fuel a k).2 from
    onward 0 _ _ _ .start
  induction fuel with
  | zero => exact fun n a c k together => ⟨rfl, together.atop parallel.atop⟩
  | succ fuel ih =>
    intro n a c k together
    by_cases closing : g.Closing a c
    · obtain ⟨completion, handed, entries, -⟩ :=
        together.handed parallel.atop parallel.reachable under closing
      have atop := together.atop parallel.atop
      obtain ⟨added, alone, above⟩ := atop.entries
      have open_ : k.entries = [] := by
        rw [entries, under, List.append_nil] at alone
        rw [above, none_, ← alone]
        rfl
      rw [run, run, step_of_handed entries handed, step_of_handed open_ handed]
      exact ⟨rfl, atop⟩
    · obtain ⟨b, c', k', ran, ran', onward⟩ := parallel.next together closing
      rw [run, run, ran, ran']
      exact ih _ _ _ _ onward

end Parallel

end

end MessageMachine.Machine
