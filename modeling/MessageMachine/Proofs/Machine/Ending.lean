/-
# What a run leaves behind

Two runs of different machines come to the same end if both end, with the same result,
the same data and the same reports, or if neither of them ends. Whatever is in their
frames at the time does not matter, so this is what is said of two ways to do one thing.

A run that is about to give its result away, to give up its only entry or to fail has an
end that can be told at once. With that, machines that are in step are compared where they
have got to when they are no longer in step.
-/

import MessageMachine.Proofs.Machine.Parallel

namespace MessageMachine.Machine

/-! ## Ends -/

/-- How a run ended, with the data and all the reports that it left. -/
structure Ending where
  completion : Completion
  heap : Heap
  image : Image
  log : Array Diagnostic

/-- The end of a run in some state. -/
def ending (m : Machine) (completion : Completion) : Ending :=
  ⟨completion, m.heap, m.image, m.log⟩

/-- A run comes to an end. -/
def EndsAs (a : Activity) (m : Machine) (e : Ending) : Prop :=
  ∃ fuel completion k, run fuel a m = (some completion, k) ∧ e = k.ending completion

variable {a b : Activity} {c k l m : Machine} {e : Ending} {completion : Completion}

/-- Where a run has got to makes no difference. -/
theorem endsAs_iff_of_leads (leads : Leads a m b k) : EndsAs a m e ↔ EndsAs b k e := by
  obtain ⟨count, steps⟩ := leads
  constructor
  · rintro ⟨fuel, completion, l, ran, same⟩
    have later := run_add_of_eq_some ran count
    rw [Nat.add_comm, run_of_stepsIn steps] at later
    exact ⟨fuel, completion, l, later, same⟩
  · rintro ⟨fuel, completion, l, ran, same⟩
    exact ⟨count + fuel, completion, l, (run_of_stepsIn steps fuel).trans ran, same⟩

theorem endsAs_iff_of_step (ran : step a m = .running b k) : EndsAs a m e ↔ EndsAs b k e :=
  endsAs_iff_of_leads (.step ran)

/-- Where no entry is open, what is given away is the end. -/
theorem endsAs_iff_of_handed (entries : m.entries = []) (handed : a.completion? = some completion) :
    EndsAs a m e ↔ e = m.ending completion := by
  have last := step_of_handed entries handed
  constructor
  · rintro ⟨fuel, completion', l, ran, same⟩
    cases fuel with
    | zero => cases ran
    | succ fuel =>
      rw [run, last] at ran
      cases ran
      exact same
  · rintro rfl
    exact ⟨1, completion, m, by rw [run, last], rfl⟩

/-- A result is handed to whoever waits for it. -/
theorem endsAs_push_iff (waits : m.entries ≠ []) (v : Value) :
    EndsAs (m.push v).1 (m.push v).2 e ↔ EndsAs (.reply v) m e := by
  obtain ⟨base, outer, open_⟩ := List.exists_cons_of_ne_nil waits
  refine (endsAs_iff_of_step ?_).symm
  simp only [step, open_]
  rfl

/-- The only entry is given up. -/
theorem endsAs_abandon_iff (entries : m.entries = [0]) (why : Abort) :
    EndsAs (.abandon why) m e ↔
      e = (m.note ⟨why.kind, s!"Execution abandoned: {why.message}", m.currentLocation⟩).ending
        (.answer .nil) := by
  refine (endsAs_iff_of_step (b := .reply .nil) (k := (m.abandonEntry why).2) ?_).trans
    ((endsAs_iff_of_handed ?_ rfl).trans ?_)
  · simp only [step, abandonEntry, entries]
    rfl
  · simp only [abandonEntry, entries]
    rfl
  · simp [abandonEntry, entries, unwind, report, ending, note, truncate, currentLocation]

/-- The only entry is taken down by a failure. -/
theorem endsAs_fault_iff (entries : m.entries = [0]) (f : HostFault) :
    EndsAs (.fault f) m e ↔ e = m.ending (.fault f) := by
  let down : Machine := { m with entries := [], frames := m.frames.keep 0 }
  have ran : step (.fault f) m = .running (.fault f) (down.truncate down.stackTop) := by
    simp only [step, entries, down]
  exact (endsAs_iff_of_step ran).trans (endsAs_iff_of_handed rfl rfl)

/-! ## The same data -/

/-- Two machines have the same data, the same reports and the same settings. -/
structure SameData (m k : Machine) : Prop where
  heap : k.heap = m.heap
  image : k.image = m.image
  settings : k.settings = m.settings
  log : k.log = m.log

namespace SameData

theorem refl (m : Machine) : SameData m m :=
  ⟨rfl, rfl, rfl, rfl⟩

theorem symm (same : SameData m k) : SameData k m :=
  ⟨same.heap.symm, same.image.symm, same.settings.symm, same.log.symm⟩

theorem trans (first : SameData m k) (second : SameData k l) : SameData m l :=
  ⟨second.heap.trans first.heap, second.image.trans first.image,
    second.settings.trans first.settings, second.log.trans first.log⟩

theorem ending_eq (same : SameData m k) (completion : Completion) :
    k.ending completion = m.ending completion := by
  simp only [ending, same.heap, same.image, same.log]

theorem note (same : SameData m k) (d : Diagnostic) : SameData (m.note d) (k.note d) :=
  ⟨same.heap, same.image, same.settings, congrArg (Array.push · d) same.log⟩

/-- Reports are the same where both machines are at the same place. -/
theorem report (same : SameData m k) (place : k.currentLocation = m.currentLocation)
    (kind : Diagnostic.Kind) (message : String) (location : Option Location) :
    SameData (m.report kind message location) (k.report kind message location) := by
  unfold Machine.report
  rw [place]
  exact same.note _

end SameData

/-- In step, machines of the same places report the same. -/
theorem Atop.log_eq {g : Footing} (atop : Atop g c k) (place : g.place = id)
    (nowhere : g.base.currentLocation = none) : k.log = g.base.log ++ c.log := by
  obtain ⟨reports, log, moved⟩ := atop.log
  have same : ∀ {d d'}, g.Moves d d' → d = d' := by
    rintro ⟨kind, message, location⟩ ⟨kind', message', location'⟩ ⟨same, same', located⟩
    have here : location' = location := by
      rcases located with moved | ⟨none_, base⟩
      · simpa [place] using moved
      · exact base.trans (nowhere.trans none_.symm)
    simp only at same same'
    rw [same, same', here]
  have all : List.Forall₂ (· = ·) c.log.toList reports := moved.imp fun _ _ => same
  rw [List.forall₂_eq_eq_eq] at all
  apply Array.toList_inj.1
  rw [log, Array.toList_append, all]

/-- In step, they have the same data. -/
theorem Atop.sameData {g : Footing} (atop : Atop g c k) (place : g.place = id)
    (nowhere : g.base.currentLocation = none) (silent : g.base.log = #[])
    (limits : g.limits = g.base.settings) : SameData c k where
  heap := by rw [atop.heap, place, Heap.relocate_id]
  image := atop.image
  settings := by rw [atop.settings, atop.limits, limits]
  log := by rw [atop.log_eq place nowhere, silent, Array.empty_append]

/-! ## The same end -/

/-- Two runs come to the same end or to none. -/
def SameEnd (next other : Activity × Machine) : Prop :=
  ∀ e, EndsAs next.1 next.2 e ↔ EndsAs other.1 other.2 e

/-- Machines that are in step come to the same end if they do so when they are no longer
in step. -/
theorem Parallel.sameEnd {g : Footing} (parallel : Parallel g a c k)
    (closing : ∀ n b c' k', InStep g a c k n b c' k' → g.Closing b c' →
      SameEnd (b, c') (b, k')) : SameEnd (a, c) (a, k) := by
  have closed (ends : ∃ n b c' k', InStep g a c k n b c' k' ∧ g.Closing b c') (e : Ending) :
      EndsAs a c e ↔ EndsAs a k e := by
    obtain ⟨n, b, c', k', together, closes⟩ := ends
    exact (endsAs_iff_of_leads ⟨n, together.alone⟩).trans
      ((closing n b c' k' together closes e).trans
        (endsAs_iff_of_leads ⟨n, together.above⟩).symm)
  have ends (e : Ending) (ended : EndsAs a c e ∨ EndsAs a k e) :
      ∃ n b c' k', InStep g a c k n b c' k' ∧ g.Closing b c' := by
    rcases ended with ⟨fuel, completion, l, ran, -⟩ | ⟨fuel, completion, l, ran, -⟩
    · exact parallel.closes (.inl ran)
    · exact parallel.closes (.inr ran)
  exact fun e => ⟨fun ended => (closed (ends e (.inl ended)) e).1 ended,
    fun ended => (closed (ends e (.inr ended)) e).2 ended⟩

/-! ## Machines on which nothing is active -/

section

variable {r : Request} (none_ : m.frames.toList = []) (closed : m.entries = [])
  (standard : m.heap.Standard)

include none_ standard

/-- What it has done before makes no difference to what it does next. -/
theorem Parallel.of_inactive (r : Request) :
    Parallel (.inactive m none_) (.request r) (idle m.heap m.image m.settings) m :=
  .of_level (.start _ m.heap rfl m.heap.relocate_id.symm) (.start _ _ _ _) standard ⟨none_, rfl⟩

theorem unlimited_idle (unlimited : Unlimited (.request r) m) :
    Unlimited (.request r) (idle m.heap m.image m.settings) := by
  rintro k what ⟨count, steps⟩
  have parallel := Parallel.of_inactive none_ standard r
  obtain ⟨l, together⟩ := parallel.inStep_of_stepsIn rfl .start steps
  exact unlimited l what ⟨_, together.above⟩

include closed

/-- Its earlier reports stay. -/
theorem endsAs_iff_idle : EndsAs (.request r) m e ↔
    ∃ e₀, EndsAs (.request r) (idle m.heap m.image m.settings) e₀ ∧
      e = { e₀ with log := m.log ++ e₀.log } := by
  have parallel := Parallel.of_inactive none_ standard r
  have nowhere : m.currentLocation = none := by
    simp only [currentLocation, none_]
  have moved {c k : Machine} (atop : Atop (.inactive m none_) c k) (completion : Completion) :
      k.ending completion =
        { c.ending completion with log := m.log ++ (c.ending completion).log } := by
    have heap : k.heap = c.heap := atop.heap.trans c.heap.relocate_id
    have log : k.log = m.log ++ c.log := atop.log_eq rfl nowhere
    simp only [ending, heap, atop.image, log]
  have both (fuel : Nat) : (run fuel (.request r) m).1 =
      (run fuel (.request r) (idle m.heap m.image m.settings)).1 ∧
      Atop (.inactive m none_) (run fuel (.request r) (idle m.heap m.image m.settings)).2
        (run fuel (.request r) m).2 := parallel.run_eq rfl closed fuel
  constructor
  · rintro ⟨fuel, completion, k, ran, rfl⟩
    obtain ⟨same, atop⟩ := both fuel
    obtain ⟨completion', c, ran'⟩ : ∃ completion' c,
        run fuel (.request r) (idle m.heap m.image m.settings) = (completion', c) := ⟨_, _, rfl⟩
    rw [ran, ran'] at same atop
    subst same
    exact ⟨_, ⟨fuel, completion, c, ran', rfl⟩, moved atop completion⟩
  · rintro ⟨_, ⟨fuel, completion, c, ran, rfl⟩, rfl⟩
    obtain ⟨same, atop⟩ := both fuel
    obtain ⟨completion', k, ran'⟩ : ∃ completion' k, run fuel (.request r) m = (completion', k) :=
      ⟨_, _, rfl⟩
    rw [ran, ran'] at same atop
    subst same
    exact ⟨fuel, completion, k, ran', (moved atop completion).symm⟩

end

end MessageMachine.Machine
