/-
# Surroundings make no difference

A request may be made of a machine on which frames are active already. What comes of it
does not depend on them. Of two machines that share their data, the one with at least as
much room left serves every request in the same steps as the other, with the same effects
on the heap and the image, the same answer, and the same reports apart from their places.

Neither machine is compared with the other directly. Both are in step with a third one,
on which nothing is active and whose limits are what the narrower machine has left.
-/

import MessageMachine.Proofs.Compiler.Correctness
import MessageMachine.Proofs.Machine.Parallel

namespace MessageMachine.Machine

/-! ## Serving a request -/

/-- What a machine does by itself to serve a request, up to where whoever made it has the
answer. -/
inductive ServesIn (m : Machine) (r : Request) : Nat → Activity → Machine → Prop
  | start : ServesIn m r 0 (.request r) m
  | step {n : Nat} {a b : Activity} {k l : Machine} :
      ServesIn m r n a k → ¬ Returned m a k → step a k = .running b l → ServesIn m r (n + 1) b l

/-- It is never refused a frame or a stack on the way. -/
def ServesFreely (m : Machine) (r : Request) : Prop :=
  ∀ count what k, ServesIn m r count (.abandon (.exhausted what)) k → ¬ what.IsLimit

theorem ServesIn.leads {m k : Machine} {r : Request} {n : Nat} {a : Activity}
    (serves : ServesIn m r n a k) : Leads (.request r) m a k := by
  induction serves with
  | start => exact .refl _ _
  | step _ _ ran ih => exact ih.trans (.step ran)

theorem servesFreely_of_unlimited {m : Machine} {r : Request}
    (unlimited : Unlimited (.request r) m) : ServesFreely m r :=
  fun _ what k serves => unlimited k what serves.leads

theorem ServesFreely.not_hitsLimit {m k : Machine} {r : Request} {n : Nat} {a : Activity}
    (free : ServesFreely m r) (serves : ServesIn m r n a k) : ¬ a.HitsLimit := by
  intro hit
  unfold Activity.HitsLimit at hit
  split at hit
  · exact free _ _ _ serves hit
  · exact hit

/-- Two machines at the same point of serving a request. -/
structure SamePoint (m n : Machine) (a : Activity) (k l : Machine) : Prop where
  heap : l.heap = k.heap
  image : l.image = k.image
  /-- Either both have the answer or none has. -/
  returned : Returned n a l ↔ Returned m a k
  /-- The same has been reported, perhaps of other places. -/
  reports : ∃ added added', k.log.toList = m.log.toList ++ added ∧
    l.log.toList = n.log.toList ++ added' ∧
    added'.map (fun d => (d.kind, d.message)) = added.map fun d => (d.kind, d.message)

/-- The second machine does for a request what the first one does. -/
structure Copies (m n : Machine) (r : Request) : Prop where
  free : ServesFreely n r
  forth : ∀ count a k, ServesIn m r count a k → ∃ l, ServesIn n r count a l ∧ SamePoint m n a k l
  back : ∀ count a l, ServesIn n r count a l → ∃ k, ServesIn m r count a k ∧ SamePoint m n a k l

/-! ## A machine above and a machine alone -/

theorem Footing.Moves.reported {g : Footing} {reports reports' : List Diagnostic}
    (moved : List.Forall₂ g.Moves reports reports') :
    reports'.map (fun d => (d.kind, d.message)) = reports.map fun d => (d.kind, d.message) := by
  induction moved with
  | nil => rfl
  | cons moves _ ih => simp only [List.map_cons, moves.kind, moves.message, ih]

variable {g : Footing} {a : Activity} {r : Request} {c c₀ k l : Machine} {n : Nat}

namespace InStep

variable (start : Atop g c₀ g.base) (reachable : Reachable (.request r) c₀) (under : g.under = [])

include start reachable under

theorem servesIn (together : InStep g (.request r) c₀ g.base n a c k) :
    ServesIn g.base r n a k := by
  induction together with
  | start => exact .start
  | step before going _ ran _ ih =>
    refine .step ih (fun returned => going ?_) ran
    exact (before.closing_iff start reachable under).2 returned

end InStep

theorem Parallel.inStep (parallel : Parallel g (.request r) c₀ g.base) (under : g.under = [])
    (serves : ServesIn g.base r n a k) : ∃ c, InStep g (.request r) c₀ g.base n a c k := by
  induction serves with
  | start => exact ⟨c₀, .start⟩
  | step _ going ran ih =>
    obtain ⟨c, together⟩ := ih
    obtain ⟨b', c'', k'', -, ran', onward⟩ := parallel.next together fun closing =>
      going ((together.closing_iff parallel.atop parallel.reachable under).1 closing)
    rw [ran] at ran'
    cases ran'
    exact ⟨c'', onward⟩

/-! ## Two machines -/

theorem samePoint_of_inStep {g' : Footing}
    (together : InStep g (.request r) c₀ g.base n a c k)
    (together' : InStep g' (.request r) c₀ g'.base n a c l)
    (start : Atop g c₀ g.base) (start' : Atop g' c₀ g'.base)
    (reachable : Reachable (.request r) c₀) (under : g.under = []) (under' : g'.under = [])
    (place : g.place = id) (place' : g'.place = id) : SamePoint g.base g'.base a k l where
  heap := by
    rw [(together.atop start).heap, (together'.atop start').heap, place, place']
  image := (together'.atop start').image.trans (together.atop start).image.symm
  returned := by
    rw [← together.closing_iff start reachable under,
      ← together'.closing_iff start' reachable under']
    unfold Footing.Closing
    rw [under, under']
  reports := by
    obtain ⟨added, log, moved⟩ := (together.atop start).log
    obtain ⟨added', log', moved'⟩ := (together'.atop start').log
    refine ⟨added, added', log, log', ?_⟩
    rw [Footing.Moves.reported moved, Footing.Moves.reported moved']

variable {m n : Machine}

/-- A request is served in the same way wherever there is room for it, whatever is active
already. -/
theorem copies_of_room (heap : n.heap = m.heap) (image : n.image = m.image)
    (standard : m.heap.Standard) (quiet : m.settings.trace = false)
    (quiet' : n.settings.trace = false) (room : m.left.Within n.left) (free : ServesFreely m r) :
    Copies m n r := by
  let g := Footing.of m m.left rfl quiet
  let g' := Footing.of n m.left (quiet'.trans quiet.symm) quiet
  let alone := idle m.heap m.image m.left
  have start : Atop g alone m := .start g m.heap rfl m.heap.relocate_id.symm
  have start' : Atop g' alone n := by
    have begun : Atop g' (idle m.heap n.image m.left) n :=
      .start g' m.heap rfl (heap.trans m.heap.relocate_id.symm)
    rwa [image] at begun
  have reachable : Reachable (.request r) alone := .start _ _ _ _
  have parallel : Parallel g (.request r) alone m := by
    refine ⟨start, reachable, standard, ?_⟩
    intro i b c k next other together ran ran' refused
    have going := together.going start reachable rfl ran
    refine free.not_hitsLimit (.step (InStep.servesIn start reachable rfl together) ?_ ran')
      (refused.above (.refl _))
    exact fun returned => going ((together.closing_iff start reachable rfl).2 returned)
  have parallel' : Parallel g' (.request r) alone n := by
    refine ⟨start', reachable, standard, ?_⟩
    intro i b c l next other together ran ran' refused
    obtain ⟨k, together₁⟩ := together.transfer parallel rfl
    obtain ⟨b', c', k', ran₁, -, onward⟩ :=
      parallel.next together₁ (together₁.going start reachable rfl ran)
    rw [ran] at ran₁
    cases ran₁
    exact free.not_hitsLimit (InStep.servesIn start reachable rfl onward) (refused.alone room)
  refine ⟨?_, ?_, ?_⟩
  · intro count what l serves
    obtain ⟨c, together⟩ := parallel'.inStep rfl serves
    obtain ⟨k, together₁⟩ := together.transfer parallel rfl
    exact free count what k (InStep.servesIn start reachable rfl together₁)
  · intro count a k serves
    obtain ⟨c, together⟩ := parallel.inStep rfl serves
    obtain ⟨l, together'⟩ := together.transfer parallel' rfl
    exact ⟨l, InStep.servesIn start' reachable rfl together',
      samePoint_of_inStep together together' start start' reachable rfl rfl rfl rfl⟩
  · intro count a l serves
    obtain ⟨c, together'⟩ := parallel'.inStep rfl serves
    obtain ⟨k, together⟩ := together'.transfer parallel rfl
    exact ⟨k, InStep.servesIn start reachable rfl together,
      samePoint_of_inStep together together' start start' reachable rfl rfl rfl rfl⟩

/-- The standard classes, a method that answers its receiver, and a program that looks for
an unbound name and then adds two numbers. -/
def sumHeap : Heap :=
  { (Image.create .empty none false).1 with
    methods := #[⟨"identity", 1, #[5, 0, 4], #[], 1, none⟩,
      ⟨"sum", 0, #[1, 0, 2, 6, 1, 1, 1, 2, 1, 3, 3, 2, 4],
        #[.symbol "missing", .integer 3, .integer 4, .symbol "+"], 3, none⟩] }

/-- The standard image, with the least limits that the program needs. -/
def sumAlone : Machine :=
  idle sumHeap (Image.create .empty none false).2 ⟨false, 1, 3⟩

/-- The same where the other method is active. -/
def sumInside : Machine :=
  ((idle sumHeap (Image.create .empty none false).2 ⟨false, 2, 4⟩).enter
    (.invoke (.method ⟨0⟩) [.integer 7])).2

theorem copies_sum : sumInside.frames.size = 1 ∧ Copies sumAlone sumInside (.execute ⟨1⟩) := by
  have standard : sumHeap.Standard := Workspace.fresh.compiled.standard.congr rfl
  have stays : staysWithin 20 (.request (.execute ⟨1⟩)) sumAlone = true := by decide +kernel
  refine ⟨rfl, copies_of_room rfl rfl standard rfl rfl ⟨?_, ?_⟩
    (servesFreely_of_unlimited (unlimited_of_staysWithin stays))⟩
  · decide +kernel
  · decide +kernel

end MessageMachine.Machine
