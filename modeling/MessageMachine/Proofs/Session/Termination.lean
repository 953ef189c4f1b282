/-
# Evaluations come to an end

Every text that can be loaded is evaluated to its end, in any session that there is. Each
of its programs answers a value within a number of steps that depends on the limits of the
machine only, whatever methods were defined, redefined or installed before or on the way;
or it makes a string that is too long, and the evaluation ends there. Nor does a single
step go on for ever: what it compares or prints it compares and prints to the end, even
where pairs form cycles.
-/

import MessageMachine.Proofs.Compiler.Termination
import MessageMachine.Proofs.Heap.Printer
import MessageMachine.Proofs.Session.Safety

namespace MessageMachine

namespace Session

open Machine

variable {s : Session} {library : List Function}

/-! ## Programs -/

/-- A program ends within the steps that the settings allow, with a value unless a string is
too long, and more of them make no difference. -/
theorem ends_runProgram (workspace : Workspace s.heap s.image library) {program : Ref .method}
    (inside : program.index < s.heap.methods.size) {fuel : Nat}
    (enough : s.settings.allowance < fuel) :
    ((∃ v, (s.runProgram fuel program).result = .ok v) ∨
        (s.runProgram fuel program).result = .error .overlong) ∧
      ∀ more, s.runProgram (fuel + more) program = s.runProgram fuel program := by
  have failing := (blameless_runProgram workspace fuel inside).2
  rw [← stepsLeft_execute s.heap s.image s.settings program] at enough
  obtain ⟨completion, m, ran⟩ :=
    exists_completion (.start _ _ _ _) (conducted_of_workspace workspace inside) enough
  unfold runProgram serve at failing ⊢
  rw [ran] at failing ⊢
  refine ⟨?_, fun more => by rw [run_add_of_eq_some ran more]⟩
  cases completion with
  | answer v => exact .inl ⟨v, rfl⟩
  | fault f =>
    rw [failing f rfl]
    exact .inr rfl

/-- So does each of several programs, up to the first for which a string is too long. -/
theorem ends_runAll (workspace : Workspace s.heap s.image library)
    {programs : List (Ref .method)}
    (inside : ∀ program ∈ programs, program.index < s.heap.methods.size) {fuel : Nat}
    (enough : s.settings.allowance < fuel) :
    ((∃ values, (s.runAll fuel programs).result = .ok values ∧
        values.length = programs.length) ∨
        (s.runAll fuel programs).result = .error .overlong) ∧
      ∀ more, s.runAll (fuel + more) programs = s.runAll fuel programs := by
  induction programs generalizing s with
  | nil => exact ⟨.inl ⟨[], rfl, rfl⟩, fun _ => rfl⟩
  | cons program rest ih =>
    obtain ⟨listed, made⟩ := exists_listProgram workspace.compiled program
    obtain ⟨ended, same⟩ := ends_runProgram workspace (inside program (by simp)) enough
    have later : ∀ other ∈ rest,
        other.index < (s.runProgram fuel program).session.heap.methods.size := by
      rw [methods_runProgram]
      exact fun other member => inside other (List.mem_cons_of_mem _ member)
    obtain ⟨results, others⟩ :=
      ih (workspace_runProgram workspace fuel program) later
        (by rw [settings_runProgram]; exact enough)
    rcases ended with ⟨v, answered⟩ | failed
    · refine ⟨?_, fun more => ?_⟩
      · rw [runAll_cons, made]
        rcases results with ⟨values, results, length⟩ | failed
        · simp only [answered, results]
          exact .inl ⟨v :: values, rfl, congrArg Nat.succ length⟩
        · simp only [answered, failed]
          exact .inr rfl
      · rw [runAll_cons, runAll_cons, made, same]
        simp only [answered, others]
    · refine ⟨.inr ?_, fun more => ?_⟩
      · rw [runAll_cons, made]
        simp only [failed]
      · rw [runAll_cons, runAll_cons, made, same]
        simp only [failed]

/-! ## Evaluations -/

/-- An evaluation that comes to an end. -/
structure Terminates (s : Session) (source file : String) (programs : List (Ref .method)) :
    Prop where
  /-- Every program of the text answers a value, unless there is one that makes a string that
  is too long, with which the evaluation ends. -/
  finishes : ∀ fuel, s.settings.allowance < fuel →
    (∃ values, (s.evaluate fuel source file).result = .ok values ∧
      values.length = programs.length) ∨
      (s.evaluate fuel source file).result = .error .overlong
  /-- More steps than that are never taken. -/
  settled : ∀ fuel more, s.settings.allowance < fuel →
    s.evaluate (fuel + more) source file = s.evaluate fuel source file
  /-- There are never more frames than the settings allow. -/
  bounded : ∀ fuel a m, s.Passes fuel source file a m →
    m.frames.toList.length ≤ s.settings.maxFrames.toNat
  /-- A frame that executes one instruction after another, with whatever runs between them,
  is further on in its code each time. -/
  onward : ∀ fuel m b k l f g outer outer', s.Passes fuel source file .fetch m →
    m.frames.toList = f :: outer → step .fetch m = .running b k →
    LeadsAbove outer.length b k .fetch l → l.frames.toList = g :: outer' →
    outer'.length = outer.length → g.SameActivation f ∧ f.ip < g.ip
  /-- A call that is given up answers nil, and the frames outside it go on. -/
  resumed : ∀ fuel why m, s.Passes fuel source file (.abandon why) m →
    ∃ k, step (.abandon why) m = .running (.reply .nil) k ∧ k.frames.toList = m.remaining
  /-- What is compared is compared to the end. -/
  compared : ∀ fuel a m, s.Passes fuel source file a m →
    ∀ x y, m.heap.Settles [(x, y)] {} (m.heap.equal x y)
  /-- What is printed is printed to the end. -/
  printed : ∀ fuel a m, s.Passes fuel source file a m →
    ∀ v, ∃ active, m.heap.Prints {} v (m.heap.print v, active)

theorem Passes.settings {fuel : Nat} {source file : String} {a : Activity} {m : Machine}
    (passes : s.Passes fuel source file a m) : m.settings = s.settings := by
  cases passes with
  | @intro heap before rest program values now _ _ loaded answered left leads =>
    rw [leads.settings (.start _ _ _ _)]
    show now.settings = s.settings
    rw [← left, settings_runAll]

theorem Reachable.terminates (reachable : s.Reachable) {source file : String} {heap : Heap}
    {programs : List (Ref .method)} (loaded : load s.heap source file = .ok (heap, programs)) :
    s.Terminates source file programs := by
  obtain ⟨library, workspace⟩ := reachable.workspace
  obtain ⟨⟨library', workspace'⟩, inside⟩ := workspace_of_load workspace loaded
  have evaluated : ∀ fuel,
      s.evaluate fuel source file = { s with heap := heap }.runAll fuel programs := by
    intro fuel
    unfold Session.evaluate
    rw [loaded]
  constructor
  case finishes =>
    intro fuel enough
    rw [evaluated]
    exact (ends_runAll (s := { s with heap := heap }) workspace' inside enough).1
  case settled =>
    intro fuel more enough
    rw [evaluated, evaluated]
    exact (ends_runAll (s := { s with heap := heap }) workspace' inside enough).2 more
  case bounded =>
    intro fuel a m passes
    obtain ⟨_, there, -⟩ := passes.conducted reachable
    by_cases none_ : m.frames.toList = []
    · rw [none_]
      exact Nat.zero_le _
    · have bounded := (sound_of_reachable there).bounded none_
      rw [passes.settings] at bounded
      omega
  case onward =>
    intro fuel m b k l f g outer outer' passes frames ran leads frames' height
    obtain ⟨_, there, conducted⟩ := passes.conducted reachable
    exact ip_lt_of_leadsAbove there conducted frames ran leads frames' height
  case resumed =>
    intro fuel why m passes
    obtain ⟨_, there, -⟩ := passes.conducted reachable
    exact step_abandon (sound_of_reachable there)
  case compared => exact fun _ _ m _ x y => m.heap.settles_equal x y
  case printed => exact fun _ _ m _ v => m.heap.prints_print v

/-- A method that calls itself without end is given up at the limit. -/
theorem terminates_runaway : ∃ heap programs,
    load (create .standard false).heap
      "(defmethod Object (loop self) (loop self)) (loop 1)" "a" = .ok (heap, programs) ∧
    (create .standard false).Terminates
      "(defmethod Object (loop self) (loop self)) (loop 1)" "a" programs := by
  have loads : (load (create .standard false).heap
      "(defmethod Object (loop self) (loop self)) (loop 1)" "a").toBool = true := by
    decide +kernel
  cases loaded : load (create .standard false).heap
      "(defmethod Object (loop self) (loop self)) (loop 1)" "a" with
  | error failure =>
    rw [loaded] at loads
    cases loads
  | ok done => exact ⟨done.1, done.2, rfl, Reachable.terminates (.create _ _) loaded⟩

end Session

end MessageMachine
