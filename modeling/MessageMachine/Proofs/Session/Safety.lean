/-
# How sessions go wrong

Whatever texts a session evaluates, the code that they are compiled to makes no mistake
that the machine would have to find. The methods of a session all come from the
compiler, whichever classes they are installed on, whichever built-in methods they hide
and however they get called. So the invariant of compiled code holds at every moment.
An execution is given up because a limit is reached or an integer does not fit, and for
nothing else. The one thing that fails like the host, and so comes out of the evaluation,
is a string that would be too long, and it does so wherever a primitive is called for one.
-/

import MessageMachine.Proofs.Compiler.Conduct
import MessageMachine.Proofs.Session.Reachable

namespace MessageMachine

/-! ## Listings -/

theorem Heap.Verified.exists_decodeAll {h : Heap} {r : Ref .method} (verified : h.Verified r) :
    ∃ instructions, Instruction.decodeAll (h.method r).code = .ok instructions := by
  obtain ⟨w, analysed, -⟩ := verified.analysed
  unfold StackDepth.analyse at analysed
  cases decoded : Instruction.decodeAll (h.method r).code with
  | ok instructions => exact ⟨instructions, rfl⟩
  | error fault =>
    rw [decoded] at analysed
    cases analysed

namespace Heap.Compiled

variable {h : Heap} {library : List Function}

theorem exists_decodeAll (compiled : h.Compiled library) (r : Ref .method) :
    ∃ instructions, Instruction.decodeAll (h.method r).code = .ok instructions := by
  by_cases inside : r.index < library.length
  · have found := List.getElem?_eq_getElem inside
    obtain ⟨a, start, coded, -⟩ := exists_safe_of_implements (compiled.implements r.index _ found)
    exact coded.verified.exists_decodeAll
  · rw [method_of_size_le (compiled.size ▸ Nat.le_of_not_lt inside)]
    exact ⟨[], rfl⟩

/-- Compiled code can be listed, and so can the methods that it mentions. -/
theorem exists_listMethods (compiled : h.Compiled library) (fuel : Nat)
    (pending done : List (Ref .method)) (lines : Array String) :
    ∃ all, h.listMethods fuel pending done lines = .ok all := by
  induction fuel generalizing pending done lines with
  | zero => cases pending <;> exact ⟨lines, rfl⟩
  | succ fuel ih =>
    cases pending with
    | nil => exact ⟨lines, rfl⟩
    | cons r pending =>
      obtain ⟨instructions, decoded⟩ := compiled.exists_decodeAll r
      unfold listMethods
      simp only [decoded]
      split
      · exact ih ..
      · exact ih ..

end Heap.Compiled

namespace Session

open Machine

variable {s : Session} {library : List Function}

theorem exists_listProgram (compiled : s.heap.Compiled library) (program : Ref .method) :
    ∃ listed, s.listProgram program = .ok listed := by
  obtain ⟨lines, listed⟩ := compiled.exists_listMethods s.heap.listingRounds [program] [] #[]
  unfold listProgram Heap.listing Heap.listingLines
  rw [listed]
  split
  · exact ⟨_, rfl⟩
  · exact ⟨_, rfl⟩

/-! ## Programs -/

/-- A string would be too long for the host. -/
abbrev Failure.overlong : Failure := .host (.outOfRange .overlong)

theorem conducted_of_workspace (workspace : Workspace s.heap s.image library)
    {program : Ref .method} (inside : program.index < s.heap.methods.size) :
    Conducted library (.request (.execute program)) (idle s.heap s.image s.settings) :=
  conducted_execute workspace.compiled workspace.inOrder s.settings inside

theorem blameless_runProgram (workspace : Workspace s.heap s.image library) (fuel : Nat)
    {program : Ref .method} (inside : program.index < s.heap.methods.size) :
    (∀ d, .reported d ∈ (s.runProgram fuel program).events → d.Blameless) ∧
      ∀ f, (s.runProgram fuel program).result = .error (.host f) → f = .outOfRange .overlong := by
  obtain ⟨completion, m, ran⟩ : ∃ completion m,
      (idle s.heap s.image s.settings).serve fuel (.execute program) = (completion, m) :=
    ⟨_, _, rfl⟩
  obtain ⟨reported, answered⟩ := reported_of_run (.start _ _ _ _)
    (conducted_of_workspace workspace inside) ran nofun
  have events : ∀ d, Event.reported d ∈ m.log.toList.map Event.reported → d.Blameless := by
    intro d member
    obtain ⟨d', inside, same⟩ := List.mem_map.1 member
    cases same
    exact reported d inside
  unfold runProgram
  rw [ran]
  match completion, answered with
  | none, _ => exact ⟨events, nofun⟩
  | some (.answer v), _ => exact ⟨events, nofun⟩
  | some (.fault f), answered =>
    refine ⟨events, ?_⟩
    rintro g same
    cases same
    exact answered f rfl

/-- A listing is no report. -/
theorem not_reported_of_listProgram {program : Ref .method} {listed : List Event}
    (made : s.listProgram program = .ok listed) (d : Diagnostic) : Event.reported d ∉ listed := by
  unfold listProgram at made
  split at made
  · split at made
    · cases made
      simp
    · cases made
  · cases made
    exact List.not_mem_nil

/-- Programs that do not all answer answer up to the one that fails. -/
theorem exists_failing_of_runAll (workspace : Workspace s.heap s.image library) {fuel : Nat}
    {programs : List (Ref .method)} {failure : Failure}
    (failed : (s.runAll fuel programs).result = .error failure) :
    ∃ before program after values, programs = before ++ program :: after ∧
      (s.runAll fuel before).result = .ok values ∧
      ((s.runAll fuel before).session.runProgram fuel program).result = .error failure ∧
      (s.runAll fuel programs).session =
        ((s.runAll fuel before).session.runProgram fuel program).session := by
  induction programs generalizing s with
  | nil => cases failed
  | cons first rest ih =>
    obtain ⟨listed, made⟩ := exists_listProgram workspace.compiled first
    rcases runAll_cons_cases s fuel first rest with
      ⟨failure', unlisted, -⟩ | ⟨_, -, ⟨failure', stopped, ran⟩ | ⟨v, _, answered, rfl, ran⟩⟩
    · cases made.symm.trans unlisted
    · rw [ran] at failed ⊢
      cases failed
      exact ⟨[], first, rest, [], rfl, rfl, stopped, rfl⟩
    · rw [ran] at failed ⊢
      cases result : ((s.runProgram fuel first).session.runAll fuel rest).result with
      | ok values =>
        rw [result] at failed
        cases failed
      | error failure' =>
        rw [result] at failed
        cases failed
        obtain ⟨before, program, after, values, rfl, answers, stopped, left⟩ :=
          ih (workspace_runProgram workspace fuel first) result
        have first_ : s.runAll fuel (first :: before) =
            ⟨((s.runProgram fuel first).session.runAll fuel before).session,
              listed ++ (s.runProgram fuel first).events ++
                ((s.runProgram fuel first).session.runAll fuel before).events,
              .ok (v :: values)⟩ := by
          rw [runAll_cons, made]
          simp only [answered, answers]
          rfl
        refine ⟨first :: before, program, after, v :: values, rfl, ?_⟩
        rw [first_]
        exact ⟨rfl, stopped, left⟩

theorem host_or_unfinished_of_runProgram {fuel : Nat} {program : Ref .method} {failure : Failure}
    (failed : (s.runProgram fuel program).result = .error failure) :
    (∃ f, failure = .host f) ∨ failure = .unfinished := by
  unfold runProgram at failed
  simp only at failed
  split at failed
  · cases failed
  · cases failed
    exact .inl ⟨_, rfl⟩
  · cases failed
    exact .inr rfl

/-- What ends an evaluation after its text was loaded. -/
def Failure.Late (failure : Failure) : Prop :=
  failure = .unfinished ∨ failure = .overlong

/-- Programs that were compiled fail for want of steps or because a string is too long. -/
theorem late_of_runAll (workspace : Workspace s.heap s.image library) {fuel : Nat}
    {programs : List (Ref .method)}
    (inside : ∀ program ∈ programs, program.index < s.heap.methods.size) {failure : Failure}
    (failed : (s.runAll fuel programs).result = .error failure) : failure.Late := by
  obtain ⟨before, program, after, values, rfl, -, stopped, -⟩ :=
    exists_failing_of_runAll workspace failed
  have there : program.index < (s.runAll fuel before).session.heap.methods.size := by
    rw [methods_runAll]
    exact inside program (List.mem_append_right _ (List.mem_cons_self ..))
  rcases host_or_unfinished_of_runProgram stopped with ⟨f, rfl⟩ | unfinished
  · have left := workspace_runAll workspace fuel before
    exact .inr (congrArg Failure.host ((blameless_runProgram left fuel there).2 f stopped))
  · exact .inl unfinished

/-- A program of a text is there when the programs before it have run. -/
theorem Reachable.workspace_runAll_before (reachable : s.Reachable) {source file : String}
    {heap : Heap} {before rest : List (Ref .method)} {program : Ref .method}
    (loaded : load s.heap source file = .ok (heap, before ++ program :: rest)) (fuel : Nat) :
    ∃ library, Workspace ({ s with heap := heap }.runAll fuel before).session.heap
        ({ s with heap := heap }.runAll fuel before).session.image library ∧
      program.index < ({ s with heap := heap }.runAll fuel before).session.heap.methods.size := by
  obtain ⟨_, workspace⟩ := reachable.workspace
  obtain ⟨⟨library, workspace⟩, inside⟩ := workspace_of_load workspace loaded
  refine ⟨library, workspace_runAll (s := { s with heap := heap }) workspace fuel before, ?_⟩
  rw [methods_runAll]
  exact inside program (List.mem_append_right _ (List.mem_cons_self ..))

/-- At every moment of an evaluation the machine runs nothing but compiled code. -/
theorem Passes.conducted {fuel : Nat} {source file : String} {a : Activity} {m : Machine}
    (passes : s.Passes fuel source file a m) (reachable : s.Reachable) :
    ∃ library, Machine.Reachable a m ∧ Conducted library a m := by
  obtain ⟨loaded, answered, rfl, leads⟩ := passes
  obtain ⟨library, workspace, inside⟩ := reachable.workspace_runAll_before loaded fuel
  have start := conducted_of_workspace workspace inside
  refine ⟨library, ?_, start.leads (.start _ _ _ _) leads⟩
  obtain ⟨count, steps⟩ := leads
  exact steps.reachable (.start _ _ _ _)

/-- An evaluation in which code makes no mistake but to build a string without end. -/
structure Sound (s : Session) (fuel : Nat) (source file : String) : Prop where
  /-- No code is reported to be malformed. What is reported as an execution that was given
  up was given up at a limit or for an integer. -/
  reported : ∀ d, .reported d ∈ (s.evaluate fuel source file).events →
    d.kind ≠ .malformedBytecode ∧
      (d.kind = .resourceExhausted → ∃ why : Abort, ¬ why.BlamesCode ∧
        d.message = s!"Execution abandoned: {why.message}")
  /-- No failure of the host comes out of the evaluation but that a string is too long. -/
  answered : ∀ f, (s.evaluate fuel source file).result = .error (.host f) →
    f = .outOfRange .overlong
  /-- Whenever an execution or a call inside it is given up, it is for no other reason. -/
  abandoned : ∀ why m, s.Passes fuel source file (.abandon why) m → ¬ why.BlamesCode
  /-- No step fails but where a primitive makes such a string. The steps after it pass the
  failure on. -/
  failed : ∀ a m f m', s.Passes fuel source file a m → step a m = .running (.fault f) m' →
    f = .outOfRange .overlong ∧ (a = .fault f ∨ MakesOverlong a m)
  /-- An evaluation that has the steps that it needs fails like that exactly if it comes past
  such a primitive. -/
  overlong : (s.evaluate fuel source file).result ≠ .error .unfinished →
    ((s.evaluate fuel source file).result = .error .overlong ↔
      ∃ a m, s.Passes fuel source file a m ∧ MakesOverlong a m)

end Session

end MessageMachine
