/-
# All or nothing

An evaluation fails before anything happens or it comes to its end, as long as no string
gets too long. What can fail is reading and compiling, which is done for all of a text
first. From then on nothing else fails: every program that was compiled can be listed, and
it answers a value whatever goes wrong in it. So a failure leaves the session that there
was, with nothing reported or written and no instruction executed, and otherwise there is
one value for each form, in order. A string that gets too long on the way is the exception:
it ends the evaluation in the middle, and what was done up to there is kept.

In a dialogue this means that lines that cannot be loaded might as well have been left
out. The other lines have the same results and definitions, and the same is reported and
written, but for the numbers of the lines, which are part of all places.
-/

import MessageMachine.CommandLine
import MessageMachine.Proofs.Heap.Unfolding
import MessageMachine.Proofs.Session.Relocation
import MessageMachine.Proofs.Session.Termination

namespace MessageMachine.Session

open CommandLine (Output prompt replLine replLines)

variable {s : Session} {library : List Function}

/-! ## Failures -/

theorem evaluateAndPrint_of_load {fuel : Nat} {source file : String} {failure : Failure}
    (failed : load s.heap source file = .error failure) :
    s.evaluateAndPrint fuel source file = ⟨s, [], .error failure⟩ := by
  unfold evaluateAndPrint
  rw [evaluate_of_load failed]

/-- An evaluation that fails for another reason did not get beyond loading. -/
theorem Reachable.load_of_failed (reachable : s.Reachable) {fuel : Nat} {source file : String}
    {failure : Failure} (failed : (s.evaluate fuel source file).result = .error failure)
    (early : ¬ failure.Late) : load s.heap source file = .error failure := by
  obtain ⟨library, workspace⟩ := reachable.workspace
  cases loaded : load s.heap source file with
  | error failure' =>
    rw [evaluate_of_load loaded] at failed
    cases failed
    rfl
  | ok done =>
    obtain ⟨heap, programs⟩ := done
    rw [evaluate_eq_runAll loaded] at failed
    obtain ⟨⟨library', workspace'⟩, inside⟩ := workspace_of_load workspace loaded
    exact absurd (late_of_runAll (s := { s with heap := heap }) workspace' inside failed) early

theorem result_of_evaluateAndPrint {fuel : Nat} {source file : String} {failure : Failure}
    (failed : (s.evaluateAndPrint fuel source file).result = .error failure) :
    (s.evaluate fuel source file).result = .error failure := by
  unfold evaluateAndPrint at failed
  simp only at failed
  split at failed
  next result =>
    cases failed
    exact result
  · cases failed

/-! ## Values -/

/-- The programs of stored forms, in order. Each was compiled when the heap held the form. -/
inductive Compiles (file : String) : Heap → List Reader.Form → Heap → List (Ref .method) → Prop
  | nil {h : Heap} : Compiles file h [] h []
  | cons {h h₁ h₂ : Heap} {form : Reader.Form} {rest : List Reader.Form} {v : Value}
      {program : Ref .method} {programs : List (Ref .method)} :
      h.Unfolds (Heap.Notes file) v form.datum →
      h.compile v (some (form.place.inFile file)) Heap.programName = .ok (h₁, program) →
      Compiles file h₁ rest h₂ programs → Compiles file h (form :: rest) h₂ (program :: programs)

/-- The values that programs answer, each in the session that those before it left. -/
inductive Answers (fuel : Nat) : Session → List (Ref .method) → List Value → Session → Prop
  | nil {s : Session} : Answers fuel s [] [] s
  | cons {s t : Session} {program : Ref .method} {rest : List (Ref .method)} {v : Value}
      {values : List Value} :
      (s.runProgram fuel program).result = .ok v →
      Answers fuel (s.runProgram fuel program).session rest values t →
      Answers fuel s (program :: rest) (v :: values) t

theorem Compiles.length {file : String} {h h' : Heap} {forms : List Reader.Form}
    {programs : List (Ref .method)} (compiles : Compiles file h forms h' programs) :
    programs.length = forms.length := by
  induction compiles with
  | nil => rfl
  | cons _ _ _ ih => exact congrArg Nat.succ ih

theorem Answers.length {fuel : Nat} {t : Session} {programs : List (Ref .method)}
    {values : List Value} (answers : Answers fuel s programs values t) :
    values.length = programs.length := by
  induction answers with
  | nil => rfl
  | cons _ _ ih => exact congrArg Nat.succ ih

/-- Compiling takes nothing away that was stored. -/
theorem keeps_of_compile {h h' : Heap} {v : Value} {location : Option Location} {name : String}
    {program : Ref .method} (made : h.compile v location name = .ok (h', program)) :
    h.Keeps h' := by
  obtain ⟨_, _, _, makes, -⟩ := makes_of_compile made
  have data := makes.data
  rw [← data]
  exact ⟨id, id⟩

theorem compiles_of_foldlM {file : String} {stored : List Heap.Stored} {forms : List Reader.Form}
    {done loaded : Heap × Array (Ref .method)}
    (holds : List.Forall₂ (done.1.Holds file) stored forms)
    (compiled : stored.foldlM compileNext done = .ok loaded) :
    ∃ programs, loaded.2.toList = done.2.toList ++ programs ∧
      Compiles file done.1 forms loaded.1 programs := by
  induction stored generalizing forms done with
  | nil =>
    cases holds
    cases compiled
    exact ⟨[], (List.append_nil _).symm, .nil⟩
  | cons stored rest ih =>
    obtain ⟨h, before⟩ := done
    obtain ⟨form, forms, ⟨unfolds, here⟩, later, rfl⟩ := List.forall₂_cons_left_iff.1 holds
    rw [List.foldlM_cons] at compiled
    obtain ⟨next, first, others⟩ := exists_of_bind_eq_ok compiled
    unfold compileNext at first
    simp only at first
    split at first
    · cases first
    next h' program made =>
      cases first
      have keeps := keeps_of_compile made
      obtain ⟨programs, all, compiles⟩ :=
        ih (later.imp fun _ _ held => ⟨held.1.mono keeps, held.2⟩) others
      rw [Array.toList_push, List.append_assoc] at all
      rw [here] at made
      exact ⟨program :: programs, all, .cons unfolds made compiles⟩

theorem compiles_of_load {h heap : Heap} {source file : String} {programs : List (Ref .method)}
    (loaded : load h source file = .ok (heap, programs)) :
    ∃ forms, Reader.forms source = .ok forms ∧
      Compiles file (h.storeForms file forms).1 forms heap programs := by
  obtain ⟨forms, all, read, compiled, rfl⟩ := exists_foldlM_of_load loaded
  obtain ⟨programs, same, compiles⟩ :=
    compiles_of_foldlM (h.holds_storeForms file forms).2 compiled
  refine ⟨forms, read, ?_⟩
  rw [same]
  exact compiles

/-- The name that a dialogue gives to the text of a line. -/
def lineName (number : Nat) : String := s!"<repl:{number}>"

/-- The name of another line for the name of a line. Other names stay as they are. -/
def renumbered (number : Nat → Nat) (file : String) : String :=
  let n := Nat.ofDigitChars 10 (file.toList.drop 6).dropLast 0
  if file = lineName n then lineName (number n) else file

theorem renumbered_lineName (number : Nat → Nat) (n : Nat) :
    renumbered number (lineName n) = lineName (number n) := by
  have text : (lineName n).toList = "<repl:".toList ++ (Nat.toDigits 10 n ++ ['>']) := by
    show ("<repl:" ++ toString n ++ ">").toList = _
    rw [String.toList_append, String.toList_append, Nat.toString_eq_ofList_toDigits,
      @String.toList_ofList (Nat.toDigits 10 n), List.append_assoc]
    rfl
  have digits : Nat.ofDigitChars 10 ((lineName n).toList.drop 6).dropLast 0 = n := by
    have six : "<repl:".toList.length = 6 := rfl
    rw [text, ← six, List.drop_left, List.dropLast_concat, Nat.ofDigitChars_ten_toDigits]
  unfold renumbered
  simp only [digits, if_true]

/-! ## Dialogues -/

/-- A line of a dialogue and what became of it. -/
structure Turn where
  number : Nat
  text : String
  outcome : Outcome Unit

/-- The turns of a dialogue. -/
def turns (s : Session) (fuel number : Nat) : List String → List Turn
  | [] => []
  | text :: rest =>
    let outcome := s.evaluateAndPrint fuel text (lineName number)
    ⟨number, text, outcome⟩ :: outcome.session.turns fuel (number + 1) rest

namespace Turn

/-- The line failed before any of it ran. -/
def Failed (t : Turn) : Prop :=
  ∃ failure, t.outcome.result = .error failure ∧ ¬ failure.Late

/-- The turn with other numbers for all lines. -/
def renumber (number : Nat → Nat) (t : Turn) : Turn :=
  ⟨number t.number, t.text, t.outcome.renamed (renumbered number)⟩

end Turn

/-- Some of the lines that failed are left out. -/
inductive Omits : List Turn → List Turn → Prop
  | nil : Omits [] []
  | keep {t : Turn} {turns kept : List Turn} : Omits turns kept → Omits (t :: turns) (t :: kept)
  | drop {t : Turn} {turns kept : List Turn} : t.Failed → Omits turns kept → Omits (t :: turns) kept

/-- The sessions of dialogues, with the number of the line that comes next. -/
inductive InDialogue : Session → Nat → Prop
  | start (settings : Settings) (listsPrograms : Bool) :
      InDialogue (create settings listsPrograms) 1
  | next {s : Session} {number : Nat} (fuel : Nat) (line : String) : InDialogue s number →
      InDialogue (s.evaluateAndPrint fuel line (lineName number)).session (number + 1)

theorem session_evaluateAndPrint (s : Session) (fuel : Nat) (source file : String) :
    (s.evaluateAndPrint fuel source file).session = (s.evaluate fuel source file).session := by
  unfold evaluateAndPrint
  simp only
  split
  · rfl
  · rfl

theorem Reachable.evaluateAndPrint (reachable : s.Reachable) (fuel : Nat) (source file : String) :
    (s.evaluateAndPrint fuel source file).session.Reachable := by
  rw [session_evaluateAndPrint]
  exact .evaluate _ _ _ reachable

theorem InDialogue.reachable {number : Nat} (there : s.InDialogue number) : s.Reachable := by
  induction there with
  | start settings listsPrograms => exact .create _ _
  | next fuel line _ ih => exact ih.evaluateAndPrint _ _ _

/-- A line that failed leaves everything as it was. -/
theorem Turn.Failed.session_eq (reachable : s.Reachable) {fuel number : Nat} {line : String}
    (failed : Failed ⟨number, line, s.evaluateAndPrint fuel line (lineName number)⟩) :
    (s.evaluateAndPrint fuel line (lineName number)).session = s := by
  obtain ⟨failure, failed, early⟩ := failed
  have loaded := reachable.load_of_failed (result_of_evaluateAndPrint failed) early
  rw [evaluateAndPrint_of_load loaded]

/-- A dialogue goes on in the same way if lines that fail are left out of it. -/
theorem Omits.spares {fuel first next : Nat} {lines : List String} {kept : List Turn} {t : Session}
    {number : Nat → Nat} (omits : Omits (t.turns fuel next lines) kept) (reachable : s.Reachable)
    (reachable' : t.Reachable) (same : s.renamed (renumbered number) = t)
    (numbered : ∀ index turn, kept[index]? = some turn → number (first + index) = turn.number) :
    (s.turns fuel first (kept.map (·.text))).map (.renumber number) = kept := by
  induction lines generalizing s t first next kept with
  | nil =>
    cases omits
    rfl
  | cons line rest ih =>
    cases omits with
    | @keep _ _ kept omits =>
      have here : number first = next := numbered 0 _ rfl
      have moved :=
        reachable.evaluateAndPrint_renamed (renumbered number) fuel line (lineName first)
      rw [same, renumbered_lineName, here] at moved
      have rest : ∀ index turn, kept[index]? = some turn →
          number (first + 1 + index) = turn.number := by
        intro index turn found
        rw [Nat.add_assoc, Nat.add_comm 1]
        exact numbered (index + 1) turn found
      have later := ih omits (reachable.evaluateAndPrint _ _ _) (reachable'.evaluateAndPrint _ _ _)
        (congrArg Outcome.session moved).symm rest
      rw [List.map_cons, turns, List.map_cons, later, Turn.renumber, here, moved]
    | drop failed omits =>
      rw [failed.session_eq reachable'] at omits
      exact ih omits reachable reachable' same numbered

/-! ## Reading lines -/

/-- What is written out about a line, with the next prompt. -/
def Turn.output (t : Turn) : Output :=
  let output := t.outcome.events.foldl Output.event .empty
  let told :=
    match t.outcome.result with
    | .ok () => output
    | .error failure => output.errorLine s!"Error: {failure.message}"
  { told.write prompt with code := 0 }

end MessageMachine.Session
