/-
# Compiled programs do what they say

The simulation holds for any number of calls, by induction on it. From it follows that
running a compiled program and evaluating the expression directly have the same
results. A run that ends is followed from more calls than it has steps, so that the
evaluation cannot be unfinished; an evaluation that has a result is followed to that
result. Runs and evaluations are functions, so nothing else can come of either.

The expression is the one that the value was when it was compiled. It is evaluated in
whatever workspace the program is run in, which may be a later one.
-/

import MessageMachine.Proofs.Compiler.Simulation
import MessageMachine.Proofs.Compiler.Workspace

namespace MessageMachine

namespace Machine

open Evaluation

variable {library : List Function}

/-! ## Any number of calls -/

theorem follows (library : List Function) (calls : Nat) :
    Simulates library calls ∧ Serves library calls := by
  induction calls with
  | zero =>
    have sends : Sends library 0 := sends_of fun c none_ => nomatch none_
    refine ⟨fun x form p q us k codes ex => follows_eval sends form codes ex, ?_⟩
    intro m callable args _ _
    exact ⟨_, m, .zero⟩
  | succ calls ih =>
    obtain ⟨simulates, serves⟩ := ih
    have sends : Sends library (calls + 1) := by
      apply sends_of
      rintro c same
      cases same
      exact ⟨simulates, serves⟩
    refine ⟨fun x form p q us k codes ex => follows_eval sends form codes ex, ?_⟩
    intro m callable args some_ running
    cases callable with
    | method r => exact serves_method simulates some_ running
    | primitive p => exact serves_primitive serves running

/-! ## Programs -/

/-- A program is a function without parameters. -/
theorem follows_execute {m : Machine} {program : Ref .method} {name : String} {form : Form}
    (running : Running library (.request (.execute program)) m)
    (found : library[program.index]? = some ⟨name, [], form⟩) (calls : Nat) :
    Follows (calls + 1) (.request (.execute program)) m (fun v b k => b = .reply v ∧ Restored m k)
      (Restored m) (Evaluation.program library calls form m.world) := by
  have argCount : (m.heap.method program).argCount = 0 :=
    (implements_of_compiled running found).argCount
  have ran : step (.request (.execute program)) m =
      .ofActivity (begin m program m.stackTop 0) := by
    simp only [step, enter, argCount, if_true]
  have arity : ([] : List String).length = ([] : List Value).length := rfl
  exact follows_begin (follows library calls).1 running found arity ran

/-- What a completion is as the result of an evaluation. -/
def Completion.result : Completion → Except Stop Value
  | .answer v => .ok v
  | .fault f => .error (.failed f)

theorem Completion.result_injective {c d : Completion} (same : c.result = d.result) : c = d := by
  cases c <;> cases d <;> cases same <;> rfl

/-- Where a machine outside all entries follows an evaluation to its end, its run ends. -/
theorem Follows.completes {calls : Nat} {a : Activity} {m : Machine} {x : Evaluation Value}
    {w w' : World} {result : Except Stop Value} (outside : m.entries = [])
    (follows : Follows calls a m (fun v b k => b = .reply v ∧ Restored m k) (Restored m)
      (Evaluation.contain x w)) (ended : Evaluation.contain x w = some (result, w')) :
    ∃ completion fuel k, run fuel a m = (some completion, k) ∧ completion.result = result ∧
      k.world = w' := by
  rw [ended] at follows
  match result, follows with
  | .ok v, follows =>
    obtain ⟨b, k, ⟨count, steps⟩, world, rfl, restored⟩ := follows
    have last : run 1 (.reply v) k = (some (.answer v), k) := by
      simp only [run, Machine.step, restored.entries.trans outside]
    exact ⟨.answer v, count + 1, k, (run_of_stepsIn steps 1).trans last, rfl, world⟩
  | .error (.failed f), follows =>
    obtain ⟨k, ⟨count, steps⟩, world, restored⟩ := follows
    have last : run 1 (.fault f) k = (some (.fault f), k) := by
      simp only [run, Machine.step, restored.entries.trans outside]
    exact ⟨.fault f, count + 1, k, (run_of_stepsIn steps 1).trans last, rfl, world⟩
  | .error (.abandoned why), _ => exact absurd ended contain_ne_abandoned

/-- Running a program and evaluating its form come to the same end. -/
theorem completes_iff {m : Machine} {program : Ref .method} {name : String} {form : Form}
    (running : Running library (.request (.execute program)) m) (outside : m.entries = [])
    (found : library[program.index]? = some ⟨name, [], form⟩) (completion : Completion)
    (w : World) :
    (∃ fuel k, m.serve fuel (.execute program) = (some completion, k) ∧ k.world = w) ↔
      ∃ calls, Evaluation.program library calls form m.world = some (completion.result, w) := by
  constructor
  · rintro ⟨fuel, k, ended, rfl⟩
    refine ⟨fuel, ?_⟩
    have followed := follows_execute running found fuel
    cases evaluated : Evaluation.program library fuel form m.world with
    | none =>
      rw [evaluated] at followed
      obtain ⟨b, l, steps⟩ := followed
      obtain ⟨b, l, shorter⟩ := steps.take (Nat.le_succ fuel)
      have unfinished : run fuel _ m = (none, l) := run_of_stepsIn shorter 0
      rw [serve, unfinished] at ended
      cases ended
    | some outcome =>
      obtain ⟨completion', fuel', k', ended', result, world⟩ := followed.completes outside evaluated
      obtain ⟨rfl, rfl⟩ := run_unique ended ended'
      rw [result, world]
  · rintro ⟨calls, evaluated⟩
    obtain ⟨completion', fuel, k, ended, result, world⟩ :=
      (follows_execute running found calls).completes outside evaluated
    cases Completion.result_injective result
    exact ⟨fuel, k, ended, world⟩

/-! ## Runs that stay within the limits -/

/-- Whether an activity gives something up for lack of frames or of stack. -/
def Activity.exceeds : Activity → Bool
  | .abandon (.exhausted (.frames _ _)) | .abandon (.exhausted (.segment _ _)) => true
  | _ => false

/-- Whether a run ends within some steps and never exceeds a limit. -/
def staysWithin : Nat → Activity → Machine → Bool
  | 0, _, _ => false
  | fuel + 1, a, m =>
    !a.exceeds &&
      match step a m with
      | .running b k => staysWithin fuel b k
      | .finished _ _ => true

theorem unlimited_of_staysWithin {fuel : Nat} {a : Activity} {m : Machine}
    (stays : staysWithin fuel a m = true) : Unlimited a m := by
  rintro k what ⟨count, steps⟩
  induction fuel generalizing a m count with
  | zero => cases stays
  | succ fuel ih =>
    simp only [staysWithin, Bool.and_eq_true] at stays
    obtain ⟨here, later⟩ := stays
    cases steps with
    | zero =>
      cases what with
      | operands method capacity => exact id
      | frames limit method => cases here
      | segment limit method => cases here
    | succ ran rest =>
      rw [ran] at later
      exact ih later _ rest

end Machine

/-! ## Compiled values -/

open Machine

/-- Running the program of a compiled value answers what the direct evaluation of the
expression gives, with the same heap, globals and classes left behind and the same
reports made in the same order. The expression is the one that the value was when it
was compiled, and the program may be run in any later workspace. -/
theorem Workspace.answers_iff_program {h h' : Heap} {image : Image} {library : List Function}
    {v : Value} {location : Option Location} {name : String} {program : Ref .method}
    (workspace : Workspace h image library)
    (compiled : h.compile v location name = .ok (h', program)) :
    ∃ form functions, Reads h h.methods.size v form functions ∧
      Workspace h' image (library ++ (functions ++ [⟨name, [], form⟩])) ∧
      ∀ {now : Heap} {image' : Image} {library' : List Function} (settings : Settings),
        Workspace now image' library' →
        library ++ (functions ++ [⟨name, [], form⟩]) <+: library' →
        Unlimited (.request (.execute program)) (idle now image' settings) →
        ∀ (r : Value) (w : World),
          (∃ fuel m, (idle now image' settings).serve fuel (.execute program) =
            (some (.answer r), m) ∧ m.world = w) ↔
          ∃ calls, Evaluation.program library' calls form ⟨now, image', []⟩ = some (.ok r, w) := by
  obtain ⟨form, functions, reads, -, -⟩ := makes_of_compile compiled
  refine ⟨form, functions, reads, .compile workspace compiled reads, ?_⟩
  intro now image' library' settings workspace' extends_ unlimited r w
  have running : Running library' (.request (.execute program)) (idle now image' settings) :=
    ⟨.start _ _ _ _, unlimited, workspace'.compiled⟩
  have index := (workspace.compiled.compile compiled reads).2
  have last : (library ++ (functions ++ [⟨name, [], form⟩]))[program.index]? =
      some ⟨name, [], form⟩ := by
    rw [index, List.getElem?_append_right (Nat.le_add_right ..), Nat.add_sub_cancel_left,
      List.getElem?_append_right (Nat.le_refl _), Nat.sub_self]
    rfl
  have found : library'[program.index]? = some ⟨name, [], form⟩ := by
    obtain ⟨rest, rfl⟩ := extends_
    rw [List.getElem?_append_left (List.getElem?_eq_some_iff.1 last).1]
    exact last
  exact completes_iff running rfl found (.answer r) w

/-- The expression `(begin (define x 40) (+ x 2))` as a value. -/
def Heap.answerForm (h : Heap) : Heap × Value :=
  let (h, binding) := h.list [.symbol "define", .symbol "x", .integer 40]
  let (h, sum) := h.list [.symbol "+", .symbol "x", .integer 2]
  h.list [.symbol "begin", binding, sum]

theorem Workspace.answerForm {h : Heap} {image : Image} {library : List Function}
    (workspace : Workspace h image library) : Workspace h.answerForm.1 image library :=
  workspace.data ⟨rfl, rfl, rfl⟩

theorem answers_iff_program_answerForm :
    ∃ h' program form library,
      (Image.create .empty none false).1.answerForm.1.compile
        (Image.create .empty none false).1.answerForm.2 none Heap.programName = .ok (h', program) ∧
      Workspace h' (Image.create .empty none false).2 library ∧
      Unlimited (.request (.execute program))
        (idle h' (Image.create .empty none false).2 .standard) ∧
      ∀ (r : Value) (w : World),
        (∃ fuel m, (idle h' (Image.create .empty none false).2 .standard).serve fuel
          (.execute program) = (some (.answer r), m) ∧ m.world = w) ↔
        ∃ calls, Evaluation.program library calls form
          ⟨h', (Image.create .empty none false).2, []⟩ = some (.ok r, w) := by
  have stays : ((Image.create .empty none false).1.answerForm.1.compile
      (Image.create .empty none false).1.answerForm.2 none Heap.programName).toOption.any
      (fun done => staysWithin 40 (.request (.execute done.2))
        (idle done.1 (Image.create .empty none false).2 .standard)) = true := by decide +kernel
  cases compiled : (Image.create .empty none false).1.answerForm.1.compile
      (Image.create .empty none false).1.answerForm.2 none Heap.programName with
  | error failure =>
    rw [compiled] at stays
    cases stays
  | ok done =>
    obtain ⟨h', program⟩ := done
    rw [compiled] at stays
    have unlimited := unlimited_of_staysWithin stays
    obtain ⟨form, functions, -, workspace, answers⟩ :=
      Workspace.answers_iff_program Workspace.fresh.answerForm compiled
    exact ⟨h', program, form, _, rfl, workspace, unlimited,
      answers .standard workspace (List.prefix_refl _) unlimited⟩

end MessageMachine
