/-
# Sessions that are watched

A session may trace every instruction and list every program before it runs. Both only add
to what is noticed. `unwatched` is the session that does neither, and it evaluates every text
to the same values or the same failure, in the same heap and image and with the same reports
in the same order, only without trace lines and listings.

That a listing has no effect is not enough, for one that could not be made would keep its
program from running. In a session that there is this does not happen: all methods were
compiled, and a listing walks through compiled code and prints what the constants are at that
moment, cycles included, to its end.
-/

import MessageMachine.Proofs.Listing
import MessageMachine.Proofs.Machine.Observation
import MessageMachine.Proofs.Session.Termination

namespace MessageMachine.Session

open Machine

/-! ## Without observation -/

/-- Something that others notice whether or not the session is watched. -/
def Event.Lasting : Event → Bool
  | .reported d => d.Lasting
  | .wrote _ => false

/-- The session that neither traces nor lists. -/
def unwatched (s : Session) : Session :=
  { s with settings := s.settings.unwatched, listsPrograms := false }

/-- What remains of an outcome without trace lines and listings. -/
def Outcome.unwatched {α : Type} (o : Outcome α) : Outcome α :=
  ⟨o.session.unwatched, o.events.filter Event.Lasting, o.result⟩

variable {s t : Session} {library : List Function}

theorem filter_reported (reports : List Diagnostic) :
    (reports.map Event.reported).filter Event.Lasting =
      (reports.filter Diagnostic.Lasting).map .reported := by
  rw [List.filter_map]
  rfl

theorem filter_listed {program : Ref .method} {listed : List Event}
    (made : s.listProgram program = .ok listed) : listed.filter Event.Lasting = [] := by
  rw [List.filter_eq_nil_iff]
  intro event member
  cases event with
  | reported d => exact absurd member (not_reported_of_listProgram made d)
  | wrote text => exact Bool.false_ne_true

/-- A program does the same in both sessions. -/
theorem runProgram_unwatched (s : Session) (fuel : Nat) (program : Ref .method) :
    s.unwatched.runProgram fuel program = (s.runProgram fuel program).unwatched := by
  have start : idle s.heap s.image s.settings.unwatched =
      (idle s.heap s.image s.settings).unwatched := rfl
  unfold runProgram serve
  simp only [unwatched, start, run_unwatched]
  rw [heap_unwatched, image_unwatched, log_unwatched, Array.toList_filter, ← filter_reported]
  split <;> rfl

/-- So do programs that run one after the other. -/
theorem runAll_unwatched (workspace : Workspace s.heap s.image library) (fuel : Nat)
    (programs : List (Ref .method)) :
    s.unwatched.runAll fuel programs = (s.runAll fuel programs).unwatched := by
  induction programs generalizing s with
  | nil => rfl
  | cons program rest ih =>
    obtain ⟨listed, made⟩ := exists_listProgram workspace.compiled program
    have unlisted : s.unwatched.listProgram program = .ok [] := rfl
    have others := ih (workspace_runProgram workspace fuel program)
    rw [runAll_cons, runAll_cons, made, unlisted, runProgram_unwatched]
    simp only [Outcome.unwatched, List.nil_append] at others ⊢
    cases (s.runProgram fuel program).result with
    | error failure => simp only [List.filter_append, filter_listed made, List.nil_append]
    | ok v => simp only [others, List.filter_append, filter_listed made, List.nil_append]

/-- A text comes to the same. -/
theorem evaluate_unwatched (reachable : s.Reachable) (fuel : Nat) (source file : String) :
    s.unwatched.evaluate fuel source file = (s.evaluate fuel source file).unwatched := by
  obtain ⟨library, workspace⟩ := reachable.workspace
  have heap : s.unwatched.heap = s.heap := rfl
  unfold Session.evaluate
  rw [heap]
  cases loaded : load s.heap source file with
  | error failure => rfl
  | ok done =>
    obtain ⟨⟨library', workspace'⟩, -⟩ := workspace_of_load workspace loaded
    exact runAll_unwatched (s := { s with heap := done.1 }) workspace' fuel done.2

/-! ## Performances -/

/-- A program that was run: its listing right before, and what was reported while it ran. -/
structure Performance where
  program : Ref .method
  listing : String
  reports : List Diagnostic

namespace Performance

/-- What a session that lists its programs, or does not, lets others notice of one. -/
def events (listed : Bool) (p : Performance) : List Event :=
  (if listed then [.wrote p.listing] else []) ++ p.reports.map .reported

/-- The same performance without trace lines. -/
def unwatched (p : Performance) : Performance :=
  { p with reports := p.reports.filter Diagnostic.Lasting }

theorem filter_events (listed : Bool) (performances : List Performance) :
    (performances.flatMap (events listed)).filter Event.Lasting =
      (performances.map unwatched).flatMap (events false) := by
  rw [List.filter_flatMap, List.flatMap_map]
  refine List.flatMap_congr fun p _ => ?_
  have unlisted : (if listed then [Event.wrote p.listing] else []).filter Event.Lasting = [] := by
    cases listed <;> rfl
  rw [events, List.filter_append, unlisted, filter_reported]
  rfl

end Performance

/-- One program after the other is performed, each in the session that the one before it has
left. The first that has no answer is the last. -/
inductive Performs (fuel : Nat) : Session → List (Ref .method) → List Performance → Prop
  | done (s : Session) : Performs fuel s [] []
  | last {s : Session} {program : Ref .method} {rest : List (Ref .method)} {text : String}
      {reports : List Diagnostic} {failure : Failure} :
      s.heap.ListedAs program text →
      (s.runProgram fuel program).events = reports.map .reported →
      (s.runProgram fuel program).result = .error failure →
      Performs fuel s (program :: rest) [⟨program, text, reports⟩]
  | next {s : Session} {program : Ref .method} {rest : List (Ref .method)} {text : String}
      {reports : List Diagnostic} {v : Value} {others : List Performance} :
      s.heap.ListedAs program text →
      (s.runProgram fuel program).events = reports.map .reported →
      (s.runProgram fuel program).result = .ok v →
      Performs fuel (s.runProgram fuel program).session rest others →
      Performs fuel s (program :: rest) (⟨program, text, reports⟩ :: others)

theorem exists_reports (s : Session) (fuel : Nat) (program : Ref .method) :
    ∃ reports : List Diagnostic, (s.runProgram fuel program).events = reports.map .reported := by
  unfold runProgram
  simp only
  split <;> exact ⟨_, rfl⟩

theorem listsPrograms_runProgram (s : Session) (fuel : Nat) (program : Ref .method) :
    (s.runProgram fuel program).session.listsPrograms = s.listsPrograms := by
  rw [session_runProgram]

/-- Every compiled program has a listing, and that is what is written if anything is. -/
theorem exists_listedAs (compiled : s.heap.Compiled library) (program : Ref .method) :
    ∃ text, s.heap.ListedAs program text ∧
      s.listProgram program = .ok (if s.listsPrograms then [.wrote text] else []) := by
  obtain ⟨lines, listed⟩ := compiled.exists_listMethods s.heap.listingRounds [program] [] #[]
  have made : s.heap.listing program = .ok ("\n".intercalate lines.toList) := by
    unfold Heap.listing Heap.listingLines
    rw [listed]
    rfl
  refine ⟨_, Heap.listedAs_of_listing made, ?_⟩
  unfold listProgram
  rw [made]
  split <;> rfl

/-- What is noticed while programs run is what is noticed of one after the other. -/
theorem exists_performs (workspace : Workspace s.heap s.image library) (fuel : Nat)
    (programs : List (Ref .method)) :
    ∃ performances, Performs fuel s programs performances ∧
      (s.runAll fuel programs).events =
        performances.flatMap (Performance.events s.listsPrograms) := by
  induction programs generalizing s with
  | nil => exact ⟨[], .done s, rfl⟩
  | cons program rest ih =>
    obtain ⟨text, listedAs, made⟩ := exists_listedAs workspace.compiled program
    obtain ⟨reports, reported⟩ := exists_reports s fuel program
    obtain ⟨others, performs, noticed⟩ := ih (workspace_runProgram workspace fuel program)
    rw [listsPrograms_runProgram] at noticed
    rw [runAll_cons, made]
    dsimp only
    cases answered : (s.runProgram fuel program).result with
    | error failure =>
      refine ⟨_, .last listedAs reported answered, ?_⟩
      rw [reported]
      exact (List.append_nil _).symm
    | ok v =>
      refine ⟨_, .next listedAs reported answered performs, ?_⟩
      dsimp only
      rw [noticed, reported]
      rfl

/-- The same programs are performed when nobody watches, with the same listings. -/
theorem Performs.unwatched {fuel : Nat} {programs : List (Ref .method)}
    {performances : List Performance} (performs : Performs fuel s programs performances) :
    Performs fuel s.unwatched programs (performances.map Performance.unwatched) := by
  have reported {s : Session} {program : Ref .method} {reports : List Diagnostic}
      (events : (s.runProgram fuel program).events = reports.map .reported) :
      (s.unwatched.runProgram fuel program).events =
        (reports.filter Diagnostic.Lasting).map .reported := by
    rw [runProgram_unwatched, ← filter_reported, ← events]
    rfl
  induction performs with
  | done s => exact .done _
  | last listedAs events answered =>
    exact .last listedAs (reported events) (by rw [runProgram_unwatched]; exact answered)
  | next listedAs events answered _ ih =>
    refine .next listedAs (reported events) (by rw [runProgram_unwatched]; exact answered) ?_
    rw [runProgram_unwatched]
    exact ih

/-- If all have answers, all are performed. -/
theorem Performs.programs {fuel : Nat} {programs : List (Ref .method)}
    {performances : List Performance} (performs : Performs fuel s programs performances) :
    performances.map Performance.program <+: programs ∧
      ∀ values, (s.runAll fuel programs).result = .ok values →
        performances.map Performance.program = programs := by
  induction performs with
  | done s => exact ⟨List.prefix_refl _, fun _ _ => rfl⟩
  | @last s program rest text reports failure listedAs events answered =>
    refine ⟨⟨rest, rfl⟩, fun values all => ?_⟩
    rw [runAll_cons] at all
    split at all
    · cases all
    · dsimp only at all
      rw [answered] at all
      cases all
  | @next s program rest text reports v others listedAs events answered _ ih =>
    refine ⟨(List.prefix_cons_inj program).2 ih.1, fun values all => ?_⟩
    rw [runAll_cons] at all
    split at all
    · cases all
    · dsimp only at all
      rw [answered] at all
      dsimp only at all
      cases later : ((s.runProgram fuel program).session.runAll fuel rest).result with
      | error failure =>
        rw [later] at all
        cases all
      | ok results => exact congrArg (program :: ·) (ih.2 results later)

/-! ## Two sessions -/

/-- Sessions with the same limits that have evaluated the same texts, however much is to be
noticed of the first. The second neither traces nor lists. -/
inductive Companions : Session → Session → Prop
  | create (limits : Settings) (trace listsPrograms : Bool) :
      Companions (create { limits with trace := trace } listsPrograms)
        (create { limits with trace := false } false)
  | evaluate {s t : Session} (fuel : Nat) (source file : String) :
      Companions s t →
      Companions (s.evaluate fuel source file).session (t.evaluate fuel source file).session

theorem Companions.reachable (companions : Companions s t) : s.Reachable := by
  induction companions with
  | create limits trace listsPrograms => exact .create _ _
  | evaluate fuel source file _ ih => exact .evaluate fuel source file ih

theorem Companions.eq_unwatched (companions : Companions s t) : t = s.unwatched := by
  induction companions with
  | create limits trace listsPrograms => rfl
  | evaluate fuel source file before ih =>
    rw [ih, evaluate_unwatched before.reachable]
    rfl

/-- An evaluation by two sessions that shows no difference but in what is noticed. -/
structure EvaluatesAlike (s t : Session) (fuel : Nat) (source file : String) : Prop where
  /-- Both come to the same values, or fail in the same way. -/
  result : (t.evaluate fuel source file).result = (s.evaluate fuel source file).result
  /-- They leave the same heap, the same image and the same limits. -/
  session : (t.evaluate fuel source file).session = (s.evaluate fuel source file).session.unwatched
  /-- The reports are the same in the same order, less the trace lines of the first. The second
  makes no trace line and writes nothing. -/
  events : (t.evaluate fuel source file).events =
    (s.evaluate fuel source file).events.filter Event.Lasting
  /-- Of a text that is not loaded nothing is noticed. -/
  unloaded : ∀ failure, load s.heap source file = .error failure →
    (s.evaluate fuel source file).events = []
  /-- The programs of a text that is loaded are performed one after the other. If the first
  session lists them, it writes the listing of each right before the program runs, one for each that
  does, and beyond this each session lets others notice what the program reports. -/
  performed : ∀ heap programs, load s.heap source file = .ok (heap, programs) →
    ∃ performances,
      Performs fuel { s with heap := heap } programs performances ∧
      Performs fuel { t with heap := heap } programs (performances.map Performance.unwatched) ∧
      performances.map Performance.program <+: programs ∧
      (s.evaluate fuel source file).events =
        performances.flatMap (Performance.events s.listsPrograms) ∧
      (t.evaluate fuel source file).events =
        (performances.map Performance.unwatched).flatMap (Performance.events false)
  /-- With as many steps as the limits allow, all of them are performed and have values, unless
  one makes a string that is too long. -/
  finished : ∀ heap programs, load s.heap source file = .ok (heap, programs) →
    s.settings.allowance < fuel → (s.evaluate fuel source file).result ≠ .error .overlong →
    (∃ values, (s.evaluate fuel source file).result = .ok values ∧
      values.length = programs.length) ∧
    ∀ performances, Performs fuel { s with heap := heap } programs performances →
      performances.map Performance.program = programs
  /-- If the values are to be printed, both print the same lines at the end. -/
  printed : ∃ lines : List String,
    (s.evaluateAndPrint fuel source file).events =
      (s.evaluate fuel source file).events ++ lines.map .wrote ∧
    (t.evaluateAndPrint fuel source file).events =
      (t.evaluate fuel source file).events ++ lines.map .wrote ∧
    (t.evaluateAndPrint fuel source file).result = (s.evaluateAndPrint fuel source file).result

/-- The lines that are printed at the end are those of the values in the heap at the end. -/
theorem exists_lines (s : Session) (fuel : Nat) (source file : String) :
    ∃ lines : List String,
      (s.evaluateAndPrint fuel source file).events =
        (s.evaluate fuel source file).events ++ lines.map .wrote ∧
      ∀ t : Session,
        (t.evaluate fuel source file).result = (s.evaluate fuel source file).result →
        (t.evaluate fuel source file).session.heap = (s.evaluate fuel source file).session.heap →
        (t.evaluateAndPrint fuel source file).events =
          (t.evaluate fuel source file).events ++ lines.map .wrote ∧
        (t.evaluateAndPrint fuel source file).result =
          (s.evaluateAndPrint fuel source file).result := by
  unfold evaluateAndPrint
  dsimp only
  cases results : (s.evaluate fuel source file).result with
  | error failure =>
    refine ⟨[], (List.append_nil _).symm, fun t same _ => ?_⟩
    rw [same]
    exact ⟨(List.append_nil _).symm, rfl⟩
  | ok values =>
    refine ⟨values.map (s.evaluate fuel source file).session.heap.print, ?_, ?_⟩
    · rw [List.map_map]
      rfl
    · intro t same heap
      rw [same, heap, List.map_map]
      exact ⟨rfl, rfl⟩

/-- Whether a session is watched makes no difference to what it does. -/
theorem evaluatesAlike_of_companions (companions : Companions s t) (fuel : Nat)
    (source file : String) : EvaluatesAlike s t fuel source file := by
  have reachable := companions.reachable
  have evaluated := evaluate_unwatched reachable fuel source file
  obtain ⟨library, workspace⟩ := reachable.workspace
  rw [companions.eq_unwatched]
  constructor
  case result => rw [evaluated]; rfl
  case session => rw [evaluated]; rfl
  case events => rw [evaluated]; rfl
  case unloaded =>
    intro failure failed
    rw [evaluate_of_load failed]
  case performed =>
    intro heap programs loaded
    obtain ⟨⟨library', workspace'⟩, -⟩ := workspace_of_load workspace loaded
    have start : Workspace ({ s with heap := heap } : Session).heap s.image library' := workspace'
    obtain ⟨performances, performs, noticed⟩ := exists_performs start fuel programs
    have ran : s.evaluate fuel source file = _ := evaluate_eq_runAll loaded
    have events := ran ▸ noticed
    refine ⟨performances, performs, performs.unwatched, performs.programs.1, events, ?_⟩
    rw [evaluated, ← Performance.filter_events s.listsPrograms, ← events]
    rfl
  case finished =>
    intro heap programs loaded enough fits
    obtain ⟨⟨library', workspace'⟩, inside⟩ := workspace_of_load workspace loaded
    rw [evaluate_eq_runAll loaded] at fits ⊢
    obtain ⟨values, answered, length⟩ :=
      (ends_runAll (s := { s with heap := heap }) workspace' inside enough).1.resolve_right fits
    exact ⟨⟨values, answered, length⟩, fun _ performs => performs.programs.2 values answered⟩
  case printed =>
    obtain ⟨lines, printed, others⟩ := exists_lines s fuel source file
    obtain ⟨printed', results⟩ := others s.unwatched (by rw [evaluated]; rfl)
      (by rw [evaluated]; rfl)
    exact ⟨lines, printed, printed', results⟩

/-- A list that was made into a ring, in a session that lists and traces. -/
theorem evaluatesAlike_ring :
    EvaluatesAlike
      ((create { Settings.standard with trace := true } true).evaluate 1000
        "(define ring (quote (1 2))) (setTail ring ring)" "a").session
      ((create { Settings.standard with trace := false } false).evaluate 1000
        "(define ring (quote (1 2))) (setTail ring ring)" "a").session
      1000 "(head ring)" "b" :=
  evaluatesAlike_of_companions (.evaluate _ _ _ (.create .standard true true)) _ _ _

/-- A form that is a constant has two instructions: one listing is written, and two lines are
traced. -/
example :
    ((create { Settings.standard with trace := true } true).evaluate 10 "1" "a").events.map
      Event.Lasting = [false, false, false] := by
  decide +kernel

end MessageMachine.Session
