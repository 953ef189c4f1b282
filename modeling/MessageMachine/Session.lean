/-
# Sessions

A session is one image with the settings for its thread; what a text defines is
there for the next. A text is evaluated in two stages. First all of it is read
and compiled, and if that fails nothing has happened. Then its programs run in
order, each reporting what goes wrong in it and answering some value.

Reports and listings are kept in the order in which they arise, as events.
-/

import MessageMachine.Expr.Code
import MessageMachine.Heap.Store
import MessageMachine.Image.Standard
import MessageMachine.Machine.Step

namespace MessageMachine

structure Session where
  heap : Heap
  image : Image
  settings : Settings
  /-- List each program before it runs. -/
  listsPrograms : Bool

namespace Session

/-- A session on a new standard image. -/
def create (settings : Settings) (listsPrograms : Bool) : Session :=
  let (heap, image) := Image.create .empty none false
  ⟨heap, image, settings, listsPrograms⟩

instance : Inhabited Session := ⟨create .standard false⟩

/-- Something that others notice. -/
inductive Event
  | reported (d : Diagnostic)
  | wrote (text : String)
  deriving DecidableEq, Repr

/-- Why a text was not evaluated to its end. -/
inductive Failure
  | unreadable (fault : Reader.Fault) (file : String)
  | uncompiled (failure : CompileFailure)
  | unlisted (fault : MalformedCode)
  | host (fault : HostFault)
  /-- The fuel did not suffice. -/
  | unfinished
  deriving DecidableEq

def Failure.message : Failure → String
  | unreadable fault file => fault.message file
  | uncompiled failure => failure.message
  | unlisted fault => fault.message
  | host fault => fault.message
  | unfinished => "Out of fuel"

/-! ## Reading and compiling -/

/-- Compile one more top-level value, behind those already compiled. -/
def compileNext (done : Heap × Array (Ref .method)) (stored : Heap.Stored) :
    Except CompileFailure (Heap × Array (Ref .method)) :=
  let (h, programs) := done
  match h.compile stored.value (some stored.location) Heap.programName with
  | .error failure => .error failure
  | .ok (h, program) => .ok (h, programs.push program)

/-- Compile top-level values in order. The first that fails ends it. -/
def compileAll (h : Heap) (values : List Heap.Stored) :
    Except CompileFailure (Heap × List (Ref .method)) :=
  (values.foldlM compileNext (h, #[])).map fun (h, programs) => (h, programs.toList)

/-- The programs of a text, in a heap that holds them. -/
def load (h : Heap) (source file : String) : Except Failure (Heap × List (Ref .method)) :=
  match Reader.forms source with
  | .error fault => .error (.unreadable fault file)
  | .ok forms =>
    let (h, stored) := h.storeForms file forms
    match compileAll h stored with
    | .error failure => .error (.uncompiled failure)
    | .ok loaded => .ok loaded

/-! ## Running -/

/-- What became of an evaluation. -/
structure Outcome (α : Type) where
  session : Session
  events : List Event
  result : Except Failure α

/-- Run one program. -/
def runProgram (s : Session) (fuel : Nat) (program : Ref .method) : Outcome Value :=
  let (completion, m) := (Machine.idle s.heap s.image s.settings).serve fuel (.execute program)
  let s := { s with heap := m.heap, image := m.image }
  let events := m.log.toList.map Event.reported
  match completion with
  | some (.answer v) => ⟨s, events, .ok v⟩
  | some (.fault f) => ⟨s, events, .error (.host f)⟩
  | none => ⟨s, events, .error .unfinished⟩

/-- List a program, if the session does that. -/
def listProgram (s : Session) (program : Ref .method) : Except Failure (List Event) :=
  if s.listsPrograms then
    match s.heap.listing program with
    | .ok text => .ok [.wrote text]
    | .error fault => .error (.unlisted fault)
  else .ok []

/-- Run programs in order, after those that have reported the events and given
the values so far. -/
def runAfter (s : Session) (fuel : Nat) (events : Array Event) (values : Array Value) :
    List (Ref .method) → Outcome (List Value)
  | [] => ⟨s, events.toList, .ok values.toList⟩
  | program :: rest =>
    match s.listProgram program with
    | .error failure => ⟨s, events.toList, .error failure⟩
    | .ok listed =>
      let first := s.runProgram fuel program
      let events := events ++ listed ++ first.events
      match first.result with
      | .error failure => ⟨first.session, events.toList, .error failure⟩
      | .ok v => first.session.runAfter fuel events (values.push v) rest

/-- Run programs in order. -/
def runAll (s : Session) (fuel : Nat) (programs : List (Ref .method)) : Outcome (List Value) :=
  s.runAfter fuel #[] #[] programs

/-- What came before is put in front of what follows and changes nothing in it. -/
theorem runAfter_eq (s : Session) (fuel : Nat) (events : Array Event) (values : Array Value)
    (programs : List (Ref .method)) :
    s.runAfter fuel events values programs =
      ⟨(s.runAll fuel programs).session, events.toList ++ (s.runAll fuel programs).events,
        (s.runAll fuel programs).result.map (values.toList ++ ·)⟩ := by
  induction programs generalizing s events values with
  | nil => simp [runAll, runAfter, Except.map]
  | cons program rest ih =>
    simp only [runAll, runAfter]
    cases s.listProgram program with
    | error failure => simp [Except.map]
    | ok listed =>
      cases h : (s.runProgram fuel program).result with
      | error failure => simp [Except.map]
      | ok v =>
        simp only [ih _ _ (values.push v), ih _ _ (#[].push v)]
        cases ((s.runProgram fuel program).session.runAll fuel rest).result <;> simp [Except.map]

theorem runAll_nil (s : Session) (fuel : Nat) : s.runAll fuel [] = ⟨s, [], .ok []⟩ := rfl

/-- The first program runs, and the others after it in the session that it leaves. -/
theorem runAll_cons (s : Session) (fuel : Nat) (program : Ref .method)
    (rest : List (Ref .method)) :
    s.runAll fuel (program :: rest) =
      match s.listProgram program with
      | .error failure => ⟨s, [], .error failure⟩
      | .ok listed =>
        let first := s.runProgram fuel program
        match first.result with
        | .error failure => ⟨first.session, listed ++ first.events, .error failure⟩
        | .ok v =>
          let others := first.session.runAll fuel rest
          ⟨others.session, listed ++ first.events ++ others.events,
            others.result.map (v :: ·)⟩ := by
  simp only [runAll, runAfter]
  cases s.listProgram program with
  | error failure => rfl
  | ok listed =>
    cases h : (s.runProgram fuel program).result with
    | error failure => simp
    | ok v =>
      simp only [runAfter_eq]
      cases (runAll _ fuel rest).result <;> simp [Except.map]

/-- Evaluate a text: the values of its forms, in order. -/
def evaluate (s : Session) (fuel : Nat) (source file : String) : Outcome (List Value) :=
  match load s.heap source file with
  | .error failure => ⟨s, [], .error failure⟩
  | .ok (heap, programs) => { s with heap := heap }.runAll fuel programs

/-- Evaluate a text and write its values, each on a line, after all have been
computed. -/
def evaluateAndPrint (s : Session) (fuel : Nat) (source file : String) : Outcome Unit :=
  let outcome := s.evaluate fuel source file
  match outcome.result with
  | .error failure => ⟨outcome.session, outcome.events, .error failure⟩
  | .ok values =>
    let written := values.map fun v => Event.wrote (outcome.session.heap.print v)
    ⟨outcome.session, outcome.events ++ written, .ok ()⟩

/-- The listings of the programs of a text, none of which is run. -/
def listings (s : Session) (source file : String) : Except Failure (List String) :=
  match load s.heap source file with
  | .error failure => .error failure
  | .ok (heap, programs) =>
    programs.mapM fun program =>
      match heap.listing program with
      | .ok text => .ok text
      | .error fault => .error (.unlisted fault)

end Session

end MessageMachine
