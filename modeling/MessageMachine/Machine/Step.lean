/-
# Steps

One step of a machine: from an activity and a state to the next activity and
state, or to the end. Executing an instruction is one step, beginning and ending
an entry are others, so everything that happens while a primitive waits for code
it has called is a sequence of steps of the same machine.

* `executeNext` fetches and executes one instruction;
* `enter` begins an entry, or answers at once if there is nothing to run;
* `abandonEntry` unwinds the innermost entry and makes it answer nil;
* `step` puts them together.
-/

import MessageMachine.Listing
import MessageMachine.Machine.Primitive

namespace MessageMachine.Machine

/-! ## The operand stack -/

/-- Change the innermost frame. -/
def modifyFrame (m : Machine) (change : Frame → Frame) : Machine :=
  match m.frames.toList with
  | frame :: _ => { m with frames := m.frames.setTop (change frame) }
  | [] => m

/-- Push a value on the innermost frame and go on with its next instruction. -/
def push (m : Machine) (v : Value) : Activity × Machine :=
  match m.frames.toList with
  | [] => (.fault .missing, m)
  | frame :: _ =>
    if frame.limit ≤ frame.sp then
      let method := m.heap.method frame.method
      (.abandon (.exhausted (.operands method.name method.maxStack)), m)
    else
      (.fetch, { m with
        segment := writeSlot m.segment frame.sp v
        frames := m.frames.setTop { frame with sp := frame.sp + 1 } })

/-- Pop a value of the innermost frame and go on with it. -/
def pop (m : Machine) (go : Value → Machine → Activity × Machine) : Activity × Machine :=
  match m.frames.toList with
  | [] => (.fault .missing, m)
  | frame :: _ =>
    if frame.sp ≤ frame.stackBase then
      let method := m.heap.method frame.method
      (.abandon (.malformed (.at (.operandUnderflow method.name) frame.ip)), m)
    else
      match m.slot? (frame.sp - 1) with
      | none => (.fault .missing, m)
      | some v => go v { m with frames := m.frames.setTop { frame with sp := frame.sp - 1 } }

/-! ## Calls -/

/-- A frame for a method over the arguments at `argBase`, or the limit that
forbids it. -/
def frameFor (m : Machine) (method : Ref .method) (argBase argCount : Nat) :
    Except Exhaustion Frame :=
  let target := m.heap.method method
  let stackBase := argBase + argCount
  let limit : Int := stackBase + target.maxStack
  if m.settings.maxFrames ≤ m.frames.size then
    .error (.frames m.settings.maxFrames target.name)
  else if m.settings.maxStackSlots < limit then
    .error (.segment m.settings.maxStackSlots target.name)
  else .ok ⟨method, 0, argBase, argCount, stackBase, stackBase, limit⟩

/-- The report about a wrong number of arguments; both counts include the receiver. -/
def wrongArity (m : Machine) (name : String) (expected : Int) (actual : Nat) : Machine :=
  let wanted := expected - 1
  let given : Int := (actual : Int) - 1
  m.report .arityMismatch s!"{name} expects {wanted} arguments besides the receiver, got {given}"

/-- Report that a receiver has no handler for a selector, and answer nil. -/
def notUnderstood (m : Machine) (receiver : Value) (selector : String) : Activity × Machine :=
  let c := m.heap.classAt (m.image.classOf m.heap receiver)
  (.reply .nil, m.report .messageNotUnderstood
    s!"{m.heap.print receiver} ({c.name}) does not understand {selector}")

/-- Call a primitive with its arguments. -/
def callPrimitive (m : Machine) (p : Ref .primitive) (args : List Value) : Activity × Machine :=
  let primitive := m.heap.primitive p
  match primitive.arity with
  | some expected =>
    if expected = args.length then m.perform primitive.behaviour primitive.name args
    else (.reply .nil, m.wrongArity primitive.name expected args.length)
  | none => m.perform primitive.behaviour primitive.name args

/-- The values in a range of slots; a hole makes the whole range missing. -/
def slots? (m : Machine) (start count : Nat) : Option (List Value) :=
  (List.range' start count).mapM m.slot?

/-- The call instruction: the topmost `count + 1` operands are the receiver, the
arguments and the selector. A compiled method runs in a frame bound over the
arguments; a primitive gets a copy of them. -/
def call (m : Machine) (count offset : Nat) : Activity × Machine :=
  match m.frames.toList with
  | [] => (.fault .missing, m)
  | frame :: _ =>
    if count < 1 ∨ frame.sp < frame.stackBase + (count + 1) then
      (.abandon (.malformed (.at (.callWindow count) offset)), m)
    else
      let window := frame.sp - (count + 1)
      match m.slot? (frame.sp - 1), m.slot? window with
      | some selectorValue, some receiver =>
        let m := { m with frames := m.frames.setTop { frame with sp := window } }
        match selectorValue.asSymbol? with
        | none =>
          let m := m.truncate window
          let printed := m.heap.print selectorValue
          (m.report .messageNotUnderstood s!"Selector is not a symbol: {printed}").push .nil
        | some selector =>
          match m.image.handler? m.heap (m.image.classOf m.heap receiver) selector with
          | .error f => (.fault f, m)
          | .ok none => (m.truncate window).notUnderstood receiver selector
          | .ok (some ⟨_, .primitive p⟩) =>
            match m.slots? window count with
            | none => (.fault .missing, m)
            | some args => (m.truncate window).callPrimitive p args
          | .ok (some ⟨_, .method r⟩) =>
            let target := m.heap.method r
            if target.argCount = count then
              match m.frameFor r window count with
              | .error what => (.abandon (.exhausted what), m)
              | .ok callee => (.fetch, { m with frames := m.frames.push callee })
            else ((m.truncate window).wrongArity target.name target.argCount count).push .nil
      | _, _ => (.fault .missing, m)

/-- The return instruction, after its result has been popped. The result is
handed out if the frame was the first of its entry, and pushed on the caller's
operands otherwise. -/
def leave (m : Machine) (result : Value) : Activity × Machine :=
  match m.frames.toList with
  | [] => (.fault .missing, m)
  | frame :: _ =>
    let m := { m with frames := m.frames.pop, segment := resize m.segment frame.argBase }
    match m.entries with
    | base :: entries =>
      if m.frames.size = base then (.reply result, { m with entries := entries })
      else m.push result
    | [] => m.push result

/-! ## Instructions -/

/-- Go on at another place in the code. -/
def jumpTo (m : Machine) (target : Int) : Machine :=
  m.modifyFrame fun frame => { frame with ip := target }

/-- Execute an instruction of the innermost frame, whose pointer is already past it. -/
def execute (m : Machine) (frame : Frame) (i : Instruction) : Activity × Machine :=
  match i.operation with
  | .nop => (.fetch, m)
  | .loadConstant index =>
    match (m.heap.method frame.method).constants[index]? with
    | some v => m.push v
    | none => (.abandon (.malformed (.at (.constantOutOfRange index) i.offset)), m)
  | .loadGlobal =>
    m.pop fun nameValue m =>
      match nameValue.asSymbol? with
      | none =>
        let printed := m.heap.print nameValue
        (m.report .undefinedIdentifier s!"Not an identifier: {printed}").push .nil
      | some name =>
        match m.image.globals.lookupOrNil m.heap name m.currentLocation with
        | (v, none) => m.push v
        | (v, some d) => (m.note d).push v
  | .call count => m.call count i.offset
  | .leave => m.pop fun result m => m.leave result
  | .loadArgument index =>
    if frame.argCount ≤ index then
      (.abandon (.malformed (.at (.argumentOutOfRange index) i.offset)), m)
    else
      match m.slot? (frame.argBase + index) with
      | some v => m.push v
      | none => (.fault .missing, m)
  | .pop => m.pop fun _ m => (.fetch, m)
  | .defineGlobal =>
    m.pop fun v m =>
      m.pop fun nameValue m =>
        match nameValue.asSymbol? with
        | none =>
          let printed := m.heap.print nameValue
          (.abandon (.malformed (.at (.nameNotSymbol printed) i.offset)), m)
        | some name => { m with heap := m.image.globals.define m.heap name v }.push v
  | .jump _ => (.fetch, m.jumpTo i.jumpTarget)
  | .jumpIfFalse _ =>
    m.pop fun v m => (.fetch, if v.truthy then m else m.jumpTo i.jumpTarget)

/-- What is reported about an instruction when tracing. -/
def traceLine (m : Machine) (frame : Frame) (i : Instruction) : String :=
  let indent := String.ofList (List.replicate (2 * (m.frames.size - 1)) ' ')
  let name := (m.heap.method frame.method).name
  let place := Heap.padLeft '0' 4 (toString i.offset)
  let operand :=
    match i.operation.operand? with
    | some n => s!" {n}"
    | none => ""
  s!"{indent}{name} {place} {i.operation.name}{operand} depth={frame.depth}"

/-- Report an instruction if the machine traces. A trace line has no location. -/
def traceInstruction (m : Machine) (frame : Frame) (i : Instruction) : Machine :=
  if m.settings.trace then m.note ⟨.trace, m.traceLine frame i, none⟩ else m

/-- Fetch and execute the next instruction of the innermost frame. -/
def executeNext (m : Machine) : Activity × Machine :=
  match m.frames.toList with
  | [] => (.fault .missing, m)
  | frame :: _ =>
    match Instruction.decode (m.heap.method frame.method).code frame.ip with
    | .error fault => (.abandon (.malformed fault), m)
    | .ok i =>
      let frame := { frame with ip := i.next }
      let m := { m with frames := m.frames.setTop frame }
      (m.traceInstruction frame i).execute frame i

/-! ## Entries -/

/-- Unwind to the outermost `base` frames, report, and answer nil. The report
has the location of the failure, or else that of the frame returned to. -/
def unwind (m : Machine) (base : Nat) (why : Abort) : Activity × Machine :=
  let location := m.currentLocation
  let m := { m with frames := m.frames.keep base }
  let m := m.truncate m.stackTop
  (.reply .nil, m.report why.kind s!"Execution abandoned: {why.message}" location)

/-- Give up the innermost entry. -/
def abandonEntry (m : Machine) (why : Abort) : Activity × Machine :=
  match m.entries with
  | base :: entries => { m with entries := entries }.unwind base why
  | [] => m.unwind m.frames.size why

/-- Remember that an entry begins over the active frames. -/
def openEntry (m : Machine) : Machine :=
  { m with entries := m.frames.size :: m.entries }

/-- Begin an entry with a frame for a method over the arguments at `argBase`. An
entry for which there is no room is given up before its first instruction. -/
def begin (m : Machine) (method : Ref .method) (argBase argCount : Nat) : Activity × Machine :=
  match m.frameFor method argBase argCount with
  | .error what => (.abandon (.exhausted what), m.openEntry)
  | .ok frame => (.fetch, { m.openEntry with frames := m.frames.push frame })

/-- Write arguments to consecutive slots. -/
def writeArgs (segment : Array (Option Value)) (start : Nat) : List Value → Array (Option Value)
  | [] => segment
  | v :: rest => writeArgs (writeSlot segment start v) (start + 1) rest

/-- Call a function from outside the code. A primitive that has to be given up
is an entry of its own. -/
def invokeCallable (m : Machine) (callable : Callable) (args : List Value) : Activity × Machine :=
  match callable with
  | .primitive p =>
    match m.callPrimitive p args with
    | (.abandon why, m) => (.abandon why, m.openEntry)
    | other => other
  | .method r =>
    let target := m.heap.method r
    if target.argCount = args.length then
      let start := m.stackTop
      { m with segment := writeArgs m.segment start args }.begin r start args.length
    else (.reply .nil, m.wrongArity target.name target.argCount args.length)

/-- Begin what a request asks for. -/
def enter (m : Machine) (r : Request) : Activity × Machine :=
  match r with
  | .execute program =>
    let target := m.heap.method program
    if target.argCount = 0 then m.begin program m.stackTop 0
    else
      (.reply .nil, m.report .arityMismatch
        s!"Program {target.name} expects {target.argCount} arguments; programs take none"
        target.source)
  | .send receiver selector args =>
    match m.image.handler? m.heap (m.image.classOf m.heap receiver) selector with
    | .error f => (.fault f, m)
    | .ok none => m.notUnderstood receiver selector
    | .ok (some handler) => m.invokeCallable handler.callable (receiver :: args)
  | .invoke callable args => m.invokeCallable callable args

/-! ## One step -/

/-- How a call into the machine ended. -/
inductive Completion
  | answer (v : Value)
  | fault (f : HostFault)
  deriving DecidableEq

/-- The outcome of one step. -/
inductive Progress
  | running (activity : Activity) (m : Machine)
  | finished (completion : Completion) (m : Machine)

/-- Go on with an activity. -/
def Progress.ofActivity (next : Activity × Machine) : Progress :=
  .running next.1 next.2

/-- One step. A result with no entry left to receive it ends the run, and so
does a fault, which first takes down every entry. -/
def step (activity : Activity) (m : Machine) : Progress :=
  match activity with
  | .fetch => .ofActivity m.executeNext
  | .request r => .ofActivity (m.enter r)
  | .abandon why => .ofActivity (m.abandonEntry why)
  | .reply v =>
    match m.entries with
    | [] => .finished (.answer v) m
    | _ :: _ => .ofActivity (m.push v)
  | .fault f =>
    match m.entries with
    | [] => .finished (.fault f) m
    | base :: entries =>
      let m := { m with
        entries := entries
        frames := m.frames.keep base }
      .running (.fault f) (m.truncate m.stackTop)

/-- Step until the run ends, or the fuel does: how it ended, if it did, and the
machine at that moment. -/
def run : Nat → Activity → Machine → Option Completion × Machine
  | 0, _, m => (none, m)
  | fuel + 1, activity, m =>
    match step activity m with
    | .running activity m => run fuel activity m
    | .finished completion m => (some completion, m)

/-- Serve a request from outside. -/
def serve (m : Machine) (fuel : Nat) (r : Request) : Option Completion × Machine :=
  run fuel (.request r) m

/-- More steps than any execution takes in practice: the 62nd power of two. -/
def ampleFuel : Nat := 4611686018427387904

end MessageMachine.Machine
