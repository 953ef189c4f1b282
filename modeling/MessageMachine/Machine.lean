/-
# Machines

A machine is one thread of execution over a heap and an image. It owns a stack
segment that all its frames share, and the frames themselves, innermost first.
Each frame has a window of the segment:

    argBase           stackBase                 limit
    | receiver args.. | operands ...            |

A callee's window begins where its caller's live operands end, over the
arguments that the caller left there; nothing is copied.

Running code may enter the machine again, through a primitive that calls a
function or runs a program. Every entry is remembered as the number of frames
that were active when it began, so that a failure can be contained by the
innermost entry. Nothing of the host's own call stack is needed: what a machine
is doing at any moment is its `Activity`, and `MessageMachine.Machine.Step` takes
it from one to the next.
-/

import MessageMachine.FrameStack
import MessageMachine.Heap.List
import MessageMachine.Heap.Printer
import MessageMachine.Image

namespace MessageMachine

/-! ## Failures -/

/-- A resource that has run out. -/
inductive Exhaustion
  | frames (limit : Int) (method : String)
  | segment (limit : Int) (method : String)
  | operands (method : String) (capacity : Int)
  deriving DecidableEq

def Exhaustion.message : Exhaustion → String
  | frames limit method => s!"Frame limit of {limit} reached calling {method}"
  | segment limit method => s!"Stack segment limit of {limit} values reached calling {method}"
  | operands method capacity => s!"Operand stack overflow in {method} (capacity {capacity})"

/-- Why an execution cannot continue. -/
inductive Abort
  | malformed (fault : MalformedCode)
  | exhausted (what : Exhaustion)
  | overflow (what : Value.IntegerOverflow)
  deriving DecidableEq

namespace Abort

def message : Abort → String
  | malformed fault => fault.message
  | exhausted what => what.message
  | overflow what => what.message

def kind : Abort → Diagnostic.Kind
  | malformed _ => .malformedBytecode
  | exhausted _ | overflow _ => .resourceExhausted

end Abort

/-! ## State -/

structure Settings where
  /-- Report every executed instruction. -/
  trace : Bool
  /-- The largest number of active frames. -/
  maxFrames : Int
  /-- The largest stack segment, in values. -/
  maxStackSlots : Int
  deriving DecidableEq, Repr

def Settings.standard : Settings := ⟨false, 1000, 100000⟩

instance : Inhabited Settings := ⟨.standard⟩

/-- A machine. Slots of the segment that were never written are holes. -/
structure Machine where
  heap : Heap
  image : Image
  settings : Settings
  /-- Active frames. -/
  frames : FrameStack
  segment : Array (Option Value)
  /-- For each entry, innermost first, the number of frames below it. -/
  entries : List Nat
  /-- What has been reported. -/
  log : Array Diagnostic

namespace Machine

/-- A machine on which nothing runs. -/
def idle (heap : Heap) (image : Image) (settings : Settings) : Machine :=
  ⟨heap, image, settings, .empty, #[], [], #[]⟩

instance : Inhabited Machine := ⟨idle default default default⟩

/-! ## Looking at a machine -/

def frameDepth (m : Machine) : Nat :=
  m.frames.size

/-- The operand depth of the innermost frame. -/
def operandDepth (m : Machine) : Nat :=
  match m.frames.toList with
  | frame :: _ => frame.depth
  | [] => 0

/-- The first slot above everything that is live. -/
def stackTop (m : Machine) : Nat :=
  match m.frames.toList with
  | frame :: _ => frame.sp
  | [] => 0

/-- Where the innermost frame's method was written. -/
def currentLocation (m : Machine) : Option Location :=
  match m.frames.toList with
  | frame :: _ => (m.heap.method frame.method).source
  | [] => none

/-- Method name and instruction pointer of each frame, outermost first. -/
def backtrace (m : Machine) : List (String × Int) :=
  (m.frames.toList.map fun frame => ((m.heap.method frame.method).name, frame.ip)).reverse

/-! ## Reporting -/

/-- Report with a location as given, or with none. -/
def note (m : Machine) (d : Diagnostic) : Machine :=
  { m with log := m.log.push d }

/-- Report at a location, or else at the current one. -/
def report (m : Machine) (kind : Diagnostic.Kind) (message : String)
    (location : Option Location := none) : Machine :=
  m.note ⟨kind, message, location.or m.currentLocation⟩

/-! ## The segment -/

/-- Write a slot, leaving holes below it if the segment is shorter. -/
def writeSlot (segment : Array (Option Value)) (slot : Nat) (v : Value) : Array (Option Value) :=
  if slot < segment.size then segment.setIfInBounds slot (some v)
  else (segment ++ Array.replicate (slot - segment.size) none).push (some v)

/-- Make the segment a given length: cut it off, or fill it up with holes. -/
def resize (segment : Array (Option Value)) (size : Nat) : Array (Option Value) :=
  if size ≤ segment.size then segment.shrink size
  else segment ++ Array.replicate (size - segment.size) none

theorem slot_writeSlot (segment : Array (Option Value)) (slot other : Nat) (v : Value) :
    ((writeSlot segment slot v)[other]?).join =
      if other = slot then some v else (segment[other]?).join := by
  unfold writeSlot
  grind

/-- Resizing keeps what lies below the new end and leaves nothing above it. -/
theorem slot_resize (segment : Array (Option Value)) (size other : Nat) :
    ((resize segment size)[other]?).join =
      if other < size then (segment[other]?).join else none := by
  unfold resize
  split
  · rw [Array.shrink_eq_take]
    grind
  · grind

/-- The value in a slot. -/
def slot? (m : Machine) (slot : Nat) : Option Value :=
  (m.segment[slot]?).join

def truncate (m : Machine) (size : Nat) : Machine :=
  { m with segment := resize m.segment size }

/-! ## Activities -/

/-- A call into the machine. -/
inductive Request
  /-- Run a program, a method without arguments. -/
  | execute (program : Ref .method)
  /-- Send a message. -/
  | send (receiver : Value) (selector : String) (args : List Value)
  /-- Call a function; the first argument is the receiver. -/
  | invoke (callable : Callable) (args : List Value)
  deriving DecidableEq

/-- What a machine is about to do. -/
inductive Activity
  /-- Execute the next instruction of the innermost frame. -/
  | fetch
  /-- Hand a result to whoever waits for it. -/
  | reply (v : Value)
  /-- Enter the machine. -/
  | request (r : Request)
  /-- Give up the innermost entry. -/
  | abandon (why : Abort)
  /-- Give up everything because of the host. -/
  | fault (f : HostFault)
  deriving DecidableEq

end Machine

end MessageMachine
