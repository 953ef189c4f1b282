/-
# Operand depths

A static analysis of code. It follows every instruction that can be reached
from offset 0 and propagates the depth of the operand stack along all edges.
The largest depth met is the operand capacity that a frame for the code needs.
Code that could not run safely is refused: its operands are out of range, its
stack underflows, its branches meet at different depths, control leaves it.

An offset is recorded with its depth when it is first reached and put on a
worklist once, so the walk ends after as many visits as there are instructions.
-/

import MessageMachine.Instruction

namespace MessageMachine

namespace Instruction

/-- Where control goes after an instruction, in the order of exploration. -/
def successors (i : Instruction) : List Int :=
  match i.operation with
  | .leave => []
  | .jump _ => [i.jumpTarget]
  | .jumpIfFalse _ => [i.jumpTarget, i.next]
  | _ => [(i.next : Int)]

end Instruction

namespace StackDepth

/-- What the analysis is told about a method: its instructions by offset, the
sizes of its code and constant pool, and how many arguments it has. A negative
count is told as it is and allows nothing. -/
structure Subject where
  instructions : Array (Option Instruction)
  codeSize : Nat
  constantCount : Int
  argCount : Int

/-- Arrange instructions by their offsets. -/
def byOffset (codeSize : Nat) (instructions : List Instruction) : Array (Option Instruction) :=
  instructions.foldl (fun table i => table.setIfInBounds i.offset (some i))
    (Array.replicate codeSize none)

/-- The instruction that starts at a place, if one does. -/
def Subject.instructionAt? (s : Subject) : Int → Option Instruction
  | .ofNat offset => (s.instructions[offset]?).join
  | .negSucc _ => none

/-- How far the walk has come: the depth at each offset reached, the
instructions to visit, the last found first, and the largest depth so far. -/
structure Walk where
  depths : Array (Option Nat)
  pending : List (Instruction × Nat)
  largest : Nat

/-- The depth recorded for an offset. -/
def Walk.depthAt? (w : Walk) (offset : Nat) : Option Nat :=
  (w.depths[offset]?).join

/-! ## One visit -/

/-- The conditions on the operand of an instruction. -/
def operandFault? (s : Subject) (operation : Operation) : Option Defect :=
  match operation with
  | .loadConstant index =>
    if s.constantCount ≤ index then some (.constantBeyondPool index s.constantCount) else none
  | .loadArgument index =>
    if s.argCount ≤ index then some (.argumentBeyondCount index s.argCount) else none
  | .call count => if count < 1 then some .callWithoutReceiver else none
  | _ => none

/-- The depth after an operation, given a depth that covers what it pops. -/
def after (operation : Operation) (depth : Nat) : Nat :=
  depth - operation.pops + operation.pushes

/-- Control flows from the instruction at `source` to `target`. -/
def flowTo (s : Subject) (source depth : Nat) (w : Walk) (target : Int) :
    Except MalformedCode Walk :=
  match s.instructionAt? target with
  | none =>
    if target = s.codeSize then .error (.at .fallsOffEnd source)
    else .error (.at (.branchTarget target) source)
  | some i =>
    match w.depthAt? i.offset with
    | none =>
      .ok { w with
        depths := w.depths.setIfInBounds i.offset (some depth)
        pending := (i, depth) :: w.pending }
    | some known =>
      if known = depth then .ok w
      else .error (.at (.depthMismatch i.offset known depth) source)

/-- Check an instruction at its depth and pass the new depth on. -/
def visit (s : Subject) (i : Instruction) (depth : Nat) (w : Walk) : Except MalformedCode Walk :=
  match operandFault? s i.operation with
  | some defect => .error (.at defect i.offset)
  | none =>
    if depth < i.operation.pops then .error (.at (.depthBelowNeed i.operation depth) i.offset)
    else
      let next := after i.operation depth
      let w := { w with largest := max w.largest (max depth next) }
      i.successors.foldlM (flowTo s i.offset next) w

/-! ## The walk -/

/-- Visit what is pending until nothing is. -/
def explore (s : Subject) : Nat → Walk → Except MalformedCode Walk
  | 0, w => .ok w
  | fuel + 1, w =>
    match w.pending with
    | [] => .ok w
    | (i, depth) :: rest =>
      match visit s i depth { w with pending := rest } with
      | .error fault => .error fault
      | .ok w => explore s fuel w

/-- The walk before its first visit, to the first instruction at depth 0. -/
def start (codeSize : Nat) (first : Instruction) : Walk where
  depths := (Array.replicate codeSize none).setIfInBounds 0 (some 0)
  pending := [(first, 0)]
  largest := 0

/-- The complete walk over a method's code. -/
def analyse (code : Code) (constantCount argCount : Int) : Except MalformedCode Walk :=
  match Instruction.decodeAll code with
  | .error fault => .error fault
  | .ok [] => .error ⟨.emptyCode, none⟩
  | .ok (first :: others) =>
    let instructions := first :: others
    let subject :=
      ⟨byOffset code.size instructions, code.size, constantCount, argCount⟩
    explore subject instructions.length (start code.size first)

/-- The operand capacity that code needs. -/
def maxStack (code : Code) (constantCount argCount : Int) : Except MalformedCode Nat :=
  (analyse code constantCount argCount).map Walk.largest

end StackDepth

end MessageMachine
