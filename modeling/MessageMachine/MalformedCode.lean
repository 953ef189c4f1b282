/-
# Malformed code

What can be wrong with a byte string that is meant to be code: it does not
split into instructions, its operands are out of range, its operand stack does
not balance, it is longer than bytes can be stored, or it does something at run time
that verified code cannot do.
Each cause is a constructor; the wording of all of them is in one place.
-/

import MessageMachine.Operation

namespace MessageMachine

/-- One thing wrong with a piece of code. -/
inductive Defect
  -- Splitting bytes into instructions.
  | truncatedOperand
  | oversizedOperand
  | outsideCode
  | unknownOpcode (byte : UInt8)
  -- Found by the analysis of stack depths.
  | emptyCode
  | fallsOffEnd
  | branchTarget (target : Int)
  | depthMismatch (target known depth : Nat)
  | constantBeyondPool (index : Nat) (size : Int)
  | argumentBeyondCount (index : Nat) (count : Int)
  | callWithoutReceiver
  | depthBelowNeed (operation : Operation) (depth : Nat)
  -- Found while laying out.
  | oversizedCode
  -- Found while running.
  | constantOutOfRange (index : Nat)
  | argumentOutOfRange (index : Nat)
  | operandUnderflow (method : String)
  | callWindow (count : Nat)
  | nameNotSymbol (printed : String)
  deriving DecidableEq, Repr

/-- A defect and the place where it was noticed. The place is an instruction
pointer and so may lie anywhere, even before the code. -/
structure MalformedCode where
  defect : Defect
  offset : Option Int
  deriving DecidableEq, Repr

namespace Defect

/-- Two hexadecimal digits. -/
def hexByte (byte : UInt8) : String :=
  let digits := Nat.toDigits 16 byte.toNat
  String.ofList (List.replicate (2 - digits.length) '0' ++ digits)

def message : Defect → String
  | truncatedOperand => "Truncated LEB128 operand"
  | oversizedOperand => "LEB128 operand exceeds the safe integer range"
  | outsideCode => "Instruction pointer outside the code"
  | unknownOpcode byte => s!"Unknown opcode 0x{hexByte byte}"
  | emptyCode => "Empty code"
  | fallsOffEnd => "Control falls off the end of the code"
  | branchTarget target => s!"Branch target {target} is not an instruction boundary"
  | depthMismatch target known depth =>
    s!"Stack depth mismatch at {target}: {known} vs {depth}"
  | constantBeyondPool index size =>
    s!"Constant index {index} out of range (pool size {size})"
  | argumentBeyondCount index count =>
    s!"Argument index {index} out of range ({count} arguments)"
  | callWithoutReceiver => "Call needs at least the receiver"
  | depthBelowNeed operation depth =>
    s!"Stack underflow: {operation.name} needs {operation.pops}, depth is {depth}"
  | oversizedCode => "Invalid array length"
  | constantOutOfRange index => s!"Constant index {index} out of range"
  | argumentOutOfRange index => s!"Argument index {index} out of range"
  | operandUnderflow method => s!"Operand stack underflow in {method}"
  | callWindow count => s!"Call({count}) does not fit the operand stack"
  | nameNotSymbol printed => s!"DefineGlobal needs a symbol, got {printed}"

end Defect

namespace MalformedCode

def «at» (defect : Defect) (offset : Int) : MalformedCode :=
  ⟨defect, some offset⟩

/-- The place is told only when it is one that code can have. -/
def message (fault : MalformedCode) : String :=
  match fault.offset with
  | some offset =>
    if 0 ≤ offset then s!"{fault.defect.message} (at offset {offset})" else fault.defect.message
  | none => fault.defect.message

end MalformedCode

end MessageMachine
