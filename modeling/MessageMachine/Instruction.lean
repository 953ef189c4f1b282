/-
# Instructions

Code is a string of bytes. An instruction is one byte that names the operation
and, for some operations, an operand in LEB128 form. This module writes an
operation as bytes, reads the instruction at an offset, and splits a whole
string into its instructions.

Jump distances count from the byte after the jump. The target is computed in
binary64 arithmetic like every operand, so a target beyond the safe integers is
the nearest representable one.
-/

import MessageMachine.Leb128

namespace MessageMachine

/-- The bytes of a method. -/
abbrev Code := Array UInt8

namespace Operation

/-- The bytes of an operation and its operand. -/
def encode (op : Operation) : List UInt8 :=
  match op with
  | loadConstant n | call n | loadArgument n => op.code :: Leb128.encodeNat n
  | jump d | jumpIfFalse d => op.code :: Leb128.encodeInt d
  | nop | loadGlobal | leave | pop | defineGlobal => [op.code]

end Operation

/-- An operation at its place in the code. -/
structure Instruction where
  offset : Nat
  operation : Operation
  /-- Offset of the following instruction. -/
  next : Nat
  deriving DecidableEq, Inhabited, Repr

namespace Instruction

/-- Where a jump over `distance` bytes leads from `next`. -/
def target (next : Nat) (distance : Int) : Int :=
  (Binary64.nearest (((next : Int) + distance : Int) : Rat)).num

/-- The target that the operand gives, whether or not the operation jumps. -/
def jumpTarget (instruction : Instruction) : Int :=
  target instruction.next instruction.operation.operand

/-- Whether a byte names an operation. -/
def isOpcode (byte : UInt8) : Bool :=
  byte < 10

/-! ## Reading -/

/-- Read the instruction at an offset, where `byte` stands. -/
def read (code : Code) (offset : Nat) (byte : UInt8) : Except MalformedCode Instruction :=
  let plain (op : Operation) : Except MalformedCode Instruction := .ok ⟨offset, op, offset + 1⟩
  let unsigned (op : Nat → Operation) : Except MalformedCode Instruction :=
    (Leb128.decodeUnsigned code (offset + 1 : Nat)).map
      fun operand => ⟨offset, op operand.value, offset + 1 + operand.size⟩
  let signed (op : Int → Operation) : Except MalformedCode Instruction :=
    (Leb128.decodeSigned code (offset + 1 : Nat)).map
      fun operand => ⟨offset, op operand.value, offset + 1 + operand.size⟩
  match byte with
  | 0 => plain .nop
  | 1 => unsigned .loadConstant
  | 2 => plain .loadGlobal
  | 3 => unsigned .call
  | 4 => plain .leave
  | 5 => unsigned .loadArgument
  | 6 => plain .pop
  | 7 => plain .defineGlobal
  | 8 => signed .jump
  | 9 => signed .jumpIfFalse
  | _ => .error (.at (.unknownOpcode byte) offset)

/-- Decode the instruction at an offset, which may be any integer. -/
def decode (code : Code) (offset : Int) : Except MalformedCode Instruction :=
  match offset with
  | .negSucc _ => .error (.at .outsideCode offset)
  | .ofNat start =>
    match code[start]? with
    | none => .error (.at .outsideCode offset)
    | some byte => read code start byte

/-- Decode from an offset to the end, behind the instructions already decoded.
Each one takes a byte at least, so `limit` is the number of bytes left. -/
def decodeFrom (code : Code) : Nat → Nat → Array Instruction →
    Except MalformedCode (Array Instruction)
  | 0, _, done => .ok done
  | limit + 1, offset, done =>
    if code.size ≤ offset then .ok done
    else
      match decode code offset with
      | .error fault => .error fault
      | .ok instruction => decodeFrom code limit instruction.next (done.push instruction)

/-- Every instruction in order. -/
def decodeAll (code : Code) : Except MalformedCode (List Instruction) :=
  (decodeFrom code code.size 0 #[]).map Array.toList

end Instruction

end MessageMachine
