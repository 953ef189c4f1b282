/-
# Operations

The ten operations of the machine, each with its operand. An operation is what
an instruction does; where the instruction stands and where the next one starts
is added in `MessageMachine.Instruction`.

* `nop` — nothing
* `loadConstant i` — pushes the constant `i` of the pool
* `loadGlobal` — pops a name, pushes its global value
* `call n` — pops a selector and `n` values, the receiver below its arguments,
  and pushes the result of the send
* `leave` — pops the result and ends the frame
* `loadArgument i` — pushes argument `i`, the receiver being argument 0
* `pop` — drops a value
* `defineGlobal` — pops a value and a name below it, binds them, pushes the value
* `jump d`, `jumpIfFalse d` — continue `d` bytes after the next instruction, the
  latter only when the value it pops is false
-/

namespace MessageMachine

inductive Operation
  | nop
  | loadConstant (index : Nat)
  | loadGlobal
  | call (count : Nat)
  | leave
  | loadArgument (index : Nat)
  | pop
  | defineGlobal
  | jump (distance : Int)
  | jumpIfFalse (distance : Int)
  deriving DecidableEq, Inhabited, Repr

namespace Operation

/-- The name in listings and messages. -/
def name : Operation → String
  | nop => "Nop"
  | loadConstant _ => "LoadConstant"
  | loadGlobal => "LoadGlobal"
  | call _ => "Call"
  | leave => "Return"
  | loadArgument _ => "LoadArgument"
  | pop => "Pop"
  | defineGlobal => "DefineGlobal"
  | jump _ => "Jump"
  | jumpIfFalse _ => "JumpIfFalse"

/-- The byte that starts the encoded instruction. -/
def code : Operation → UInt8
  | nop => 0
  | loadConstant _ => 1
  | loadGlobal => 2
  | call _ => 3
  | leave => 4
  | loadArgument _ => 5
  | pop => 6
  | defineGlobal => 7
  | jump _ => 8
  | jumpIfFalse _ => 9

/-- The operand, if the operation has one. -/
def operand? : Operation → Option Int
  | loadConstant n | call n | loadArgument n => some n
  | jump d | jumpIfFalse d => some d
  | nop | loadGlobal | leave | pop | defineGlobal => none

/-- The operand, 0 standing in for a missing one. -/
def operand (op : Operation) : Int :=
  op.operand?.getD 0

/-! ## Effect on the operand stack -/

/-- How many values the operation needs on the stack. -/
def pops : Operation → Nat
  | nop | jump _ | loadConstant _ | loadArgument _ => 0
  | loadGlobal | leave | pop | jumpIfFalse _ => 1
  | call count => count + 1
  | defineGlobal => 2

/-- How many values it leaves in their place. -/
def pushes : Operation → Nat
  | nop | jump _ | leave | pop | jumpIfFalse _ => 0
  | loadConstant _ | loadArgument _ | loadGlobal | call _ | defineGlobal => 1

end Operation

end MessageMachine
