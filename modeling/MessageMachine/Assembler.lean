/-
# Assembler

An assembler collects the operations and constants of one method. Jumps are
kept symbolic, as jumps to labels, until the method is finished: an encoded
distance has a length that depends on the distance, and distances depend on the
lengths of other jumps. Layout starts with every jump at its shortest form and
lets jumps grow until all of them fit. Growing is the only thing a round does,
so the rounds come to an end.

A finished method carries the operand capacity that `StackDepth.maxStack` finds,
so code that does not pass the analysis is never finished.
-/

import MessageMachine.Heap
import MessageMachine.StackDepth
import Std.Data.TreeMap

namespace MessageMachine

/-- A place in the code, before the places are known. -/
structure Label where
  index : Nat
  deriving DecidableEq, Repr

namespace Assembler

/-- One instruction of an unfinished method. -/
inductive Part
  | plain (operation : Operation)
  | jump (target : Label)
  | jumpIfFalse (target : Label)
  deriving DecidableEq, Repr

/-- The label that a part jumps to. -/
def Part.label? : Part → Option Label
  | plain _ => none
  | jump target | jumpIfFalse target => some target

/-- The operation of a part, once the distance of its jump is known. -/
def Part.operation (part : Part) (distance : Int) : Operation :=
  match part with
  | plain operation => operation
  | jump _ => .jump distance
  | jumpIfFalse _ => .jumpIfFalse distance

/-- Why a method cannot be finished. -/
inductive Failure
  | unboundLabel (method : String)
  | unsettledLayout (method : String)
  | malformed (fault : MalformedCode)
  deriving DecidableEq, Repr

def Failure.message : Failure → String
  | unboundLabel method => s!"Unbound label in {method}"
  | unsettledLayout method => s!"Jump layout did not converge in {method}"
  | malformed fault => fault.message

end Assembler

/-- A method under construction. `bindings` holds, by the index of a label, the
number of parts that precede its place; a label bound again has its latest place. -/
structure Assembler where
  name : String
  argCount : Int
  source : Option Location
  parts : Array Assembler.Part
  constants : Array Value
  bindings : Std.TreeMap Nat Nat
  labelCount : Nat

namespace Assembler

def create (name : String) (argCount : Int) (source : Option Location) : Assembler :=
  ⟨name, argCount, source, #[], #[], {}, 0⟩

/-! ## Collecting -/

def emitPart (a : Assembler) (part : Part) : Assembler :=
  { a with parts := a.parts.push part }

def emit (a : Assembler) (operation : Operation) : Assembler :=
  a.emitPart (.plain operation)

/-- The index of a constant in the pool, where it is put unless it is there. -/
def addConstant (a : Assembler) (v : Value) : Assembler × Nat :=
  match a.constants.findIdx? (·.identical v) with
  | some index => (a, index)
  | none =>
    let index := a.constants.size
    ({ a with constants := a.constants.push v }, index)

def emitConstant (a : Assembler) (v : Value) : Assembler × Nat :=
  let (a, index) := a.addConstant v
  (a.emit (.loadConstant index), index)

/-- Push a constant. -/
def constant (a : Assembler) (v : Value) : Assembler :=
  (a.emitConstant v).1

/-- Push the value of a global: its name first, then the lookup. -/
def loadGlobal (a : Assembler) (name : String) : Assembler :=
  (a.constant (.symbol name)).emit .loadGlobal

/-- Send a message to the topmost `count` values, the receiver being the lowest. -/
def send (a : Assembler) (selector : String) (count : Nat) : Assembler :=
  (a.constant (.symbol selector)).emit (.call count)

/-- The operand of an argument load or a call, given as an arbitrary number. -/
def emitWith (a : Assembler) (operation : Nat → Operation) (operand : Binary64) :
    Except Leb128.Unencodable Assembler :=
  (Leb128.unsigned operand).map fun n => a.emit (operation n)

/-! ## Labels -/

def newLabel (a : Assembler) : Assembler × Label :=
  ({ a with labelCount := a.labelCount + 1 }, ⟨a.labelCount⟩)

/-- Bind a label to the place of the next instruction. -/
def bind (a : Assembler) (label : Label) : Assembler :=
  { a with bindings := a.bindings.insert label.index a.parts.size }

/-- The number of parts before the place of a label. -/
def place? (a : Assembler) (label : Label) : Option Nat :=
  a.bindings[label.index]?

/-! ## Layout -/

/-- The offsets of parts of the given sizes, and that of the end. -/
def offsets (sizes : Array Nat) : Array Nat :=
  sizes.foldl (fun (acc : Array Nat × Nat) size => (acc.1.push (acc.2 + size), acc.2 + size))
    (#[0], 0) |>.1

/-- The distance of the jump at part `index`, which has size `size`, to a label. -/
def distance (a : Assembler) (offsets : Array Nat) (index size : Nat) (label : Label) : Int :=
  let place := (a.place? label).getD 0
  (offsets.getD place 0 : Int) - ((offsets.getD index 0 : Int) + size)

/-- The operation that a part becomes at the given layout. -/
def resolve (a : Assembler) (sizes offsets : Array Nat) (index : Nat) (part : Part) : Operation :=
  match part.label? with
  | none => part.operation 0
  | some label => part.operation (a.distance offsets index (sizes.getD index 0) label)

/-- The smallest sizes: jumps take two bytes, all else is known. -/
def initialSizes (a : Assembler) : Array Nat :=
  a.parts.map fun part =>
    match part with
    | .plain operation => operation.encode.length
    | .jump _ | .jumpIfFalse _ => 2

/-- Let every part grow that does not fit its size. -/
def grow (a : Assembler) (sizes : Array Nat) : Array Nat :=
  let places := offsets sizes
  a.parts.mapIdx fun index part =>
    max (sizes.getD index 0) (a.resolve sizes places index part).encode.length

/-- Grow until nothing changes, in at most the given number of rounds. -/
def settle (a : Assembler) : Nat → Array Nat → Array Nat
  | 0, sizes => sizes
  | rounds + 1, sizes =>
    let grown := a.grow sizes
    if grown = sizes then sizes else a.settle rounds grown

/-- The sizes of all parts. A jump takes at most ten bytes, so it grows no more
than eight times, and each round but the last grows a jump. -/
def sizes (a : Assembler) : Array Nat :=
  a.settle (8 * a.parts.size + 1) a.initialSizes

/-- The operations with their distances at a layout. -/
def operations (a : Assembler) (sizes : Array Nat) : Array Operation :=
  let places := offsets sizes
  a.parts.mapIdx fun index part => a.resolve sizes places index part

/-- Whether every label that a part jumps to has a place. -/
def allBound (a : Assembler) : Bool :=
  a.parts.all fun part =>
    match part.label? with
    | some label => (a.place? label).isSome
    | none => true

/-- The most bytes that a method can have: places in an array have 32 bits. -/
def maxCodeSize : Nat := 4294967295

/-- The bytes of the method. -/
def layout (a : Assembler) : Except Failure Code :=
  if a.allBound then
    let sizes := a.sizes
    let operations := a.operations sizes
    if operations.map (·.encode.length) = sizes then
      let code := (operations.toList.flatMap Operation.encode).toArray
      if code.size ≤ maxCodeSize then .ok code else .error (.malformed ⟨.oversizedCode, none⟩)
    else .error (.unsettledLayout a.name)
  else .error (.unboundLabel a.name)

/-- Lay out the code and find the operand capacity. -/
def finish (a : Assembler) : Except Failure Method :=
  match a.layout with
  | .error failure => .error failure
  | .ok code =>
    match StackDepth.maxStack code a.constants.size a.argCount with
    | .error fault => .error (.malformed fault)
    | .ok maxStack => .ok ⟨a.name, a.argCount, code, a.constants, maxStack, a.source⟩

end Assembler

end MessageMachine
