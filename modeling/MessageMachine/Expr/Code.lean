/-
# Code of expressions

Every expression compiles to code that leaves its value on top of whatever is on
the operand stack. A program is the code of one expression and a return; so is
a method, whose code stands on its own and is a constant of the code around it.
-/

import MessageMachine.Assembler
import MessageMachine.Expr

namespace MessageMachine.Expr

mutual

/-- Add the code of an expression. Methods inside it are allocated. -/
def emit (e : Expr) (h : Heap) (a : Assembler) : Except Assembler.Failure (Heap × Assembler) :=
  match e with
  | constant v => .ok (h, a.constant v)
  | argument index => .ok (h, a.emit (.loadArgument index))
  | global name => .ok (h, a.loadGlobal name)
  | conditional test yes no => do
    let (a, otherwise) := a.newLabel
    let (a, done) := a.newLabel
    let (h, a) ← test.emit h a
    let (h, a) ← yes.emit h (a.emitPart (.jumpIfFalse otherwise))
    let (h, a) ← no.emit h ((a.emitPart (.jump done)).bind otherwise)
    return (h, a.bind done)
  | sequence first second => do
    let (h, a) ← first.emit h a
    second.emit h (a.emit .pop)
  | define name value => do
    let (h, a) ← value.emit h (a.constant (.symbol name))
    return (h, a.emit .defineGlobal)
  | send selector operands => do
    let (h, a) ← emitAll operands h a
    return (h, a.send selector operands.length)
  | perform receiver args selector => do
    let (h, a) ← receiver.emit h a
    let (h, a) ← emitAll args h a
    let (h, a) ← selector.emit h a
    return (h, a.emit (.call (args.length + 1)))
  | method name argCount body source => do
    let (h, inner) ← body.emit h (.create name argCount source)
    let m ← (inner.emit .leave).finish
    let (h, r) := h.allocMethod m
    return (h, a.constant (.callable (.method r)))

/-- Add the code of expressions in order. -/
def emitAll (es : List Expr) (h : Heap) (a : Assembler) :
    Except Assembler.Failure (Heap × Assembler) :=
  match es with
  | [] => .ok (h, a)
  | e :: rest => do
    let (h, a) ← e.emit h a
    emitAll rest h a

end

/-- Compile an expression to a program. -/
def program (e : Expr) (h : Heap) (name : String) (source : Option Location) :
    Except Assembler.Failure (Heap × Ref .method) := do
  let (h, a) ← e.emit h (.create name 0 source)
  let m ← (a.emit .leave).finish
  return h.allocMethod m

end MessageMachine.Expr

namespace MessageMachine

/-- Why a value does not compile. -/
inductive CompileFailure
  | rejected (e : Expr.Error)
  | assembly (f : Assembler.Failure)
  deriving DecidableEq, Repr

def CompileFailure.message : CompileFailure → String
  | rejected e => e.message
  | assembly f => f.message

namespace Heap

/-- The name of programs without another. -/
def programName : String := "<toplevel>"

/-- Compile a value to a program. -/
def compile (h : Heap) (v : Value) (location : Option Location) (name : String) :
    Except CompileFailure (Heap × Ref .method) :=
  match Expr.ofValue h location v with
  | .error e => .error (.rejected e)
  | .ok e =>
    match e.program h name location with
    | .error f => .error (.assembly f)
    | .ok compiled => .ok compiled

end Heap

end MessageMachine
