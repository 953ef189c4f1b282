/-
# What primitives do

The effect of each native behaviour on a machine. A primitive is given its whole
argument window, the receiver first. It changes the machine and says how to go
on: with an answer, by abandoning the execution, or by entering the machine
again in its place.

Arguments of the wrong kind are recoverable: the primitive reports and answers
nil. An integer that does not fit is not, and a string that would be longer than
any of the host is a fault of the host.
-/

import MessageMachine.Heap.Equality
import MessageMachine.Machine

namespace MessageMachine.Machine

/-! ## Answers -/

/-- Answer without further effect. -/
def answer (m : Machine) (v : Value) : Activity × Machine :=
  (.reply v, m)

/-- Report a recoverable failure of a primitive and answer nil. -/
def decline (m : Machine) (name message : String) : Activity × Machine :=
  (.reply .nil, m.report .primitiveFailed s!"{name}: {message}")

/-- Answer a number as an integer, if it is one that fits. -/
def answerNumber (m : Machine) (x : Binary64) : Activity × Machine :=
  match Value.ofNumber x with
  | .ok v => m.answer v
  | .error overflow => (.abandon (.overflow overflow), m)

def answerBool (m : Machine) (b : Bool) : Activity × Machine :=
  m.answer (.boolean b)

/-- Answer a new string, if the host has one for the text. -/
def answerString (m : Machine) (text : String) : Activity × Machine :=
  if HostText.Fits text then
    let (heap, v) := m.heap.allocString text
    (.reply v, { m with heap := heap })
  else (.fault (.outOfRange .overlong), m)

/-- Answer what a look into the image gave. -/
def answerFrom (m : Machine) (result : Except HostFault Value) : Activity × Machine :=
  match result with
  | .ok v => m.answer v
  | .error f => (.fault f, m)

/-- A message about an argument of the wrong kind. -/
def unexpected (m : Machine) (wanted : String) (v : Value) : String :=
  s!"expected {wanted}, got {m.heap.print v}"

/-! ## Integers

Results are computed in binary64 arithmetic. -/

namespace Operators

def arithmetic (op : Arithmetic) (a b : Binary64) : Binary64 :=
  match op with
  | .add => a.add b
  | .subtract => a.sub b
  | .multiply => a.mul b

def division (op : Division) (a b : Binary64) : Binary64 :=
  match op with
  | .quotient => (a.div b).trunc
  | .modulo => a.floorRem b

def comparison (op : Comparison) (a b : Int) : Bool :=
  match op with
  | .less => decide (a < b)
  | .greater => decide (b < a)
  | .lessEqual => decide (a ≤ b)
  | .greaterEqual => decide (b ≤ a)

end Operators

/-- Go on with two integers, or report the first argument that is not one. -/
def withIntegers (m : Machine) (name : String) (x y : Value)
    (go : Int → Int → Activity × Machine) : Activity × Machine :=
  match x.asInteger? with
  | none => m.decline name (m.unexpected "an integer" x)
  | some a =>
    match y.asInteger? with
    | none => m.decline name (m.unexpected "an integer" y)
    | some b => go a b

def arithmetic (m : Machine) (op : Arithmetic) (name : String) (x y : Value) :
    Activity × Machine :=
  m.withIntegers name x y fun a b =>
    m.answerNumber (Operators.arithmetic op (.ofInt a) (.ofInt b))

def division (m : Machine) (op : Division) (name : String) (x y : Value) :
    Activity × Machine :=
  m.withIntegers name x y fun a b =>
    if b = 0 then m.decline name "division by zero"
    else m.answerNumber (Operators.division op (.ofInt a) (.ofInt b))

def comparison (m : Machine) (op : Comparison) (name : String) (x y : Value) :
    Activity × Machine :=
  m.withIntegers name x y fun a b => m.answerBool (Operators.comparison op a b)

/-! ## Any value -/

def cons (m : Machine) (head tail : Value) : Activity × Machine :=
  let (heap, r) := m.heap.cons head tail
  (.reply (.pair r), { m with heap := heap })

def respondsTo (m : Machine) (name : String) (receiver selector : Value) :
    Activity × Machine :=
  match selector.asSymbol? with
  | none => m.decline name (m.unexpected "a symbol" selector)
  | some selector =>
    m.answerFrom ((m.image.respondsTo m.heap receiver selector).map .boolean)

def getSlot (m : Machine) (name : String) (receiver slot : Value) : Activity × Machine :=
  match receiver.asObject?, slot.asSymbol? with
  | some r, some slot => m.answer (((m.heap.object r).slots.get? slot).getD .nil)
  | _, _ => m.decline name "expected an instance and a slot name"

def setSlot (m : Machine) (name : String) (receiver slot v : Value) : Activity × Machine :=
  match receiver.asObject?, slot.asSymbol? with
  | some r, some slot => (.reply v, { m with heap := m.heap.setSlot r slot v })
  | _, _ => m.decline name "expected an instance and a slot name"

/-! ## Characters, symbols, strings -/

def charCode (m : Machine) (receiver : Value) : Activity × Machine :=
  match receiver with
  | .char code => m.answerNumber (.ofInt code)
  | _ => m.answer .nil

def symbolName (m : Machine) (receiver : Value) : Activity × Machine :=
  match receiver.asSymbol? with
  | some name => m.answerString name
  | none => m.answer .nil

def stringLength (m : Machine) (receiver : Value) : Activity × Machine :=
  match receiver.asString? with
  | some r => m.answerNumber (.ofInt (m.heap.stringText r).length)
  | none => m.answer .nil

def concat (m : Machine) (name : String) (receiver other : Value) : Activity × Machine :=
  match receiver.asString?, other.asString? with
  | some r, some s => m.answerString (m.heap.stringText r ++ m.heap.stringText s)
  | _, _ => m.decline name (m.unexpected "a string" other)

def intern (m : Machine) (receiver : Value) : Activity × Machine :=
  match receiver.asString? with
  | some r => m.answer (.symbol (m.heap.stringText r))
  | none => m.answer .nil

/-! ## Pairs -/

def head (m : Machine) (receiver : Value) : Activity × Machine :=
  m.answer ((receiver.asPair?.map m.heap.head).getD .nil)

def tail (m : Machine) (receiver : Value) : Activity × Machine :=
  m.answer ((receiver.asPair?.map m.heap.tail).getD .nil)

/-- Change a pair; anything else is left alone and the value answered as well. -/
def setHead (m : Machine) (receiver v : Value) : Activity × Machine :=
  match receiver.asPair? with
  | some r => (.reply v, { m with heap := m.heap.setHead r v })
  | none => m.answer v

def setTail (m : Machine) (receiver v : Value) : Activity × Machine :=
  match receiver.asPair? with
  | some r => (.reply v, { m with heap := m.heap.setTail r v })
  | none => m.answer v

/-! ## Functions and classes -/

/-- Call the function that is the first argument with the others. -/
def apply (m : Machine) (name : String) (args : List Value) : Activity × Machine :=
  match args with
  | [] => (.fault .missing, m)
  | f :: rest =>
    match f.asCallable? with
    | none => m.decline name s!"not callable: {m.heap.print f}"
    | some callable =>
      match rest with
      | [] => m.decline name "a receiver is required"
      | _ :: _ => (.request (.invoke callable rest), m)

def newInstance (m : Machine) (name : String) (receiver : Value) : Activity × Machine :=
  match receiver.asClass? with
  | none => m.answer .nil
  | some c =>
    let target := m.heap.classAt c
    if target.instantiable then
      let (heap, r) := m.heap.allocObject ⟨c, .empty⟩
      (.reply (.object r), { m with heap := heap })
    else m.decline name s!"cannot instantiate built-in class {target.name}"

def subclass (m : Machine) (name : String) (receiver newName : Value) : Activity × Machine :=
  match receiver.asClass?, newName.asSymbol? with
  | some base, some symbol =>
    let (heap, image, c) := m.image.defineClass m.heap symbol (some base) .«instance»
    (.reply (.classObject c), { m with heap := heap, image := image })
  | _, _ => m.decline name (m.unexpected "a class name" newName)

def installMethod (m : Machine) (name : String) (receiver selector function : Value) :
    Activity × Machine :=
  match receiver.asClass?, selector.asSymbol?, function.asCallable? with
  | some target, some symbol, some callable =>
    (.reply (.symbol symbol), { m with heap := m.heap.install target symbol callable })
  | _, _, _ => m.decline name "expected a class, a selector and a method"

def className (m : Machine) (receiver : Value) : Activity × Machine :=
  match receiver.asClass? with
  | some c => m.answerString (m.heap.classAt c).name
  | none => m.answer .nil

def baseClass (m : Machine) (receiver : Value) : Activity × Machine :=
  match receiver.asClass? with
  | some c =>
    m.answerFrom ((m.image.base? m.heap c).map fun base =>
      (base.map Value.classObject).getD .nil)
  | none => m.answer .nil

/-! ## Host behaviours -/

/-- The active frames as a list of pairs of method name and instruction pointer. -/
def backtraceList (m : Machine) : Heap × List Value :=
  m.backtrace.foldr
    (fun (name, ip) (heap, cells) =>
      let (heap, text) := heap.allocString name
      let (heap, r) := heap.cons text (.integer ip)
      (heap, .pair r :: cells))
    (m.heap, [])

def host (m : Machine) (behaviour : HostBehaviour) (name : String) (args : List Value) :
    Activity × Machine :=
  match behaviour with
  | .explode => (.fault .exploded, m)
  | .decline => m.decline name "host failure"
  | .arguments =>
    let (heap, v) := m.heap.list args
    (.reply v, { m with heap := heap })
  | .frameDepth => m.answerNumber (.ofInt m.frameDepth)
  | .operandDepth => m.answerNumber (.ofInt m.operandDepth)
  | .backtrace =>
    let (heap, cells) := m.backtraceList
    let (heap, v) := heap.list cells
    (.reply v, { m with heap := heap })
  | .execute =>
    match args with
    | _ :: .callable (.method program) :: _ => (.request (.execute program), m)
    | _ => (.fault .missing, m)
  | .resend =>
    match args with
    | _ :: receiver :: .symbol selector :: rest => (.request (.send receiver selector rest), m)
    | _ => (.fault .missing, m)

/-! ## All behaviours -/

/-- Perform a behaviour. Arguments beyond those given count as nil, which is
moot: the arity of a primitive is checked before. -/
def perform (m : Machine) (behaviour : Behaviour) (name : String) (args : List Value) :
    Activity × Machine :=
  let receiver := args.getD 0 .nil
  let first := args.getD 1 .nil
  let second := args.getD 2 .nil
  match behaviour with
  | .identical => m.answerBool (receiver.identical first)
  | .equal => m.answerBool (m.heap.equal receiver first)
  | .printed => m.answerString (m.heap.print receiver)
  | .classOf => m.answer (.classObject (m.image.classOf m.heap receiver))
  | .isNil => m.answerBool (decide (receiver = .nil))
  | .cons => m.cons receiver first
  | .respondsTo => m.respondsTo name receiver first
  | .getSlot => m.getSlot name receiver first
  | .setSlot => m.setSlot name receiver first second
  | .arithmetic op => m.arithmetic op name receiver first
  | .division op => m.division op name receiver first
  | .comparison op => m.comparison op name receiver first
  | .always b => m.answerBool b
  | .negation => m.answerBool (decide (receiver ≠ .boolean true))
  | .charCode => m.charCode receiver
  | .symbolName => m.symbolName receiver
  | .stringLength => m.stringLength receiver
  | .concat => m.concat name receiver first
  | .intern => m.intern receiver
  | .head => m.head receiver
  | .tail => m.tail receiver
  | .setHead => m.setHead receiver first
  | .setTail => m.setTail receiver first
  | .apply => m.apply name args
  | .newInstance => m.newInstance name receiver
  | .subclass => m.subclass name receiver first
  | .installMethod => m.installMethod name receiver first second
  | .className => m.className receiver
  | .baseClass => m.baseClass receiver
  | .host behaviour => m.host behaviour name args

end MessageMachine.Machine
