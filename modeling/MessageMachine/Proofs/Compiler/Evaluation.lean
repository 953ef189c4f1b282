/-
# Direct evaluation

What a program means, said without code, frames or a stack. A form is evaluated by
recursion on itself, in a world that consists of the heap, the image and what has been
reported. An evaluation may be given up, which whoever began it turns into nil and a
report, and it may meet a failure of the host, which nobody catches. Since a program
need not come to an end, calls of functions are counted, and an evaluation that needs
more of them than it was given has no result.

Primitives are the one thing that is shared with the machine. What they do to the heap
and the image is defined on machines, so they are performed here on an idle one.
-/

import MessageMachine.Machine.Primitive

namespace MessageMachine

/-! ## Forms -/

/-- An expression as it is understood, with the methods in it already made. A symbol
may stand for an argument; the name of a global never does. -/
inductive Form
  | datum (v : Value)
  | symbol (name : String)
  | global (name : String)
  | conditional (test yes no : Form)
  | sequence (forms : List Form)
  | define (name : String) (value : Form)
  | message (selector : String) (operands : List Form)
  /-- A message whose selector is evaluated after the other operands. -/
  | computed (receiver : Form) (args : List Form) (selector : Form)

/-- A method as it is understood. The receiver is the first parameter. -/
structure Function where
  name : String
  params : List String
  body : Form

instance : Inhabited Function := ⟨⟨"", [], .datum .nil⟩⟩

/-! ## Worlds -/

/-- What an evaluation may depend on and change. -/
structure World where
  heap : Heap
  image : Image
  reports : List (Diagnostic.Kind × String)

/-- The world of a machine. Traces of instructions are no reports about the program. -/
def Machine.world (m : Machine) : World where
  heap := m.heap
  image := m.image
  reports := (m.log.toList.filter fun d => d.kind ≠ .trace).map fun d => (d.kind, d.message)

/-- Why an evaluation ends without a value. -/
inductive Stop
  | abandoned (why : Abort)
  | failed (f : HostFault)

/-- A value or a reason for having none, in a world that may have changed; or nothing,
when the calls did not suffice. -/
def Evaluation (α : Type) := World → Option (Except Stop α × World)

namespace Evaluation

instance : Monad Evaluation where
  pure a w := some (.ok a, w)
  bind x f w :=
    match x w with
    | none => none
    | some (.error stop, w) => some (.error stop, w)
    | some (.ok a, w) => f a w

variable {α : Type}

theorem bind_apply {β : Type} (x : Evaluation α) (f : α → Evaluation β) (w : World) :
    (x >>= f) w =
      match x w with
      | none => none
      | some (.error stop, w) => some (.error stop, w)
      | some (.ok a, w) => f a w := rfl

def unfinished : Evaluation α := fun _ => none

def stop (why : Stop) : Evaluation α := fun w => some (.error why, w)

def world : Evaluation World := fun w => some (.ok w, w)

theorem world_bind (f : World → Evaluation α) (w : World) : (world >>= f) w = f w w := rfl

def report (kind : Diagnostic.Kind) (message : String) : Evaluation Unit := fun w =>
  some (.ok (), { w with reports := w.reports ++ [(kind, message)] })

/-- Report a problem after which the evaluation goes on with nil. -/
def complain (kind : Diagnostic.Kind) (message : String) : Evaluation Value := do
  report kind message
  return .nil

theorem complain_eq (kind : Diagnostic.Kind) (message : String) (w : World) :
    complain kind message w =
      some (.ok .nil, { w with reports := w.reports ++ [(kind, message)] }) := rfl

/-- Nil and a report, if the evaluation is given up. -/
def contain (x : Evaluation Value) : Evaluation Value := fun w =>
  match x w with
  | some (.error (.abandoned why), w) =>
    complain why.kind s!"Execution abandoned: {why.message}" w
  | other => other

/-- Where something was contained, nothing is left to be. -/
theorem contain_contain (x : Evaluation Value) : contain (contain x) = contain x := by
  funext w
  unfold contain
  cases x w with
  | none => rfl
  | some result =>
    match result with
    | (.ok v, w) => rfl
    | (.error (.abandoned why), w) => rfl
    | (.error (.failed f), w) => rfl

/-- What is contained is not given up. -/
theorem contain_ne_abandoned {x : Evaluation Value} {why : Abort} {w w' : World} :
    contain x w ≠ some (.error (.abandoned why), w') := by
  unfold contain
  cases x w with
  | none => exact nofun
  | some result =>
    match result with
    | (.ok v, _) => exact nofun
    | (.error (.abandoned _), _) => exact nofun
    | (.error (.failed _), _) => exact nofun

/-! ## Names -/

/-- The newest global binding of a name. -/
def lookup (name : String) : Evaluation Value := do
  let w ← world
  match w.image.globals.lookup? w.heap name with
  | some v => return v
  | none => complain .undefinedIdentifier s!"Undefined identifier: {name}"

theorem lookup_of_some {name : String} {v : Value} {w : World}
    (found : w.image.globals.lookup? w.heap name = some v) : lookup name w = some (.ok v, w) := by
  unfold lookup
  simp only [world_bind, found]
  rfl

theorem lookup_of_none {name : String} {w : World}
    (missing : w.image.globals.lookup? w.heap name = none) :
    lookup name w =
      complain .undefinedIdentifier s!"Undefined identifier: {name}" w := by
  unfold lookup
  simp only [world_bind, missing]

/-- Bind a name globally. -/
def bindGlobal (name : String) (v : Value) : Evaluation Value := fun w =>
  some (.ok v, { w with heap := w.image.globals.define w.heap name v })

/-! ## Messages -/

/-- The complaint about a wrong number of arguments; both counts include the receiver. -/
def wrongArity (name : String) (expected : Int) (actual : Nat) : Evaluation Value :=
  let wanted := expected - 1
  let given : Int := (actual : Int) - 1
  complain .arityMismatch s!"{name} expects {wanted} arguments besides the receiver, got {given}"

/-- Send a message to the first operand with the others; `apply` calls its handler. -/
def dispatch (apply : Callable → List Value → Evaluation Value) (selector : Value)
    (operands : List Value) : Evaluation Value := do
  let w ← world
  match selector.asSymbol? with
  | none =>
    let printed := w.heap.print selector
    complain .messageNotUnderstood s!"Selector is not a symbol: {printed}"
  | some name =>
    let receiver := operands.headD .nil
    let c := w.image.classOf w.heap receiver
    match w.image.handler? w.heap c name with
    | .error f => stop (.failed f)
    | .ok none =>
      complain .messageNotUnderstood
        s!"{w.heap.print receiver} ({(w.heap.classAt c).name}) does not understand {name}"
    | .ok (some handler) => apply handler.callable operands

section

variable {apply : Callable → List Value → Evaluation Value} {selector : Value} {name : String}
  {operands : List Value} {w : World}

theorem dispatch_of_none (none_ : selector.asSymbol? = none) :
    dispatch apply selector operands w =
      complain .messageNotUnderstood s!"Selector is not a symbol: {w.heap.print selector}" w := by
  unfold dispatch
  simp only [world_bind, none_]

theorem dispatch_of_error {f : HostFault} (symbol : selector.asSymbol? = some name)
    (error : w.image.handler? w.heap (w.image.classOf w.heap (operands.headD .nil)) name =
      .error f) :
    dispatch apply selector operands w = some (.error (.failed f), w) := by
  unfold dispatch
  simp only [world_bind, symbol, error]
  rfl

theorem dispatch_of_missing (symbol : selector.asSymbol? = some name)
    (missing : w.image.handler? w.heap (w.image.classOf w.heap (operands.headD .nil)) name =
      .ok none) :
    dispatch apply selector operands w =
      complain .messageNotUnderstood
        s!"{w.heap.print (operands.headD .nil)} ({(w.heap.classAt
          (w.image.classOf w.heap (operands.headD .nil))).name}) does not understand {name}" w := by
  unfold dispatch
  simp only [world_bind, symbol, missing]

theorem dispatch_of_handler {handler : Image.Handler} (symbol : selector.asSymbol? = some name)
    (found : w.image.handler? w.heap (w.image.classOf w.heap (operands.headD .nil)) name =
      .ok (some handler)) :
    dispatch apply selector operands w = apply handler.callable operands w := by
  unfold dispatch
  simp only [world_bind, symbol, found]

end

/-- Go on as a primitive does that was performed on an idle machine. A function that it
calls is given up for itself, and the primitive goes on with its answer. -/
def proceed (apply : Callable → List Value → Evaluation Value) (next : Machine.Activity)
    (m : Machine) : Evaluation Value := fun w =>
  let w := { m.world with reports := w.reports ++ m.world.reports }
  match next with
  | .reply v => some (.ok v, w)
  | .abandon why => some (.error (.abandoned why), w)
  | .fault f => some (.error (.failed f), w)
  | .request (.invoke callable args) => contain (apply callable args) w
  -- No standard primitive goes on in another way.
  | _ => some (.error (.failed .missing), w)

/-- Perform a primitive. -/
def perform (apply : Callable → List Value → Evaluation Value) (p : Primitive)
    (args : List Value) : Evaluation Value := do
  let w ← world
  let (next, m) := (Machine.idle w.heap w.image .standard).perform p.behaviour p.name args
  proceed apply next m

def callPrimitive (apply : Callable → List Value → Evaluation Value) (p : Primitive)
    (args : List Value) : Evaluation Value :=
  match p.arity with
  | some expected =>
    if expected = args.length then perform apply p args
    else wrongArity p.name expected args.length
  | none => perform apply p args

end Evaluation

open Evaluation

namespace Form

variable (send : Value → List Value → Evaluation Value) (scope : List (String × Value))

mutual

/-- The value of a form, where some names are bound to arguments; `send` sends a
message given as selector and operands. -/
def eval (form : Form) : Evaluation Value :=
  match form with
  | datum v => pure v
  | symbol name =>
    match scope.lookup name with
    | some v => pure v
    | none => lookup name
  | global name => lookup name
  | conditional test yes no => do
    let v ← test.eval
    if v.truthy then yes.eval else no.eval
  | sequence forms => evalInOrder forms
  | define name value => do
    let v ← value.eval
    bindGlobal name v
  | message selector operands => do
    let values ← evalAll operands
    send (.symbol selector) values
  | computed receiver args selector => do
    let first ← receiver.eval
    let others ← evalAll args
    let selector ← selector.eval
    send selector (first :: others)

/-- The values of forms, from left to right. -/
def evalAll (forms : List Form) : Evaluation (List Value) :=
  match forms with
  | [] => pure []
  | form :: rest => do
    let v ← form.eval
    let values ← evalAll rest
    return v :: values

/-- The value of the last of some forms, evaluated in order; nil if there is none. -/
def evalInOrder (forms : List Form) : Evaluation Value :=
  match forms with
  | [] => pure .nil
  | [form] => form.eval
  | form :: next :: rest => do
    let _ ← form.eval
    evalInOrder (next :: rest)

end

end Form

namespace Evaluation

/-- Call a function with arguments, the receiver first. Methods are known by their
place in the library. -/
def apply (library : List Function) : Nat → Callable → List Value → Evaluation Value
  | 0, _, _ => unfinished
  | calls + 1, .primitive p, args => do
    let w ← world
    callPrimitive (apply library calls) (w.heap.primitive p) args
  | calls + 1, .method r, args =>
    let f := library.getD r.index default
    if f.params.length = args.length then
      f.body.eval (dispatch (apply library calls)) (f.params.zip args)
    else wrongArity f.name f.params.length args.length

/-- Evaluate a form as a program, with no more than the given number of calls inside
each other. -/
def program (library : List Function) (calls : Nat) (form : Form) : Evaluation Value :=
  contain (form.eval (dispatch (apply library calls)) [])

end Evaluation

end MessageMachine
