/-
# Expressions

A value read as a program. Every combination is a message send: `(sel recv arg ...)`
sends `sel` to `recv`, and `(sel)` sends it to nil. A few heads are forms of
their own:

    (quote datum)                 (send recv selector-expr arg ...)
    (if test then [else])         (defclass Name [Base])
    (begin expr ...)              (defmethod Class (selector self arg ...) body ...)
    (define name expr)

Defining a class or a method is a send as well, of `subclass` or `install`, so
the forms come down to the nine constructors of `Expr`. In a method body the
names of the parameters stand for arguments; every other symbol is a global.

`Expr.ofValue` takes a value apart at the moment of compilation; what happens to
its pairs later does not change the expression.
-/

import MessageMachine.Heap.List

namespace MessageMachine

/-- What a program does to produce its value. -/
inductive Expr
  | constant (v : Value)
  /-- An argument of the enclosing method. -/
  | argument (index : Nat)
  | global (name : String)
  | conditional (test yes no : Expr)
  /-- The first for its effect, then the second. -/
  | sequence (first second : Expr)
  | define (name : String) (value : Expr)
  /-- A message to the first operand with the others. -/
  | send (selector : String) (operands : List Expr)
  /-- A message whose selector is computed last. -/
  | perform (receiver : Expr) (args : List Expr) (selector : Expr)
  /-- A method, as a value. -/
  | method (name : String) (argCount : Nat) (body : Expr) (source : Option Location)

instance : Inhabited Expr := ⟨.constant .nil⟩

namespace Expr

/-! ## Errors -/

/-- What is wrong with a form. -/
inductive Flaw
  | headNotSymbol
  | dotted
  | shape (expected : String)
  | definedName
  | classNames
  | methodClass
  | methodSignature
  | methodSelector
  | methodParameter
  | duplicateParameter (name : String)
  /-- Forms inside forms without end. -/
  | endless
  deriving DecidableEq, Repr

def Flaw.message : Flaw → String
  | headNotSymbol => "A combination must start with a selector symbol"
  | dotted => "Cannot compile a dotted list"
  | shape expected => s!"Expected {expected}"
  | definedName => "define needs a symbol name"
  | classNames => "defclass needs symbol names"
  | methodClass => "defmethod needs a class name"
  | methodSignature => "defmethod signature must name the selector and the receiver"
  | methodSelector => "defmethod selector must be a symbol"
  | methodParameter => "defmethod parameters must be symbols"
  | duplicateParameter name => s!"Duplicate parameter {name}"
  | endless => "Cannot compile an endless form"

/-- A flaw and the place of the form that has it. -/
structure Error where
  flaw : Flaw
  location : Option Location
  deriving DecidableEq, Repr

def Error.message (e : Error) : String :=
  match e.location with
  | some l => s!"{e.flaw.message} at {l.toText}"
  | none => e.flaw.message

/-! ## Method signatures -/

/-- The names of parameters, which must be different symbols. -/
def parameterNames (seen : List String) : List Value → Except Flaw (List String)
  | [] => .ok seen
  | .symbol name :: rest =>
    if seen.contains name then .error (.duplicateParameter name)
    else parameterNames (seen ++ [name]) rest
  | _ :: _ => .error .methodParameter

/-- The selector and the parameters, the receiver first, that a signature names. -/
def signature (h : Heap) (v : Value) : Except Flaw (String × List String) :=
  match h.elements? v with
  | some (selector :: receiver :: others) =>
    match selector.asSymbol? with
    | some name => (parameterNames [] (receiver :: others)).map fun params => (name, params)
    | none => .error .methodSelector
  | _ => .error .methodSignature

/-! ## From values to expressions -/

/-- Expressions in sequence; none at all stand for nil. -/
def inSequence (body : List Expr) : Expr :=
  match body.reverse with
  | [] => .constant .nil
  | last :: before => before.foldl (fun rest e => .sequence e rest) last

@[simp] theorem inSequence_cons_cons (first second : Expr) (rest : List Expr) :
    inSequence (first :: second :: rest) = .sequence first (inSequence (second :: rest)) := by
  unfold inSequence
  rw [List.reverse_cons]
  cases h : (second :: rest).reverse with
  | nil => simp at h
  | cons last before => simp

/-- A symbol, where the parameters are the ones given. -/
def ofSymbol (params : List String) (name : String) : Expr :=
  match params.idxOf? name with
  | some index => .argument index
  | none => .global name

/-- The definition of a class, a message to its base. -/
def classDefinition (name base : String) : Expr :=
  .send "subclass" [.global base, .constant (.symbol name)]

/-- The definition of a method, a message to its class. -/
def methodDefinition (className selector : String) (argCount : Nat) (body : Expr)
    (source : Option Location) : Expr :=
  .send "install"
    [.global className, .constant (.symbol selector),
     .method s!"{className}>>{selector}" argCount body source]

/-- The kinds of combinations, by head. -/
inductive Head
  | quote | conditional | sequence | define | perform | defineClass | defineMethod
  | selector (name : String)
  deriving DecidableEq, Repr

def Head.ofName : String → Head
  | "quote" => quote
  | "if" => conditional
  | "begin" => sequence
  | "define" => define
  | "send" => perform
  | "defclass" => defineClass
  | "defmethod" => defineMethod
  | name => selector name

/-- The expression of a form that is not a method definition, from its head and
its operands; `compile` gives the expression of an operand. -/
def ofForm (head : Head) (operands : List Value) (compile : Value → Except Error Expr)
    (refuse : Flaw → Except Error Expr) : Except Error Expr :=
  match head, operands with
  | .quote, [datum] => .ok (.constant datum)
  | .quote, _ => refuse (.shape "(quote datum)")
  | .conditional, [test, yes] => do
    return .conditional (← compile test) (← compile yes) (.constant .nil)
  | .conditional, [test, yes, no] => do
    return .conditional (← compile test) (← compile yes) (← compile no)
  | .conditional, _ => refuse (.shape "(if test then [else])")
  | .sequence, body => do return inSequence (← body.mapM compile)
  | .define, [.symbol name, value] => do return .define name (← compile value)
  | .define, [_, _] => refuse .definedName
  | .define, _ => refuse (.shape "(define name expr)")
  | .perform, receiver :: selector :: args => do
    let receiver ← compile receiver
    let args ← args.mapM compile
    return .perform receiver args (← compile selector)
  | .perform, _ => refuse (.shape "(send receiver selector arg ...)")
  | .defineClass, [.symbol name] => .ok (classDefinition name "Object")
  | .defineClass, [.symbol name, .symbol base] => .ok (classDefinition name base)
  | .defineClass, [_] => refuse .classNames
  | .defineClass, [_, _] => refuse .classNames
  | .defineClass, _ => refuse (.shape "(defclass Name [Base])")
  | .selector name, [] => .ok (.send name [.constant .nil])
  | .selector name, operands => do return .send name (← operands.mapM compile)
  | .defineMethod, _ =>
    refuse (.shape "(defmethod Class (selector self arg ...) body ...)")

/-- The parts of a method definition: class, selector, parameters, body. -/
def methodParts (h : Heap) (operands : List Value) :
    Except Flaw (String × String × List String × List Value) :=
  match operands with
  | className :: sign :: body =>
    match className.asSymbol? with
    | none => .error .methodClass
    | some className =>
      (signature h sign).map fun (selector, params) => (className, selector, params, body)
  | _ => .error (.shape "(defmethod Class (selector self arg ...) body ...)")

/-- The expression that a value denotes under some parameters. The place of a
form is where its list was read, or else that of the form around it. The fuel
bounds how deeply forms are nested. -/
def ofValueWithin (h : Heap) : Nat → List String → Option Location → Value → Except Error Expr
  | _, params, _, .symbol name => .ok (ofSymbol params name)
  | 0, _, outer, .pair _ => .error ⟨.endless, outer⟩
  | fuel + 1, params, outer, .pair r =>
    let location := (h.pair r).source.or outer
    match h.elements? (.pair r) with
    | none => .error ⟨.dotted, location⟩
    | some [] => .error ⟨.headNotSymbol, location⟩
    | some (head :: operands) =>
      match head.asSymbol?.map Head.ofName with
      | none => .error ⟨.headNotSymbol, location⟩
      | some .defineMethod =>
        match methodParts h operands with
        | .error flaw => .error ⟨flaw, location⟩
        | .ok (className, selector, params, body) => do
          let body ← body.mapM (ofValueWithin h fuel params location)
          return methodDefinition className selector params.length (inSequence body) location
      | some head =>
        ofForm head operands (ofValueWithin h fuel params location) fun flaw =>
          .error ⟨flaw, location⟩
  | _, _, _, v => .ok (.constant v)

/-- The expression that a value denotes at top level. Forms without a cycle are
nested no deeper than there are pairs. -/
def ofValue (h : Heap) (location : Option Location) (v : Value) : Except Error Expr :=
  ofValueWithin h (h.pairs.size + 1) [] location v

end Expr

end MessageMachine
