/-
# The standard image

A new image has the classes of the built-in values, each deriving from `Object`,
and binds them together with `nil`, `true` and `false` in its globals. Unless it
is to be bare, the classes get their primitives.
-/

import MessageMachine.Image

namespace MessageMachine.Image

/-! ## Classes -/

/-- The classes derived from `Object`, with the tags of their instances. -/
def builtinClasses : List (String × Tag) :=
  [("UndefinedObject", .nil), ("Boolean", .boolean), ("Integer", .integer),
   ("Character", .char), ("Symbol", .symbol), ("String", .string), ("Pair", .pair),
   ("Function", .function), ("Class", .«class»)]

/-- An image without classes. -/
def blank (globals : Environment) : Image :=
  ⟨#[], [], default, globals⟩

/-- Define the built-in classes and the constants. -/
def withClasses (h : Heap) (globals : Environment) : Heap × Image :=
  let (h, image, root) := (blank globals).defineClass h "Object" none .unknown
  let image := { image with root := root }
  let (h, image) := builtinClasses.foldl
    (fun (h, image) (name, tag) =>
      let (h, image, _) := image.defineClass h name (some root) tag
      (h, image))
    (h, image)
  let h := globals.define h "nil" .nil
  let h := globals.define h "true" (.boolean true)
  let h := globals.define h "false" (.boolean false)
  (h, image)

/-! ## Primitives -/

/-- The standard primitives: the tag of the class (`Object` has the unknown
one), the selector, the number of arguments with the receiver, the behaviour. -/
def standardPrimitives : List (Tag × String × Option Int × Behaviour) :=
  [(.unknown, "==", some 2, .identical),
   (.unknown, "=", some 2, .equal),
   (.unknown, "print", some 1, .printed),
   (.unknown, "class", some 1, .classOf),
   (.unknown, "isNil", some 1, .isNil),
   (.unknown, "cons", some 2, .cons),
   (.unknown, "respondsTo", some 2, .respondsTo),
   (.unknown, "get", some 2, .getSlot),
   (.unknown, "set", some 3, .setSlot),
   (.integer, "+", some 2, .arithmetic .add),
   (.integer, "-", some 2, .arithmetic .subtract),
   (.integer, "*", some 2, .arithmetic .multiply),
   (.integer, "/", some 2, .division .quotient),
   (.integer, "mod", some 2, .division .modulo),
   (.integer, "<", some 2, .comparison .less),
   (.integer, ">", some 2, .comparison .greater),
   (.integer, "<=", some 2, .comparison .lessEqual),
   (.integer, ">=", some 2, .comparison .greaterEqual),
   (.nil, "isNil", some 1, .always true),
   (.boolean, "not", some 1, .negation),
   (.char, "code", some 1, .charCode),
   (.symbol, "name", some 1, .symbolName),
   (.string, "length", some 1, .stringLength),
   (.string, "concat", some 2, .concat),
   (.string, "intern", some 1, .intern),
   (.pair, "head", some 1, .head),
   (.pair, "tail", some 1, .tail),
   (.pair, "setHead", some 2, .setHead),
   (.pair, "setTail", some 2, .setTail),
   (.function, "call", none, .apply),
   (.«class», "new", some 1, .newInstance),
   (.«class», "subclass", some 2, .subclass),
   (.«class», "install", some 3, .installMethod),
   (.«class», "name", some 1, .className),
   (.«class», "base", some 1, .baseClass)]

/-- Make a primitive and install it under its name. -/
def installPrimitive (h : Heap) (c : Ref .classObject) (p : Primitive) : Heap :=
  let (h, callable) := h.allocPrimitive p
  h.install c p.name callable

/-- Install the standard primitives on the classes of an image. -/
def withPrimitives (h : Heap) (image : Image) : Heap :=
  standardPrimitives.foldl
    (fun h (tag, name, arity, behaviour) =>
      installPrimitive h (image.classForTag tag) ⟨name, arity, behaviour⟩)
    h

/-- A new image, in a global environment of its own or a shared one. -/
def create (h : Heap) (shared : Option Environment) (bare : Bool) : Heap × Image :=
  let (h, globals) :=
    match shared with
    | some globals => (h, globals)
    | none => Environment.create h none
  let (h, image) := withClasses h globals
  (if bare then h else withPrimitives h image, image)

end MessageMachine.Image
