/-
# Images

An image is what threads of execution share besides the heap: a numbered table
of classes, the classes of built-in values by tag, and the global environment.
Defining a class gives it the next number and binds its name in the globals.

The base of a class is kept as a number and looked up in the table of the image
in use. Images that share a global environment see each other's classes there,
yet each numbers its own.
-/

import MessageMachine.Environment
import MessageMachine.HostFault

namespace MessageMachine

structure Image where
  classes : Array (Ref .classObject)
  /-- Classes of built-in values; the newest for a tag comes first. -/
  byTag : List (Tag × Ref .classObject)
  /-- The class of everything whose tag has no class. -/
  root : Ref .classObject
  globals : Environment
  deriving Inhabited

namespace Image

/-! ## Defining classes -/

/-- Add a class to the table and bind its name. Classes of user instances are
never found by tag. -/
def defineClass (image : Image) (h : Heap) (name : String) (base : Option (Ref .classObject))
    (instanceTag : Tag) : Heap × Image × Ref .classObject :=
  let baseNumber := base.map fun b => (h.classAt b).number
  let (h, ref) := h.allocClass ⟨image.classes.size, name, baseNumber, instanceTag, .empty⟩
  let byTag := if instanceTag = .«instance» then image.byTag else (instanceTag, ref) :: image.byTag
  let h := image.globals.define h name (.classObject ref)
  (h, { image with classes := image.classes.push ref, byTag := byTag }, ref)

/-! ## Finding classes -/

/-- The class with a number. -/
def classNumbered (image : Image) (number : Binary64) : Except HostFault (Ref .classObject) :=
  match number.toInt? with
  | some (.ofNat n) =>
    match image.classes[n]? with
    | some ref => .ok ref
    | none => .error (.outOfRange (.classNumber number))
  | _ => .error (.outOfRange (.classNumber number))

/-- The base of a class, in the table of this image. -/
def base? (image : Image) (h : Heap) (c : Ref .classObject) :
    Except HostFault (Option (Ref .classObject)) :=
  match (h.classAt c).base with
  | none => .ok none
  | some number =>
    match image.classes[number]? with
    | some base => .ok (some base)
    | none => .error (.outOfRange (.classNumber (.ofInt number)))

/-- The class of values with a tag. -/
def classForTag (image : Image) (tag : Tag) : Ref .classObject :=
  (image.byTag.lookup tag).getD image.root

/-- The class of a value: an instance knows its own, all else goes by tag. -/
def classOf (image : Image) (h : Heap) (v : Value) : Ref .classObject :=
  match v with
  | .object r => (h.object r).ofClass
  | _ => image.classForTag v.tag

/-! ## Base chains

A chain without repetition visits each class of the table once, and before
that, perhaps, a class of another image. -/

/-- The number of classes that a finite base chain may have. -/
def chainLimit (image : Image) : Nat :=
  image.classes.size + 1

/-- The base chain from a class on, the class included. -/
def chain (image : Image) (h : Heap) : Nat → Ref .classObject →
    Except HostFault (List (Ref .classObject))
  | 0, _ => .error .endlessBases
  | limit + 1, c =>
    match image.base? h c with
    | .error fault => .error fault
    | .ok none => .ok [c]
    | .ok (some base) => (image.chain h limit base).map (c :: ·)

/-- A class, its base, and so on up. -/
def ancestry (image : Image) (h : Heap) (c : Ref .classObject) :
    Except HostFault (List (Ref .classObject)) :=
  image.chain h image.chainLimit c

/-- A handler and the class that it was found on. -/
structure Handler where
  owner : Ref .classObject
  callable : Callable
  deriving DecidableEq, Inhabited

/-- Search a base chain from a class on. The first class with a handler for the
selector ends the search, whatever lies above it. -/
def search (image : Image) (h : Heap) (selector : String) : Nat → Ref .classObject →
    Except HostFault (Option Handler)
  | 0, _ => .error .endlessBases
  | limit + 1, c =>
    match h.ownHandler? c selector with
    | some callable => .ok (some ⟨c, callable⟩)
    | none =>
      match image.base? h c with
      | .error fault => .error fault
      | .ok none => .ok none
      | .ok (some base) => image.search h selector limit base

/-- The handler for a selector on a class. -/
def handler? (image : Image) (h : Heap) (c : Ref .classObject) (selector : String) :
    Except HostFault (Option Handler) :=
  image.search h selector image.chainLimit c

/-- Whether a value understands a message. -/
def respondsTo (image : Image) (h : Heap) (receiver : Value) (selector : String) :
    Except HostFault Bool :=
  (image.handler? h (image.classOf h receiver) selector).map Option.isSome

end Image

end MessageMachine
