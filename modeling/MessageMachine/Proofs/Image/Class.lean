/-
# What happens to classes

Two things are ever done to the classes of a heap: one is added, and a handler is put in front
of those that a class has for a selector. Neither changes the number or the base of a class
that is there. A class that an image defines takes the next place in the heap and the next
number in the table of the image, and has no handlers.

A new image is made by nothing else. It begins with the class `Object`, other classes are defined on
that one, and primitives are installed on them. What `Furnishing` says is kept by these steps holds
of every new image if it holds of the beginning.
-/

import MessageMachine.Image.Standard

namespace MessageMachine

namespace Heap

theorem classAt_allocClass (h : Heap) (c : Class) (r : Ref .classObject) :
    (h.allocClass c).1.classAt r = if r.index = h.classes.size then c else h.classAt r := by
  simp only [allocClass, classAt, Array.getD_eq_getD_getElem?, Array.getElem?_push]
  split
  · rfl
  · rfl

/-- Writing changes one place, provided that a class was stored there. -/
theorem classAt_setClass (h : Heap) (r s : Ref .classObject) (c : Class) :
    (h.setClass r c).classAt s = if s = r ∧ r.index < h.classes.size then c else h.classAt s := by
  obtain ⟨i⟩ := r
  obtain ⟨j⟩ := s
  simp only [setClass, classAt, Array.getD_eq_getD_getElem?, Array.getElem?_setIfInBounds,
    Ref.mk.injEq]
  grind

theorem classAt_of_size_le {h : Heap} {r : Ref .classObject} (outside : h.classes.size ≤ r.index) :
    h.classAt r = default := by
  unfold classAt
  rw [Array.getD_eq_getD_getElem?, Array.getElem?_eq_none outside]
  rfl

/-- The handlers that a class itself has for a selector, the newest first. -/
def handlersOn (h : Heap) (r : Ref .classObject) (selector : String) : List Callable :=
  ((h.classAt r).handlers.get? selector).getD []

theorem ownHandler?_eq (h : Heap) (r : Ref .classObject) (selector : String) :
    h.ownHandler? r selector = (h.handlersOn r selector).head? := by
  unfold ownHandler? handlersOn
  rcases (h.classAt r).handlers.get? selector with - | - | - <;> rfl

theorem handlersOn_of_size_le {h : Heap} {r : Ref .classObject} (outside : h.classes.size ≤ r.index)
    (selector : String) : h.handlersOn r selector = [] := by
  unfold handlersOn
  rw [classAt_of_size_le outside]
  rfl

theorem classAt_install (h : Heap) (r s : Ref .classObject) (selector : String) (c : Callable) :
    (h.install r selector c).classAt s =
      if s = r ∧ r.index < h.classes.size then
        { h.classAt r with
          handlers := (h.classAt r).handlers.insert selector (c :: h.handlersOn r selector) }
      else h.classAt s :=
  h.classAt_setClass r s _

theorem size_classes_install (h : Heap) (r : Ref .classObject) (selector : String)
    (c : Callable) : (h.install r selector c).classes.size = h.classes.size :=
  Array.size_setIfInBounds ..

theorem number_install (h : Heap) (r : Ref .classObject) (selector : String) (c : Callable)
    (s : Ref .classObject) :
    ((h.install r selector c).classAt s).number = (h.classAt s).number := by
  rw [classAt_install]
  split
  next here => rw [here.1]
  · rfl

theorem base_install (h : Heap) (r : Ref .classObject) (selector : String) (c : Callable)
    (s : Ref .classObject) :
    ((h.install r selector c).classAt s).base = (h.classAt s).base := by
  rw [classAt_install]
  split
  next here => rw [here.1]
  · rfl

/-- Installing puts a handler in front of those for the selector and leaves all others. -/
theorem handlersOn_install (h : Heap) (r s : Ref .classObject) (selector selector' : String)
    (c : Callable) (held : r.index < h.classes.size) :
    (h.install r selector c).handlersOn s selector' =
      if s = r ∧ selector' = selector then c :: h.handlersOn s selector'
      else h.handlersOn s selector' := by
  unfold handlersOn
  rw [classAt_install]
  by_cases here : s = r
  · subst here
    rw [if_pos ⟨rfl, held⟩]
    dsimp only
    rw [OrderedMap.get?_insert]
    by_cases same : selector = selector'
    · subst same
      rw [if_pos rfl, if_pos ⟨rfl, rfl⟩]
      rfl
    · rw [if_neg same, if_neg fun both => same both.2.symm]
  · rw [if_neg fun both => here both.1, if_neg fun both => here both.1]

/-- Classes are added, and those that were there stay as they were. -/
structure AddsClasses (h h' : Heap) : Prop where
  size : h.classes.size ≤ h'.classes.size
  same : ∀ c : Ref .classObject, c.index < h.classes.size → h'.classAt c = h.classAt c

variable {h h' h'' : Heap}

theorem AddsClasses.of_classes (classes : h'.classes = h.classes) : h.AddsClasses h' := by
  refine ⟨Nat.le_of_eq (congrArg Array.size classes).symm, fun c _ => ?_⟩
  unfold classAt
  rw [classes]

theorem AddsClasses.trans (first : h.AddsClasses h') (second : h'.AddsClasses h'') :
    h.AddsClasses h'' where
  size := Nat.le_trans first.size second.size
  same := fun c held =>
    (second.same c (Nat.lt_of_lt_of_le held first.size)).trans (first.same c held)

/-- A class that was added may get handlers. -/
theorem AddsClasses.install (adds : h.AddsClasses h') {d : Ref .classObject}
    (added : h.classes.size ≤ d.index) (selector : String) (callable : Callable) :
    h.AddsClasses (h'.install d selector callable) where
  size := by
    rw [size_classes_install]
    exact adds.size
  same := by
    intro c held
    rw [classAt_install, if_neg, adds.same c held]
    rintro ⟨rfl, -⟩
    exact Nat.lt_irrefl _ (Nat.lt_of_lt_of_le held added)

end Heap

namespace Image

variable (image : Image) (h : Heap) (name : String) (base : Option (Ref .classObject)) (tag : Tag)

theorem ref_defineClass : (image.defineClass h name base tag).2.2 = ⟨h.classes.size⟩ := rfl

theorem classes_defineClass :
    (image.defineClass h name base tag).2.1.classes = image.classes.push ⟨h.classes.size⟩ :=
  rfl

theorem size_classes_defineClass :
    (image.defineClass h name base tag).1.classes.size = h.classes.size + 1 :=
  Array.size_push _

theorem classAt_defineClass (c : Ref .classObject) :
    (image.defineClass h name base tag).1.classAt c =
      if c.index = h.classes.size then
        ⟨image.classes.size, name, base.map fun b => (h.classAt b).number, tag, .empty⟩
      else h.classAt c :=
  h.classAt_allocClass _ c

theorem addsClasses_defineClass : h.AddsClasses (image.defineClass h name base tag).1 where
  size := by
    rw [size_classes_defineClass]
    exact Nat.le_succ _
  same := by
    intro c held
    rw [classAt_defineClass, if_neg (Nat.ne_of_lt held)]

/-! ## New images -/

/-- What remains true while a new image gets its classes, constants and primitives. -/
structure Furnishing (P : Heap → Image → Prop) : Prop where
  define : ∀ {h : Heap} {image : Image} (name : String) (tag : Tag), P h image →
    P (image.defineClass h name (some image.root) tag).1
      (image.defineClass h name (some image.root) tag).2.1
  bind : ∀ {h : Heap} {image : Image} (e : Environment) (name : String) (v : Value), P h image →
    P (e.define h name v) image
  install : ∀ {h : Heap} {image : Image} (tag : Tag) (p : Primitive), P h image →
    P (installPrimitive h (image.classForTag tag) p) image

/-- An image in which `Object` is the only class. -/
def withObject (h : Heap) (globals : Environment) : Heap × Image :=
  let (h, image, root) := (blank globals).defineClass h "Object" none .unknown
  (h, { image with root := root })

namespace Furnishing

variable {P : Heap → Image → Prop} {h : Heap}

theorem foldl_defineClass (furnishing : Furnishing P) (root : Ref .classObject)
    (classes : List (String × Tag)) (done : Heap × Image) (rooted : done.2.root = root)
    (before : P done.1 done.2) :
    P (classes.foldl (fun (h, image) (name, tag) =>
      let (h, image, _) := image.defineClass h name (some root) tag
      (h, image)) done).1 (classes.foldl (fun (h, image) (name, tag) =>
      let (h, image, _) := image.defineClass h name (some root) tag
      (h, image)) done).2 := by
  induction classes generalizing done with
  | nil => exact before
  | cons entry rest ih =>
    subst rooted
    exact ih _ rfl (furnishing.define entry.1 entry.2 before)

theorem withClasses (furnishing : Furnishing P) {globals : Environment}
    (object : P (withObject h globals).1 (withObject h globals).2) :
    P (withClasses h globals).1 (withClasses h globals).2 := by
  unfold Image.withClasses
  unfold withObject at object
  generalize (blank globals).defineClass h "Object" none .unknown = made at object ⊢
  obtain ⟨h₁, image, root⟩ := made
  have rest := furnishing.foldl_defineClass root builtinClasses (h₁, { image with root := root })
    rfl object
  simp only
  exact furnishing.bind _ _ _ (furnishing.bind _ _ _ (furnishing.bind _ _ _ rest))

theorem withPrimitives (furnishing : Furnishing P) {image : Image} (before : P h image) :
    P (withPrimitives h image) image := by
  unfold Image.withPrimitives
  generalize standardPrimitives = entries
  induction entries generalizing h with
  | nil => exact before
  | cons entry rest ih => exact ih (furnishing.install entry.1 _ before)

theorem furnished (furnishing : Furnishing P) {globals : Environment}
    (object : P (withObject h globals).1 (withObject h globals).2) (bare : Bool) :
    P (if bare then (Image.withClasses h globals).1
        else Image.withPrimitives (Image.withClasses h globals).1 (Image.withClasses h globals).2)
      (Image.withClasses h globals).2 := by
  have classes := furnishing.withClasses object
  generalize Image.withClasses h globals = made at classes ⊢
  cases bare with
  | true => exact classes
  | false => exact furnishing.withPrimitives classes

/-- An environment of its own adds no class. -/
theorem create (furnishing : Furnishing P)
    (object : ∀ h' globals, h'.classes = h.classes →
      P (withObject h' globals).1 (withObject h' globals).2)
    (shared : Option Environment) (bare : Bool) :
    P (create h shared bare).1 (create h shared bare).2 := by
  unfold Image.create
  cases shared with
  | some globals => exact furnishing.furnished (object h globals rfl) bare
  | none =>
    have scope : (Environment.create h none).1.classes = h.classes := rfl
    exact furnishing.furnished (object _ (Environment.create h none).2 scope) bare

end Furnishing

end Image

end MessageMachine
