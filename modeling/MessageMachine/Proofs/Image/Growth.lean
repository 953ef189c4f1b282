/-
# Classes built on others

A program that runs defines classes and installs handlers. What it finds, it leaves in place:
a class keeps its base, a class that it defines has one, and values without a class of their own
go by the same classes as before. Handlers are put in front of those that a class has and none
is ever taken away, so a class that has the handlers of the beginning never got another one.

`BuiltOn` relates the classes of an image to those at some earlier time. Programs that run keep
it, whatever classes they derive from each other.
-/

import Mathlib.Data.List.Infix
import MessageMachine.Proofs.Image.Lineage
import MessageMachine.Proofs.Machine.Effect

namespace MessageMachine

/-- Installing puts a handler in front, if it does anything. -/
theorem Heap.handlersOn_suffix_install (h : Heap) (c d : Ref .classObject)
    (other selector : String) (callable : Callable) :
    h.handlersOn c selector <:+ (h.install d other callable).handlersOn c selector := by
  by_cases held : d.index < h.classes.size
  · rw [handlersOn_install _ _ _ _ _ _ held]
    split
    · exact List.suffix_cons _ _
    · exact List.suffix_refl _
  · unfold handlersOn
    rw [classAt_install, if_neg fun both => held both.2]

namespace Image

variable {h h' h₀ : Heap} {image image' image₀ : Image} {c : Ref .classObject}

/-! ## Bases -/

theorem base?_eq_none_iff : image.base? h c = .ok none ↔ (h.classAt c).base = none := by
  unfold base?
  cases (h.classAt c).base with
  | none => exact ⟨fun _ => rfl, fun _ => rfl⟩
  | some number =>
    refine ⟨fun found => ?_, nofun⟩
    dsimp only at found
    split at found <;> cases found

/-- The number of the base decides, and what the table has at that number. -/
theorem base?_congr (base : (h'.classAt c).base = (h.classAt c).base)
    (table : ∀ number, (h.classAt c).base = some number →
      image'.classes[number]? = image.classes[number]?) :
    image'.base? h' c = image.base? h c := by
  unfold base?
  rw [base]
  cases based : (h.classAt c).base with
  | none => rfl
  | some number =>
    dsimp only
    rw [table number based]

theorem InOrder.base?_defineClass (order : InOrder h image) (inside : c.index < h.classes.size)
    (name : String) (base : Option (Ref .classObject)) (tag : Tag) :
    (image.defineClass h name base tag).2.1.base? (image.defineClass h name base tag).1 c =
      image.base? h c := by
  apply base?_congr
  · rw [(image.addsClasses_defineClass h name base tag).same c inside]
  · intro number based
    have lower := order.owns.older c number based
    have listed := order.owns.listed c inside
    rw [classes_defineClass, Array.getElem?_push, if_neg (by omega)]

/-! ## What later classes leave alone -/

/-- The classes of an image were built on those of an earlier one. -/
structure BuiltOn (h₀ : Heap) (image₀ : Image) (h : Heap) (image : Image) : Prop where
  order : InOrder h image
  size : h₀.classes.size ≤ h.classes.size
  /-- A class that was there has the same base. -/
  bases : ∀ c, c.index < h₀.classes.size → image.base? h c = image₀.base? h₀ c
  /-- A class that was not there has a base. -/
  derived : ∀ c, h₀.classes.size ≤ c.index → c.index < h.classes.size →
    (h.classAt c).base ≠ none
  classForTag : ∀ tag, image.classForTag tag = image₀.classForTag tag
  /-- Handlers were put in front of others. -/
  handlers : ∀ c selector, h₀.handlersOn c selector <:+ h.handlersOn c selector

namespace BuiltOn

theorem refl (order : InOrder h image) : BuiltOn h image h image where
  order := order
  size := Nat.le_refl _
  bases := fun _ _ => rfl
  derived := fun _ outside inside => absurd inside (Nat.not_lt_of_le outside)
  classForTag := fun _ => rfl
  handlers := fun _ _ => List.suffix_refl _

variable (built : BuiltOn h₀ image₀ h image)
include built

theorem of_classes (classes : h'.classes = h.classes) : BuiltOn h₀ image₀ h' image := by
  have classAt (c : Ref .classObject) : h'.classAt c = h.classAt c := by
    unfold Heap.classAt
    rw [classes]
  constructor
  case order => exact built.order.of_classes classes
  case size => exact classes ▸ built.size
  case bases =>
    intro c inside
    rw [← built.bases c inside]
    exact base?_congr (congrArg Class.base (classAt c)) fun _ _ => rfl
  case derived =>
    intro c outside inside
    rw [classAt]
    exact built.derived c outside (classes ▸ inside)
  case classForTag => exact built.classForTag
  case handlers =>
    intro c selector
    unfold Heap.handlersOn
    rw [classAt]
    exact built.handlers c selector

/-- A class is derived from another one. It has no handlers yet. -/
theorem defineClass (name : String) (base : Ref .classObject) :
    BuiltOn h₀ image₀ (image.defineClass h name (some base) .«instance»).1
      (image.defineClass h name (some base) .«instance»).2.1 := by
  have classAt := image.classAt_defineClass h name (some base) .«instance»
  have size := image.size_classes_defineClass h name (some base) .«instance»
  constructor
  case order => exact built.order.defineClass name (some base) _
  case size =>
    rw [size]
    exact Nat.le_succ_of_le built.size
  case bases =>
    intro c inside
    have inside' := Nat.lt_of_lt_of_le inside built.size
    rw [built.order.base?_defineClass inside', built.bases c inside]
  case derived =>
    intro c outside inside
    rw [classAt]
    split
    · exact Option.some_ne_none _
    next earlier =>
      rw [size] at inside
      exact built.derived c outside (Nat.lt_of_le_of_ne (Nat.le_of_lt_succ inside) earlier)
  case classForTag => exact built.classForTag
  case handlers =>
    intro c selector
    by_cases last : c.index = h.classes.size
    · rw [Heap.handlersOn_of_size_le (last ▸ built.size)]
      exact List.nil_suffix
    · unfold Heap.handlersOn
      rw [classAt, if_neg last]
      exact built.handlers c selector

theorem install (d : Ref .classObject) (selector : String) (callable : Callable) :
    BuiltOn h₀ image₀ (h.install d selector callable) image where
  order := built.order.install d selector callable
  size := by
    rw [Heap.size_classes_install]
    exact built.size
  bases := by
    intro c inside
    rw [← built.bases c inside]
    exact base?_congr (h.base_install d selector callable c) fun _ _ => rfl
  derived := by
    intro c outside inside
    rw [Heap.size_classes_install] at inside
    rw [Heap.base_install]
    exact built.derived c outside inside
  classForTag := built.classForTag
  handlers := fun c other =>
    (built.handlers c other).trans (h.handlersOn_suffix_install c d selector other callable)

/-- Climbing bases from any class, one comes to a class of the beginning. -/
theorem lt_of_base?_none (top : image.base? h c = .ok none) (inside : c.index < h.classes.size) :
    c.index < h₀.classes.size := by
  by_contra outside
  exact built.derived c (Nat.le_of_not_lt outside) inside (base?_eq_none_iff.1 top)

end BuiltOn

end Image

namespace Machine

theorem stable_builtOn (h₀ : Heap) (image₀ : Image) : Stable (Image.BuiltOn h₀ image₀) where
  perform := by
    intro m behaviour name args built
    have effect := effect_perform m behaviour name args
    generalize m.perform behaviour name args = next at effect ⊢
    cases effect with
    | store v classes => exact built.of_classes classes
    | defineClass name base v => exact built.defineClass name base
    | install c selector callable v => exact built.install c selector callable
    | _ => exact built
  define := fun _ _ _ _ built => built.of_classes rfl

end Machine

end MessageMachine
