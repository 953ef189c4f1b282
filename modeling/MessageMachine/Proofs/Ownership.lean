/-
# Classes that belong to an image

An image looks bases up by number in its own class table, and nothing stops a
program from mixing classes of several images. When every class belongs to the
image in use, lookups cannot fail: a base was numbered before the class that it is
the base of, so numbers fall along every base chain and the chain ends within the
table.
-/

import MessageMachine.Proofs.Image.Class
import MessageMachine.Proofs.Image.Lineage

namespace MessageMachine

namespace Image

/-- Every class of the heap was numbered by the image, after its base. -/
structure Owns (image : Image) (h : Heap) : Prop where
  /-- A class of the table carries the number of its place. -/
  numbered : ∀ (number : Nat) (c : Ref .classObject),
    image.classes[number]? = some c → (h.classAt c).number = number
  /-- The number of a class of the heap is one of the table. -/
  listed : ∀ c : Ref .classObject,
    c.index < h.classes.size → (h.classAt c).number < image.classes.size
  /-- A base was numbered before. -/
  older : ∀ (c : Ref .classObject) (base : Nat),
    (h.classAt c).base = some base → base < (h.classAt c).number

variable {image : Image} {h : Heap}

/-- Every number is below the limit on the length of chains. -/
theorem Owns.number_lt (owns : image.Owns h) (c : Ref .classObject) :
    (h.classAt c).number < image.chainLimit := by
  unfold chainLimit
  by_cases here : c.index < h.classes.size
  · exact Nat.lt_succ_of_lt (owns.listed c here)
  · rw [Heap.classAt_of_size_le (Nat.le_of_not_lt here)]
    exact Nat.succ_pos _

/-- The base of a class is found, and its number is lower. -/
theorem Owns.base?_eq (owns : image.Owns h) (c : Ref .classObject) :
    image.base? h c = .ok none ∨
      ∃ base, image.base? h c = .ok (some base) ∧
        (h.classAt base).number < (h.classAt c).number := by
  unfold base?
  cases found : (h.classAt c).base with
  | none => exact .inl rfl
  | some number =>
    right
    have lt := owns.older c number found
    have below := owns.number_lt c
    have within : number < image.classes.size := by
      unfold chainLimit at below
      omega
    have entry : image.classes[number]? = some image.classes[number] :=
      Array.getElem?_eq_getElem within
    refine ⟨image.classes[number], ?_, ?_⟩
    · simp only [entry]
    · rw [owns.numbered number _ entry]
      exact lt

/-- Every class has a base chain. -/
theorem Owns.exists_lineage (owns : image.Owns h) (c : Ref .classObject) :
    ∃ chain, Lineage image h c chain :=
  Image.exists_lineage (P := fun _ => True)
    (fun c _ => (owns.base?_eq c).imp_right fun ⟨base, next, lower⟩ =>
      ⟨base, next, trivial, lower⟩) trivial

/-- The handler of a selector is looked up without a failure. -/
theorem Owns.handler?_ok (owns : image.Owns h) (c : Ref .classObject) (selector : String) :
    ∃ found, image.handler? h c selector = .ok found := by
  obtain ⟨chain, lineage⟩ := owns.exists_lineage c
  exact ⟨_, lineage.handler?_eq selector⟩

end Image

end MessageMachine
