/-
# Data without a cycle

A value is acyclic when heads and tails lead to an end from it, whichever are followed. What
it is made of is then nested no deeper than there are pairs (`Acyclic.within`): on a way of
least possible length every level is that of a pair of its own.

`ListOf` is what a proper list is, and within that depth a walk along tails finds it.
-/

import Mathlib.Data.Fintype.Card
import Mathlib.Data.Nat.Find
import MessageMachine.Heap.List
import MessageMachine.Proofs.Heap.Unfolding

namespace MessageMachine.Heap

/-! ## Depth -/

/-- Heads and tails lead to an end, in pairs that the heap holds. -/
inductive Acyclic (h : Heap) : Value → Prop
  | atom {v : Value} : v.asPair? = none → Acyclic h v
  | pair {r : Ref .pair} {cell : Pair} : h.pairs[r.index]? = some cell →
      Acyclic h cell.head → Acyclic h cell.tail → Acyclic h (.pair r)

/-- They lead to an end in so many steps. -/
inductive Within (h : Heap) : Nat → Value → Prop
  | atom {bound : Nat} {v : Value} : v.asPair? = none → Within h bound v
  | pair {bound : Nat} {r : Ref .pair} {cell : Pair} : h.pairs[r.index]? = some cell →
      Within h bound cell.head → Within h bound cell.tail → Within h (bound + 1) (.pair r)

variable {h : Heap} {bound bound' limit : Nat} {v : Value} {xs : List Value}

theorem Within.mono (within : h.Within bound v) (le : bound ≤ bound') : h.Within bound' v := by
  induction within generalizing bound' with
  | atom apart => exact .atom apart
  | pair held _ _ head tail =>
    obtain ⟨more, rfl⟩ := Nat.exists_eq_add_of_le' le
    exact .pair held (head (Nat.le_add_left _ more)) (tail (Nat.le_add_left _ more))

/-- It takes so many steps, and cannot be done in fewer. -/
def Deep (h : Heap) (depth : Nat) (v : Value) : Prop :=
  h.Within depth v ∧ ∀ less < depth, ¬ h.Within less v

theorem Acyclic.exists_deep (acyclic : h.Acyclic v) : ∃ depth, h.Deep depth v := by
  classical
  have bounded : ∃ bound, h.Within bound v := by
    induction acyclic with
    | atom apart => exact ⟨0, .atom apart⟩
    | pair held _ _ head tail =>
      obtain ⟨left, head⟩ := head
      obtain ⟨right, tail⟩ := tail
      exact ⟨_, .pair held (head.mono (Nat.le_max_left left right))
        (tail.mono (Nat.le_max_right left right))⟩
  exact ⟨Nat.find bounded, Nat.find_spec bounded, fun less lt => Nat.find_min bounded lt⟩

namespace Deep

variable {depth depth' : Nat}

theorem unique (deep : h.Deep depth v) (deep' : h.Deep depth' v) : depth = depth' := by
  rcases Nat.lt_trichotomy depth depth' with lt | same | gt
  · exact absurd deep.1 (deep'.2 _ lt)
  · exact same
  · exact absurd deep'.1 (deep.2 _ gt)

/-- The depth of a pair is one more than that of its head or of its tail. -/
theorem exists_pair (deep : h.Deep (depth + 1) v) : ∃ (r : Ref .pair) (inner : Value),
    v = .pair r ∧ r.index < h.pairs.size ∧ h.Deep depth inner := by
  obtain ⟨within, least⟩ := deep
  cases within with
  | atom apart => exact absurd (.atom apart) (least 0 (Nat.succ_pos depth))
  | @pair _ r cell held head tail =>
    have inside := (Array.getElem?_eq_some_iff.1 held).1
    by_cases shallow : ∃ less < depth, h.Within less cell.head
    · refine ⟨r, cell.tail, rfl, inside, tail, fun less lt within => ?_⟩
      obtain ⟨less', lt', within'⟩ := shallow
      exact least (max less less' + 1) (by omega)
        (.pair held (within'.mono (Nat.le_max_right _ _)) (within.mono (Nat.le_max_left _ _)))
    · exact ⟨r, cell.head, rfl, inside, head, fun less lt within => shallow ⟨less, lt, within⟩⟩

/-- There is a pair at every level. -/
theorem exists_level (deep : h.Deep depth v) (level : Nat) (lt : level < depth) :
    ∃ place : Fin h.pairs.size, h.Deep (level + 1) (.pair ⟨place⟩) := by
  induction depth generalizing v with
  | zero => exact absurd lt (Nat.not_lt_zero level)
  | succ depth ih =>
    obtain ⟨r, inner, rfl, inside, deeper⟩ := deep.exists_pair
    rcases Nat.lt_or_eq_of_le (Nat.le_of_lt_succ lt) with below | rfl
    · exact ih deeper below
    · exact ⟨⟨r.index, inside⟩, deep⟩

/-- Pairs at different levels are different, so there are no more levels than pairs. -/
theorem le_size (deep : h.Deep depth v) : depth ≤ h.pairs.size := by
  choose place at_ using fun level : Fin depth => deep.exists_level level level.isLt
  have different : Function.Injective place := by
    intro level level' same
    have at' := at_ level
    rw [same] at at'
    exact Fin.ext (Nat.succ_injective (at'.unique (at_ level')))
  simpa using Fintype.card_le_of_injective place different

end Deep

theorem Acyclic.within (acyclic : h.Acyclic v) : h.Within h.pairs.size v := by
  obtain ⟨depth, deep⟩ := acyclic.exists_deep
  exact deep.1.mono deep.le_size

/-! ## Proper lists -/

/-- Pairs that the heap holds, linked by their tails, with nil at the end. -/
inductive ListOf (h : Heap) : Value → List Value → Prop
  | nil : ListOf h .nil []
  | cons {r : Ref .pair} {cell : Pair} {rest : List Value} : h.pairs[r.index]? = some cell →
      ListOf h cell.tail rest → ListOf h (.pair r) (cell.head :: rest)

namespace ListOf

/-- Every element is one level down, at least. -/
theorem within (listed : h.ListOf v xs) (within : h.Within (bound + 1) v) :
    ∀ x ∈ xs, h.Within bound x := by
  induction listed generalizing bound with
  | nil => exact fun x member => absurd member List.not_mem_nil
  | cons held listed ih =>
    cases within with
    | atom apart => cases apart
    | pair held' head tail =>
      cases held.symm.trans held'
      intro x member
      rcases List.mem_cons.1 member with rfl | later
      · exact head
      · exact ih (tail.mono bound.le_succ) x later

theorem length_le (listed : h.ListOf v xs) (within : h.Within bound v) : xs.length ≤ bound := by
  induction listed generalizing bound with
  | nil => exact Nat.zero_le bound
  | cons held _ ih =>
    cases within with
    | atom apart => cases apart
    | pair held' _ tail =>
      cases held.symm.trans held'
      exact Nat.succ_le_succ (ih tail)

end ListOf

/-- A walk that goes deep enough goes to the end of a list. -/
theorem listOf_iff_walk (within : h.Within bound v) (le : bound ≤ limit) :
    h.ListOf v xs ↔ (h.walk limit v).2 = .nil ∧ (h.walk limit v).1.map h.head = xs := by
  induction within generalizing limit xs with
  | @atom bound v apart =>
    rw [walk_of_ne_pair h limit apart]
    constructor
    · rintro (_ | _)
      · exact ⟨rfl, rfl⟩
      · cases apart
    · rintro ⟨rfl, rfl⟩
      exact .nil
  | @pair bound r cell held _ _ _ tail =>
    obtain ⟨limit, rfl⟩ := Nat.exists_eq_add_of_lt le
    obtain ⟨head_eq, tail_eq⟩ := pair_of_getElem? held
    rw [walk_succ_pair, List.map_cons, head_eq, tail_eq]
    have rest (xs : List Value) : h.ListOf cell.tail xs ↔
        (h.walk (bound + limit) cell.tail).2 = .nil ∧
          (h.walk (bound + limit) cell.tail).1.map h.head = xs :=
      tail (Nat.le_add_right bound limit)
    constructor
    · intro listed
      cases listed with
      | cons held' listed =>
        cases held.symm.trans held'
        exact ⟨((rest _).1 listed).1, congrArg _ ((rest _).1 listed).2⟩
    · rintro ⟨ends, rfl⟩
      exact .cons held ((rest _).2 ⟨ends, rfl⟩)

theorem elements?_eq_some_iff (within : h.Within h.pairs.size v) :
    h.elements? v = some xs ↔ h.ListOf v xs := by
  rw [listOf_iff_walk within le_rfl]
  unfold elements? spine
  simp

end MessageMachine.Heap
