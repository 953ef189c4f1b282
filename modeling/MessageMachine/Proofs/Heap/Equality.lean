/-
# Comparisons come to an end

Structural equality is a loop over what is pending, and `agree` bounds the number of its
rounds. `Settles` is the loop without a bound: a comparison that settles is one that ends
by itself, with the answer given. Every comparison settles, and the answer is that of
`equal`, so the bound makes no difference. This is so whether or not the cells form
cycles, since a pair of cells is not taken up twice.
-/

import Mathlib.Data.Finset.Prod
import MessageMachine.Heap.Equality

namespace MessageMachine.Heap

/-- The comparison of all that is pending comes to an end with an answer, `compared` being
the pairs of cells taken up so far. -/
inductive Settles (h : Heap) : List (Value × Value) → CellPairs → Bool → Prop
  | done (compared : CellPairs) : Settles h [] compared true
  | identical {x y : Value} {pending : List (Value × Value)} {compared : CellPairs}
      {answer : Bool} :
      x.identical y = true → Settles h pending compared answer →
      Settles h ((x, y) :: pending) compared answer
  | again {p q : Ref .pair} {pending : List (Value × Value)} {compared : CellPairs}
      {answer : Bool} :
      compared.contains (p.index, q.index) = true → Settles h pending compared answer →
      Settles h ((.pair p, .pair q) :: pending) compared answer
  | cells {p q : Ref .pair} {pending : List (Value × Value)} {compared : CellPairs}
      {answer : Bool} :
      (Value.pair p).identical (.pair q) = false →
      compared.contains (p.index, q.index) = false →
      Settles h ((h.head p, h.head q) :: (h.tail p, h.tail q) :: pending)
        (compared.insert (p.index, q.index)) answer →
      Settles h ((.pair p, .pair q) :: pending) compared answer
  | strings {r t : Ref .string} {pending : List (Value × Value)} {compared : CellPairs}
      {answer : Bool} :
      h.stringText r = h.stringText t → Settles h pending compared answer →
      Settles h ((.string r, .string t) :: pending) compared answer
  /-- Nothing else is equal. -/
  | apart {x y : Value} {pending : List (Value × Value)} {compared : CellPairs} :
      x.identical y = false → (∀ p q, x = .pair p → y ≠ .pair q) →
      (∀ r t, x = .string r → y = .string t → h.stringText r ≠ h.stringText t) →
      Settles h ((x, y) :: pending) compared false

/-! ## Pairs of cells that are left -/

/-- The pairs of cells of a heap that have not been taken up. -/
def uncompared (h : Heap) (compared : CellPairs) : Finset (Nat × Nat) :=
  (Finset.range h.pairs.size ×ˢ Finset.range h.pairs.size).filter
    fun cells => compared.contains cells = false

theorem mem_uncompared {h : Heap} {compared : CellPairs} {cells : Nat × Nat} :
    cells ∈ h.uncompared compared ↔ (cells.1 < h.pairs.size ∧ cells.2 < h.pairs.size) ∧
      compared.contains cells = false := by
  unfold uncompared
  rw [Finset.mem_filter, Finset.mem_product, Finset.mem_range, Finset.mem_range]

theorem uncompared_insert_subset (h : Heap) (compared : CellPairs) (cells : Nat × Nat) :
    h.uncompared (compared.insert cells) ⊆ (h.uncompared compared).erase cells := by
  intro other inside
  obtain ⟨held, fresh⟩ := mem_uncompared.1 inside
  refine Finset.mem_erase.2 ⟨?_, mem_uncompared.2 ⟨held, ?_⟩⟩
  · rintro rfl
    rw [Std.TreeSet.contains_insert_self] at fresh
    cases fresh
  · rw [Std.TreeSet.contains_insert, Bool.or_eq_false_iff] at fresh
    exact fresh.2

/-- Taking up a pair of cells leaves no more than there were. -/
theorem card_uncompared_insert_le (h : Heap) (compared : CellPairs) (cells : Nat × Nat) :
    (h.uncompared (compared.insert cells)).card ≤ (h.uncompared compared).card :=
  Finset.card_le_card ((h.uncompared_insert_subset compared cells).trans (Finset.erase_subset _ _))

/-- Taking up a pair of cells of the heap leaves one fewer. -/
theorem card_uncompared_insert_lt {h : Heap} {compared : CellPairs} {cells : Nat × Nat}
    (fresh : cells ∈ h.uncompared compared) :
    (h.uncompared (compared.insert cells)).card < (h.uncompared compared).card :=
  Nat.lt_of_le_of_lt (Finset.card_le_card (h.uncompared_insert_subset compared cells))
    (Finset.card_erase_lt_of_mem fresh)

theorem card_uncompared_le (h : Heap) (compared : CellPairs) :
    (h.uncompared compared).card ≤ h.pairs.size * h.pairs.size := by
  unfold uncompared
  refine (Finset.card_filter_le _ _).trans (Nat.le_of_eq ?_)
  rw [Finset.card_product, Finset.card_range]

/-! ## Rounds -/

/-- What a pending comparison costs, other than for pairs of cells of the heap. -/
def rounds : Value × Value → Nat
  | (.pair _, .pair _) => 3
  | _ => 1

theorem rounds_pos (entry : Value × Value) : 0 < rounds entry := by
  unfold rounds
  split <;> decide

theorem rounds_le (entry : Value × Value) : rounds entry ≤ 3 := by
  unfold rounds
  split <;> decide

/-- What all that is pending costs. -/
def roundsOf : List (Value × Value) → Nat
  | [] => 0
  | entry :: pending => rounds entry + roundsOf pending

/-- A cell that the heap does not hold is an empty one. -/
theorem empty_of_size_le {h : Heap} {r : Ref .pair} (outside : h.pairs.size ≤ r.index) :
    h.head r = .nil ∧ h.tail r = .nil := by
  have none_ : h.pair r = default := by
    unfold pair
    rw [Array.getD_eq_getD_getElem?, Array.getElem?_eq_none outside]
    rfl
  unfold head tail
  rw [none_]
  exact ⟨rfl, rfl⟩

theorem rounds_of_empty {h : Heap} {p q : Ref .pair}
    (outside : h.pairs.size ≤ p.index ∨ h.pairs.size ≤ q.index) :
    rounds (h.head p, h.head q) = 1 ∧ rounds (h.tail p, h.tail q) = 1 := by
  rcases outside with none_ | none_
  · obtain ⟨head, tail⟩ := empty_of_size_le none_
    rw [head, tail]
    exact ⟨rfl, rfl⟩
  · obtain ⟨head, tail⟩ := empty_of_size_le none_
    rw [head, tail]
    cases h.head p with
    | pair => cases h.tail p <;> exact ⟨rfl, rfl⟩
    | _ => cases h.tail p <;> exact ⟨rfl, rfl⟩

theorem roundsOf_append (first second : List (Value × Value)) :
    roundsOf (first ++ second) = roundsOf first + roundsOf second := by
  induction first with
  | nil => rw [List.nil_append, roundsOf, Nat.zero_add]
  | cons entry rest ih => rw [List.cons_append, roundsOf, roundsOf, ih, Nat.add_assoc]

/-- Taking up a pair of cells costs more than what then becomes pending. -/
theorem roundsOf_cells_lt {h : Heap} {p q : Ref .pair} {compared : CellPairs}
    (pending : List (Value × Value)) (fresh : compared.contains (p.index, q.index) = false) :
    roundsOf ((h.head p, h.head q) :: (h.tail p, h.tail q) :: pending) +
        6 * (h.uncompared (compared.insert (p.index, q.index))).card <
      rounds (.pair p, .pair q) + (roundsOf pending + 6 * (h.uncompared compared).card) := by
  rw [roundsOf, roundsOf]
  have cost : rounds (.pair p, .pair q) = 3 := rfl
  by_cases held : p.index < h.pairs.size ∧ q.index < h.pairs.size
  · have fewer := card_uncompared_insert_lt (mem_uncompared.2 ⟨held, fresh⟩)
    have heads := rounds_le (h.head p, h.head q)
    have tails := rounds_le (h.tail p, h.tail q)
    omega
  · -- Of such pairs there is no end, but what one of them adds is over at once.
    have outside : h.pairs.size ≤ p.index ∨ h.pairs.size ≤ q.index :=
      (not_and_or.1 held).imp Nat.le_of_not_lt Nat.le_of_not_lt
    obtain ⟨heads, tails⟩ := rounds_of_empty outside
    have fewer := h.card_uncompared_insert_le compared (p.index, q.index)
    omega

/-- A comparison is over within the rounds that it may need. -/
theorem settles_agree {h : Heap} {fuel : Nat} {pending : List (Value × Value)}
    {compared : CellPairs}
    (enough : roundsOf pending + 6 * (h.uncompared compared).card ≤ fuel) :
    h.Settles pending compared (h.agree fuel pending compared) := by
  induction fuel generalizing pending compared with
  | zero =>
    cases pending with
    | nil => exact .done compared
    | cons entry pending =>
      have positive := rounds_pos entry
      rw [roundsOf] at enough
      omega
  | succ fuel ih =>
    cases pending with
    | nil => exact .done compared
    | cons entry pending =>
      obtain ⟨x, y⟩ := entry
      rw [roundsOf] at enough
      have positive := rounds_pos (x, y)
      have later : h.Settles pending compared (h.agree fuel pending compared) := ih (by omega)
      unfold agree
      by_cases same : x.identical y = true
      · rw [if_pos same]
        exact .identical same later
      rw [if_neg same]
      rw [Bool.not_eq_true] at same
      split
      next p q =>
        split
        next met => exact .again met later
        next fresh =>
          rw [Bool.not_eq_true] at fresh
          refine .cells same fresh (ih ?_)
          have less := roundsOf_cells_lt (h := h) pending fresh
          omega
      next r t =>
        split
        next alike => exact .strings alike later
        next differ =>
          refine .apart same nofun ?_
          rintro _ _ ⟨⟩ ⟨⟩
          exact differ
      next not_pairs not_strings =>
        exact .apart same not_pairs fun r t left right => absurd right (not_strings r t left)

/-- Every comparison comes to an end, and its answer is the one that is given. -/
theorem settles_equal (h : Heap) (x y : Value) : h.Settles [(x, y)] {} (h.equal x y) := by
  apply settles_agree
  have few := h.card_uncompared_le {}
  have cost := rounds_le (x, y)
  rw [roundsOf, roundsOf]
  omega

end MessageMachine.Heap
