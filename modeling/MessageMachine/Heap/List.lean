/-
# Lists in the heap

A list is a chain of pairs linked by their tails. Pairs are mutable, so a chain
may run into itself; every walk along tails is therefore bounded by the number
of pairs there are, which no chain without a cycle exceeds.

`walk` gives the cells of a chain. `findAlong?` looks for something in them and
goes no further than it must; `findAlong?_eq` says that this is the only
difference.
-/

import MessageMachine.Heap

namespace MessageMachine.Heap

/-! ## Walking -/

/-- Follow at most `limit` tails from `v`, behind the pairs already met, the
latest first. -/
def walkFrom (h : Heap) (met : List (Ref .pair)) : Nat → Value → List (Ref .pair) × Value
  | limit + 1, .pair r => h.walkFrom (r :: met) limit (h.tail r)
  | _, v => (met.reverse, v)

/-- The pairs met by following at most `limit` tails from `v`, and the value
where the walk ends. -/
def walk (h : Heap) (limit : Nat) (v : Value) : List (Ref .pair) × Value :=
  h.walkFrom [] limit v

theorem walkFrom_eq (h : Heap) (met : List (Ref .pair)) (limit : Nat) (v : Value) :
    h.walkFrom met limit v = (met.reverse ++ (h.walk limit v).1, (h.walk limit v).2) := by
  induction limit generalizing met v with
  | zero => simp [walk, walkFrom]
  | succ limit ih =>
    cases v with
    | pair r =>
      rw [walk, walkFrom, walkFrom, ih (r :: met), ih [r]]
      simp
    | _ => simp [walk, walkFrom]

@[simp] theorem walk_succ_pair (h : Heap) (limit : Nat) (r : Ref .pair) :
    h.walk (limit + 1) (.pair r) =
      (r :: (h.walk limit (h.tail r)).1, (h.walk limit (h.tail r)).2) := by
  rw [walk, walkFrom, walkFrom_eq]
  simp

/-- A walk without a tail to follow ends where it began. -/
theorem walk_of_ne_pair (h : Heap) (limit : Nat) {v : Value} (hv : v.asPair? = none) :
    h.walk limit v = ([], v) := by
  cases v <;> cases limit <;> simp_all [walk, walkFrom, Value.asPair?]

/-- What `look` gives for the first pair for which it gives anything, among
those met by following at most `limit` tails. -/
@[specialize] def findAlong? {α : Type} (h : Heap) (look : Ref .pair → Option α) :
    Nat → Value → Option α
  | limit + 1, .pair r =>
    match look r with
    | some a => some a
    | none => h.findAlong? look limit (h.tail r)
  | _, _ => none

theorem findAlong?_eq {α : Type} (h : Heap) (look : Ref .pair → Option α) (limit : Nat)
    (v : Value) : h.findAlong? look limit v = (h.walk limit v).1.findSome? look := by
  induction limit generalizing v with
  | zero => rfl
  | succ limit ih =>
    cases v with
    | pair r =>
      rw [walk_succ_pair, List.findSome?_cons, findAlong?, ih]
      cases look r <;> rfl
    | _ => rfl

/-! ## Lists -/

/-- The chain of pairs that starts at a value, and what ends it. -/
def spine (h : Heap) (v : Value) : List (Ref .pair) × Value :=
  h.walk h.pairs.size v

/-- The elements of a proper list, or nothing if the value is not one. -/
def elements? (h : Heap) (v : Value) : Option (List Value) :=
  let (cells, last) := h.spine v
  if last = .nil then some (cells.map h.head) else none

/-- A fresh chain of the given elements, ending in `last`. The last pair is made
first. -/
def listEndingIn (h : Heap) (last : Value) (values : List Value) : Heap × Value :=
  values.foldr
    (fun v (h, tail) =>
      let (h, r) := h.cons v tail
      (h, .pair r))
    (h, last)

/-- A fresh proper list. -/
def list (h : Heap) (values : List Value) : Heap × Value :=
  h.listEndingIn .nil values

end MessageMachine.Heap
