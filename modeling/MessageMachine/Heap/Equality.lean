/-
# Structural equality

Two values are equal when no finite sequence of heads and tails tells them
apart: identical values are equal, strings are equal with the same text, pairs
are equal when their heads and their tails are. Pairs may form cycles, so the
comparison keeps the pairs of cells that it has already taken up and does not
take them up again; cyclic structures are equal when they unfold alike.
-/

import MessageMachine.Heap
import Std.Data.TreeSet

namespace MessageMachine.Heap

/-- A set of pairs of cells, each cell known by its place. -/
abbrev CellPairs := Std.TreeSet (Nat × Nat) (compareLex (compareOn Prod.fst) (compareOn Prod.snd))

/-- Compare everything that is pending, the first first. `compared` holds the
pairs of cells taken up so far. Each step settles one pending comparison, and
one that adds two others adds a new element to `compared`. -/
def agree (h : Heap) : Nat → List (Value × Value) → CellPairs → Bool
  | _, [], _ => true
  | 0, _ :: _, _ => true
  | fuel + 1, (x, y) :: pending, compared =>
    if x.identical y then h.agree fuel pending compared
    else
      match x, y with
      | .pair p, .pair q =>
        if compared.contains (p.index, q.index) then h.agree fuel pending compared
        else
          h.agree fuel ((h.head p, h.head q) :: (h.tail p, h.tail q) :: pending)
            (compared.insert (p.index, q.index))
      | .string s, .string t =>
        if h.stringText s = h.stringText t then h.agree fuel pending compared else false
      | _, _ => false

/-- Structural equality. Every ordered pair of cells is taken up at most once and adds two
comparisons. A cell that the heap does not hold has nil for its head and its tail, so that
a comparison with such a cell is over after two others. The bound is never reached. -/
def equal (h : Heap) (x y : Value) : Bool :=
  h.agree (6 * (h.pairs.size * h.pairs.size) + 3) [(x, y)] {}

end MessageMachine.Heap
