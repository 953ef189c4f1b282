/-
# The text of a value that unfolds

The printer goes along cells and knows which of them it is still printing. A value that
unfolds has no cycle, so it never comes back to one of these, and what it prints is the
text of the datum, which can be written down without a heap. That it never comes back is
a matter of size: whatever is being printed around a value unfolds to more cells than the
value does.
-/

import MessageMachine.Proofs.Heap.Printer
import MessageMachine.Proofs.Heap.Unfolding

namespace MessageMachine

open Reader

/-! ## The text of a datum -/

/-- The text of a datum that is not a pair. -/
def Reader.Datum.atomChars : Datum → List Char
  | .nil => ['n', 'i', 'l']
  | .boolean true => ['#', 't']
  | .boolean false => ['#', 'f']
  | .integer n => (toString n).toList
  | .char c => (Heap.charText c).toList
  | .symbol name => name.toList
  | .string text => (Heap.quoted text).toList
  | .pair .. => []

mutual

/-- The text of a datum. -/
def Reader.Datum.chars : Datum → List Char
  | .pair _ head tail => '(' :: (head.chars ++ tail.tailChars)
  | d => d.atomChars

/-- The text of a datum that is the tail of a pair, with the parenthesis that ends the
list. -/
def Reader.Datum.tailChars : Datum → List Char
  | .pair _ head tail => ' ' :: (head.chars ++ tail.tailChars)
  | .nil => [')']
  | d => ' ' :: '.' :: ' ' :: (d.atomChars ++ [')'])

end

/-- How many pairs a datum has. -/
def Reader.Datum.pairs : Datum → Nat
  | .pair _ head tail => head.pairs + tail.pairs + 1
  | _ => 0

theorem Reader.Datum.pairs_bare (d : Datum) : d.bare.pairs = d.pairs := by
  induction d with
  | pair source head tail ihHead ihTail => rw [bare, pairs, pairs, ihHead, ihTail]
  | _ => rfl

namespace Heap

/-! ## The text of a list -/

/-- What comes after the elements of a list. -/
def ListText.ending : Option String → List Char
  | none => [')']
  | some last => ' ' :: '.' :: ' ' :: (last.toList ++ [')'])

/-- Elements that follow another. -/
def ListText.following (elements : List String) : List Char :=
  elements.flatMap fun element => ' ' :: element.toList

theorem toList_intercalate (first : String) (others : List String) :
    (" ".intercalate (first :: others)).toList = first.toList ++ ListText.following others := by
  induction others generalizing first with
  | nil => simp [ListText.following]
  | cons second others ih =>
    rw [String.intercalate_cons_cons, String.toList_append, String.toList_append, ih]
    simp [ListText.following]

/-- A list is its elements in parentheses, and what comes after them. -/
theorem ListText.toList_toText (first : String) (others : List String) (dotted : Option String) :
    (ListText.toText ⟨first :: others, dotted⟩).toList =
      '(' :: (first.toList ++ (following others ++ ending dotted)) := by
  cases dotted with
  | none =>
    show (toString "(" ++ " ".intercalate (first :: others) ++ toString ")").toList = _
    rw [String.toList_append, String.toList_append, toList_intercalate]
    simp [ending, toString]
  | some last =>
    show (toString "(" ++ " ".intercalate (first :: others) ++ toString " . " ++ last ++
      toString ")").toList = _
    rw [String.toList_append, String.toList_append, String.toList_append, String.toList_append,
      toList_intercalate]
    simp [ending, toString]

/-! ## Atoms -/

variable {h : Heap} {notes : Option Place → Option Location → Prop} {v : Value} {d : Datum}

/-- What is not a cell is printed as the datum that it unfolds to. -/
theorem Unfolds.toList_atomText (unfolds : h.Unfolds notes v d) (atom : v.asPair? = none) :
    (h.atomText v).toList = d.chars := by
  cases unfolds with
  | nil => exact String.toList_ofList
  | boolean b => cases b <;> exact String.toList_ofList
  | integer n => rfl
  | char c =>
    have valid : c.toNat.isValidChar := c.valid
    have same : ((Value.char c.toNat).asChar?).getD ' ' = c := by
      rw [Value.asChar?, if_pos valid, Option.getD_some, Char.ofNat_toNat]
    rw [atomText, same]
    rfl
  | symbol name => rfl
  | string held =>
    rw [atomText, stringText_of_getElem? held]
    rfl
  | pair => cases atom

theorem Unfolds.asPair?_eq_none (unfolds : h.Unfolds notes v d)
    (atom : ∀ source head tail, d ≠ .pair source head tail) : v.asPair? = none := by
  cases unfolds with
  | pair => exact absurd rfl (atom _ _ _)
  | _ => rfl

/-- A value unfolds to one datum only, up to places. -/
theorem Unfolds.unique {notes' : Option Place → Option Location → Prop} {d' : Datum}
    (first : h.Unfolds notes v d) (second : h.Unfolds notes' v d') : d.bare = d'.bare := by
  induction first generalizing d' with
  | string held =>
    cases second with
    | string held' => rw [Option.some.inj (held.symm.trans held')]
  | pair held _ _ _ ihHead ihTail =>
    cases second with
    | pair held' _ head tail =>
      cases Option.some.inj (held.symm.trans held')
      rw [Datum.bare, Datum.bare, ihHead head, ihTail tail]
  | char c =>
    generalize code : c.toNat = n at second
    cases second with
    | char c' => rw [Char.toNat_inj.1 code]
  | _ =>
    cases second
    rfl

theorem Unfolds.pairs_eq {notes' : Option Place → Option Location → Prop} {d' : Datum}
    (first : h.Unfolds notes v d) (second : h.Unfolds notes' v d') : d.pairs = d'.pairs := by
  rw [← d.pairs_bare, ← d'.pairs_bare, first.unique second]

/-! ## Lists -/

/-- Every cell that is being printed unfolds to more than the datum. -/
def Around (h : Heap) (active : ActiveCells) (d : Datum) : Prop :=
  ∀ place ∈ active, ∃ notes outer, h.Unfolds notes (.pair ⟨place⟩) outer ∧ d.pairs < outer.pairs

/-- A value is never one of the cells that are being printed around it. -/
theorem Around.not_mem {active : ActiveCells} {cell : Ref .pair} (around : h.Around active d)
    (unfolds : h.Unfolds notes (.pair cell) d) : cell.index ∉ active := by
  intro met
  obtain ⟨notes', outer, more, larger⟩ := around cell.index met
  exact absurd (unfolds.pairs_eq more) (Nat.ne_of_lt larger)

/-- Inside a cell that is entered there is less than around it. -/
theorem Around.enter {active active' : ActiveCells} {cell : Ref .pair} {inner : Datum}
    (around : h.Around active d) (unfolds : h.Unfolds notes (.pair cell) d)
    (smaller : inner.pairs < d.pairs)
    (same : ∀ place, place ∈ active' ↔ place ∈ active.insert cell.index) :
    h.Around active' inner := by
  intro place member
  rcases mem_insert_iff.1 ((same place).1 member) with rfl | outside
  · exact ⟨notes, d, unfolds, smaller⟩
  · obtain ⟨notes', outer, more, larger⟩ := around place outside
    exact ⟨notes', outer, more, Nat.lt_trans smaller larger⟩

/-- A datum is printed as its text, wherever the heap holds a value that unfolds to it. -/
def PrintsAs (h : Heap) (notes : Option Place → Option Location → Prop) (d : Datum) : Prop :=
  ∀ {active : ActiveCells} {v : Value} {printed : String × ActiveCells},
    h.Unfolds notes v d → h.Around active d → h.Prints active v printed →
    printed.1.toList = d.chars ∧ ∀ place, place ∈ printed.2 ↔ place ∈ active

/-- So is a datum that is the tail of a pair, behind the elements before it. -/
def ListsAs (h : Heap) (notes : Option Place → Option Location → Prop) (d : Datum) : Prop :=
  ∀ {active : ActiveCells} {trail : Trail} {v : Value} {parts : ListText × ActiveCells},
    h.Unfolds notes v d → h.Around active d → h.Lists active trail v parts →
    (∃ more, parts.1.elements = trail.elements.reverse ++ more ∧
      ListText.following more ++ ListText.ending parts.1.dotted = d.tailChars) ∧
    Restores active trail parts.2

theorem restores_close (trail : Trail) (dotted : Option String) (active : ActiveCells) :
    Restores active trail (trail.close dotted active).2 :=
  fun _ => mem_close_iff

/-- A pair is printed if its head is and its tail is. -/
theorem lists_pair {source : Option Place} {head tail : Datum} (heads : h.PrintsAs notes head)
    (tails : h.ListsAs notes tail) {active : ActiveCells} {trail : Trail}
    {parts : ListText × ActiveCells} (unfolds : h.Unfolds notes v (.pair source head tail))
    (around : h.Around active (.pair source head tail)) (lists : h.Lists active trail v parts) :
    (∃ element more, parts.1.elements = trail.elements.reverse ++ element :: more ∧
      element.toList = head.chars ∧
      ListText.following more ++ ListText.ending parts.1.dotted = tail.tailChars) ∧
    Restores active trail parts.2 := by
  cases lists with
  | cut met => exact absurd met (around.not_mem unfolds)
  | dotted _ atom => cases unfolds; cases atom
  | proper => cases unfolds
  | @cell _ _ cell element _ fresh first rest =>
    have inner : head.pairs < (Datum.pair source head tail).pairs := by
      rw [Datum.pairs]
      omega
    have later : tail.pairs < (Datum.pair source head tail).pairs := by
      rw [Datum.pairs]
      omega
    cases unfolds with
    | @pair _ cell' _ _ _ held noted left right =>
      have whole : h.Unfolds notes (.pair cell) (.pair source head tail) :=
        .pair held noted left right
      rw [← (pair_of_getElem? held).1] at left
      rw [← (pair_of_getElem? held).2] at right
      obtain ⟨text, same⟩ := heads left (around.enter whole inner fun _ => Iff.rfl) first
      obtain ⟨⟨more, elements, ends⟩, closes⟩ := tails right (around.enter whole later same) rest
      refine ⟨⟨element.1, more, ?_, text, ends⟩, closes.of_add fresh same⟩
      rw [elements, Trail.add, List.reverse_cons, List.append_assoc]
      rfl

/-- The text of a list is that of its datum. -/
theorem printsAs_pair {source : Option Place} {head tail : Datum} (heads : h.PrintsAs notes head)
    (tails : h.ListsAs notes tail) : h.PrintsAs notes (.pair source head tail) := by
  intro active v printed unfolds around prints
  cases prints with
  | atom atom => cases unfolds; cases atom
  | @list _ cell parts lists =>
    obtain ⟨⟨element, more, elements, text, ends⟩, restores⟩ :=
      lists_pair heads tails unfolds around lists
    refine ⟨?_, fun place => (restores place).trans (and_iff_left nofun)⟩
    obtain ⟨⟨listed, dotted⟩, active'⟩ := parts
    cases (elements : listed = element :: more)
    rw [Datum.chars, ← text, ← ends]
    exact ListText.toList_toText element more dotted

theorem listsAs_pair {source : Option Place} {head tail : Datum} (heads : h.PrintsAs notes head)
    (tails : h.ListsAs notes tail) : h.ListsAs notes (.pair source head tail) := by
  intro active trail v parts unfolds around lists
  obtain ⟨⟨element, more, elements, text, ends⟩, restores⟩ :=
    lists_pair heads tails unfolds around lists
  refine ⟨⟨element :: more, elements, ?_⟩, restores⟩
  rw [Datum.tailChars, ← text, ← ends, ← List.append_assoc]
  rfl

theorem printsAs_atom (atom : ∀ source head tail, d ≠ .pair source head tail) :
    h.PrintsAs notes d := by
  intro active v printed unfolds _ prints
  have none_ := unfolds.asPair?_eq_none atom
  cases prints with
  | atom => exact ⟨unfolds.toList_atomText none_, fun _ => Iff.rfl⟩
  | list => cases none_

theorem listsAs_atom (atom : ∀ source head tail, d ≠ .pair source head tail) :
    h.ListsAs notes d := by
  intro active trail v parts unfolds _ lists
  have none_ := unfolds.asPair?_eq_none atom
  cases lists with
  | cut => cases none_
  | cell => cases none_
  | proper =>
    cases unfolds
    exact ⟨⟨[], (List.append_nil _).symm, rfl⟩, restores_close trail none active⟩
  | dotted other =>
    refine ⟨⟨[], (List.append_nil _).symm, ?_⟩, restores_close trail _ active⟩
    have text := unfolds.toList_atomText none_
    show ' ' :: '.' :: ' ' :: ((h.atomText v).toList ++ [')']) = _
    rw [text]
    cases d with
    | nil => cases unfolds; exact absurd rfl other
    | pair source head tail => exact absurd rfl (atom source head tail)
    | _ => rfl

theorem printsAs_and_listsAs (h : Heap) (notes : Option Place → Option Location → Prop)
    (d : Datum) : h.PrintsAs notes d ∧ h.ListsAs notes d := by
  induction d with
  | pair source head tail ihHead ihTail =>
    exact ⟨printsAs_pair ihHead.1 ihTail.2, listsAs_pair ihHead.1 ihTail.2⟩
  | _ =>
    refine ⟨printsAs_atom ?_, listsAs_atom ?_⟩
    all_goals rintro _ _ _ ⟨⟩

/-- The external form of a value is the text of the datum that it unfolds to. -/
theorem Unfolds.toList_print (unfolds : h.Unfolds notes v d) : (h.print v).toList = d.chars := by
  obtain ⟨active, prints⟩ := h.prints_print v
  have around : h.Around {} d := fun place member => absurd member Std.TreeSet.not_mem_emptyc
  exact ((h.printsAs_and_listsAs notes d).1 unfolds around prints).1

end Heap

end MessageMachine
