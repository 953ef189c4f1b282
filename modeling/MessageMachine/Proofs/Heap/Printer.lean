/-
# Printing comes to an end

A list is printed cell by cell, and `texts` bounds how many cells may be printed inside
one another. `Prints` and `Lists` are printing without a bound: what they derive is
printed by a computation that ends by itself. Every value is, cyclic lists included, and
its text is that of `print`, so the bound makes no difference.

A cell that is being printed is active and is not entered again. What carries the proof
is that printing an element hands back the cells that were active before it, so that the
cells further along the list have as many left to enter.
-/

import Mathlib.Data.Finset.Card
import Mathlib.Data.Finset.Range
import MessageMachine.Heap.Printer
import MessageMachine.Proofs.Heap.Equality

namespace MessageMachine.Heap

mutual

/-- Printing a value comes to an end, with its text and the cells that are active then. -/
inductive Prints (h : Heap) : ActiveCells → Value → String × ActiveCells → Prop
  | atom {active : ActiveCells} {v : Value} :
      v.asPair? = none → Prints h active v (h.atomText v, active)
  | list {active : ActiveCells} {cell : Ref .pair} {parts : ListText × ActiveCells} :
      Lists h active .start (.pair cell) parts →
      Prints h active (.pair cell) (parts.1.toText, parts.2)

/-- Printing the parts of a list from a value on comes to an end. -/
inductive Lists (h : Heap) : ActiveCells → Trail → Value → ListText × ActiveCells → Prop
  | cut {active : ActiveCells} {trail : Trail} {cell : Ref .pair} :
      cell.index ∈ active → Lists h active trail (.pair cell) (trail.cut active)
  | cell {active : ActiveCells} {trail : Trail} {cell : Ref .pair}
      {element : String × ActiveCells} {parts : ListText × ActiveCells} :
      cell.index ∉ active → Prints h (active.insert cell.index) (h.head cell) element →
      Lists h element.2 (trail.add cell element.1) (h.tail cell) parts →
      Lists h active trail (.pair cell) parts
  | proper {active : ActiveCells} {trail : Trail} :
      Lists h active trail .nil (trail.close none active)
  | dotted {active : ActiveCells} {trail : Trail} {last : Value} :
      last ≠ .nil → last.asPair? = none →
      Lists h active trail last (trail.close (some (h.atomText last)) active)

end

/-! ## Active cells -/

/-- The cells of a heap that may still be entered. -/
def inactive (h : Heap) (active : ActiveCells) : Finset Nat :=
  (Finset.range h.pairs.size).filter (· ∉ active)

theorem mem_inactive {h : Heap} {active : ActiveCells} {place : Nat} :
    place ∈ h.inactive active ↔ place < h.pairs.size ∧ place ∉ active := by
  unfold inactive
  rw [Finset.mem_filter, Finset.mem_range]

theorem inactive_congr {active active' : ActiveCells} (h : Heap)
    (same : ∀ place, place ∈ active' ↔ place ∈ active) : h.inactive active' = h.inactive active := by
  ext place
  rw [mem_inactive, mem_inactive, same]

theorem mem_insert_iff {active : ActiveCells} {place other : Nat} :
    other ∈ active.insert place ↔ other = place ∨ other ∈ active := by
  rw [Std.TreeSet.mem_insert, compare_eq_iff_eq, eq_comm]

theorem mem_erase_iff {active : ActiveCells} {place other : Nat} :
    other ∈ active.erase place ↔ other ≠ place ∧ other ∈ active := by
  rw [Std.TreeSet.mem_erase, ne_eq, compare_eq_iff_eq]
  exact and_congr_left' ne_comm

/-- Entering a cell leaves no more to enter, and one fewer if the heap holds it. -/
theorem card_inactive_insert {h : Heap} {active : ActiveCells} {place : Nat}
    (fresh : place ∉ active) :
    (h.inactive (active.insert place)).card ≤ (h.inactive active).card ∧
      (place < h.pairs.size →
        (h.inactive (active.insert place)).card < (h.inactive active).card) := by
  have fewer : h.inactive (active.insert place) ⊆ (h.inactive active).erase place := by
    intro other inside
    obtain ⟨held, outside⟩ := mem_inactive.1 inside
    rw [mem_insert_iff, not_or] at outside
    exact Finset.mem_erase.2 ⟨outside.1, mem_inactive.2 ⟨held, outside.2⟩⟩
  refine ⟨Finset.card_le_card (fewer.trans (Finset.erase_subset _ _)), fun held => ?_⟩
  exact Nat.lt_of_le_of_lt (Finset.card_le_card fewer)
    (Finset.card_erase_lt_of_mem (mem_inactive.2 ⟨held, fresh⟩))

/-- At the end of a list its cells are active no more. -/
theorem mem_close_iff {trail : Trail} {dotted : Option String} {active : ActiveCells} {place : Nat} :
    place ∈ (trail.close dotted active).2 ↔
      place ∈ active ∧ ∀ cell ∈ trail.cells, cell.index ≠ place := by
  unfold Trail.close
  simp only
  induction trail.cells generalizing active with
  | nil => simp
  | cons cell cells ih =>
    rw [List.foldl_cons, ih, mem_erase_iff]
    rw [List.forall_mem_cons, ne_comm, and_comm (b := place ∈ active), and_assoc]

/-! ## Lists -/

/-- Print an element of a list, or a value by itself, with fuel for its cells. -/
def printed (h : Heap) (fuel : Nat) (active : ActiveCells) (v : Value) : String × ActiveCells :=
  match v with
  | .pair _ => ((h.texts fuel active .start v).1.toText, (h.texts fuel active .start v).2)
  | _ => (h.atomText v, active)

/-- A list goes on after an element that has been printed. -/
theorem texts_cell (h : Heap) (fuel : Nat) {active : ActiveCells} (trail : Trail)
    {cell : Ref .pair} (fresh : cell.index ∉ active) :
    h.texts (fuel + 1) active trail (.pair cell) =
      h.texts fuel (h.printed fuel (active.insert cell.index) (h.head cell)).2
        (trail.add cell (h.printed fuel (active.insert cell.index) (h.head cell)).1)
        (h.tail cell) := by
  have not_met : ¬ active.contains cell.index = true :=
    fun met => fresh (Std.TreeSet.mem_iff_contains.2 met)
  conv_lhs => unfold texts
  simp only [if_neg not_met]
  cases h.head cell <;> rfl

theorem texts_cut (h : Heap) (fuel : Nat) {active : ActiveCells} (trail : Trail)
    {cell : Ref .pair} (met : cell.index ∈ active) :
    h.texts (fuel + 1) active trail (.pair cell) = trail.cut active := by
  unfold texts
  exact if_pos (Std.TreeSet.mem_iff_contains.1 met)

/-- There is fuel for the cells that may still be entered, for one that the heap does not
hold, and for what follows. What is no cell needs one call only. -/
def Suffices (h : Heap) (fuel : Nat) (active : ActiveCells) (v : Value) : Prop :=
  (h.inactive active).card + 2 ≤ fuel ∨ v.asPair? = none ∧ 0 < fuel

/-- There is fuel for what a cell holds when there is for the cell. -/
theorem Suffices.enter {h : Heap} {fuel : Nat} {active active' : ActiveCells} {cell : Ref .pair}
    (enough : h.Suffices (fuel + 1) active (.pair cell)) (fresh : cell.index ∉ active)
    (same : ∀ place, place ∈ active' ↔ place ∈ active.insert cell.index) :
    h.Suffices fuel active' (h.head cell) ∧ h.Suffices fuel active' (h.tail cell) := by
  rcases enough with enough | ⟨atom, -⟩
  · obtain ⟨few, fewer⟩ := h.card_inactive_insert fresh
    unfold Suffices
    rw [inactive_congr h same]
    by_cases held : cell.index < h.pairs.size
    · have one := fewer held
      exact ⟨.inl (by omega), .inl (by omega)⟩
    · obtain ⟨head, tail⟩ := empty_of_size_le (Nat.le_of_not_lt held)
      rw [head, tail]
      exact ⟨.inr ⟨rfl, by omega⟩, .inr ⟨rfl, by omega⟩⟩
  · cases atom

/-- What remains active when the parts of a list have been printed: what was, but for the
cells of the list. -/
def Restores (active : ActiveCells) (trail : Trail) (left : ActiveCells) : Prop :=
  ∀ place, place ∈ left ↔ place ∈ active ∧ ∀ cell ∈ trail.cells, cell.index ≠ place

/-- An element may be added to what has been printed of a list. -/
theorem Restores.of_add {active element left : ActiveCells} {trail : Trail} {cell : Ref .pair}
    {text : String} (closes : Restores element (trail.add cell text) left)
    (fresh : cell.index ∉ active)
    (same : ∀ place, place ∈ element ↔ place ∈ active.insert cell.index) :
    Restores active trail left := by
  refine fun place => (closes place).trans ?_
  rw [same, mem_insert_iff]
  show _ ∧ (∀ other ∈ cell :: trail.cells, other.index ≠ place) ↔ _
  rw [List.forall_mem_cons]
  constructor
  · rintro ⟨inside, other, others⟩
    exact ⟨inside.resolve_left fun same => other same.symm, others⟩
  · rintro ⟨inside, others⟩
    exact ⟨.inr inside, fun same => fresh (same ▸ inside), others⟩

/-- A value is printed if its parts are, and no more cells are active then than before. -/
theorem prints_printed {h : Heap} {fuel : Nat} {active : ActiveCells} {v : Value}
    (listed : h.Lists active .start v (h.texts fuel active .start v) ∧
      Restores active .start (h.texts fuel active .start v).2) :
    h.Prints active v (h.printed fuel active v) ∧
      ∀ place, place ∈ (h.printed fuel active v).2 ↔ place ∈ active := by
  cases v with
  | pair cell =>
    obtain ⟨lists, restores⟩ := listed
    exact ⟨.list lists, fun place => (restores place).trans (and_iff_left nofun)⟩
  | _ => exact ⟨.atom rfl, fun place => Iff.rfl⟩

/-- The parts of a list are printed with the fuel that they may need. -/
theorem lists_texts {h : Heap} {fuel : Nat} {active : ActiveCells} {trail : Trail} {v : Value}
    (enough : h.Suffices fuel active v) :
    h.Lists active trail v (h.texts fuel active trail v) ∧
      Restores active trail (h.texts fuel active trail v).2 := by
  induction fuel generalizing active trail v with
  | zero => rcases enough with none_ | ⟨-, none_⟩ <;> cases none_
  | succ fuel ih =>
    cases v with
    | nil => exact ⟨.proper, fun place => mem_close_iff⟩
    | pair cell =>
      by_cases fresh : cell.index ∉ active
      · obtain ⟨element, restores⟩ := prints_printed (ih (enough.enter fresh fun _ => Iff.rfl).1)
        obtain ⟨rest, closes⟩ := @ih _
          (trail.add cell (h.printed fuel (active.insert cell.index) (h.head cell)).1) _
          (enough.enter fresh restores).2
        rw [texts_cell h fuel trail fresh]
        exact ⟨.cell fresh element rest, closes.of_add fresh restores⟩
      · have met := Classical.not_not.1 fresh
        rw [texts_cut h fuel trail met]
        exact ⟨.cut met, fun place => mem_close_iff⟩
    | _ => exact ⟨.dotted nofun rfl, fun place => mem_close_iff⟩

/-- While some cells are active, every value is printed by a computation that comes to an end,
and the same cells are active then. -/
theorem prints_printWithin (h : Heap) (active : ActiveCells) (v : Value) :
    h.Prints active v (h.printWithin active v) ∧
      ∀ place, place ∈ (h.printWithin active v).2 ↔ place ∈ active := by
  have cells : (h.inactive active).card ≤ h.pairs.size := by
    unfold inactive
    exact (Finset.card_filter_le _ _).trans (Nat.le_of_eq (Finset.card_range _))
  have enough : h.Suffices (h.pairs.size + 2) active v := .inl (Nat.add_le_add_right cells 2)
  have same : h.printWithin active v = h.printed (h.pairs.size + 2) active v := by
    cases v <;> rfl
  rw [same]
  exact prints_printed (lists_texts enough)

/-- Every value is printed by a computation that comes to an end. -/
theorem prints_print (h : Heap) (v : Value) : ∃ active, h.Prints {} v (h.print v, active) :=
  ⟨_, (h.prints_printWithin {} v).1⟩

/-! ## What is printed is determined -/

variable {h : Heap}

mutual

theorem Prints.unique {active : ActiveCells} {v : Value} {printed printed' : String × ActiveCells}
    (prints : h.Prints active v printed) (prints' : h.Prints active v printed') :
    printed = printed' := by
  match prints with
  | .atom apart =>
    cases prints' with
    | atom _ => rfl
    | list _ => cases apart
  | .list lists =>
    cases prints' with
    | atom apart => cases apart
    | list lists' => rw [Lists.unique lists lists']

theorem Lists.unique {active : ActiveCells} {trail : Trail} {v : Value}
    {parts parts' : ListText × ActiveCells} (lists : h.Lists active trail v parts)
    (lists' : h.Lists active trail v parts') : parts = parts' := by
  match lists with
  | .cut met =>
    cases lists' with
    | cut _ => rfl
    | cell fresh _ _ => exact absurd met fresh
    | dotted _ apart => cases apart
  | .cell fresh prints rest =>
    cases lists' with
    | cut met => exact absurd met fresh
    | cell _ prints' rest' =>
      obtain rfl := Prints.unique prints prints'
      exact Lists.unique rest rest'
    | dotted _ apart => cases apart
  | .proper =>
    cases lists' with
    | proper => rfl
    | dotted some_ _ => exact absurd rfl some_
  | .dotted some_ apart =>
    cases lists' with
    | cut _ => cases apart
    | cell _ _ _ => cases apart
    | proper => exact absurd rfl some_
    | dotted _ _ => rfl

end

end MessageMachine.Heap
