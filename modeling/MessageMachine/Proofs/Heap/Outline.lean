/-
# Where a list is cut

The printer remembers in a set which cells it is still printing, adds to it on the way in and
takes from it on the way out, and cuts a list short where it comes back to one of them. An
`Outline` is a value written out as a tree, and says without such a set where the cuts are:
the cells that are still being printed around a place are those on the way to it, and there a
cell is cut exactly if it is one of these (`Outlines`). A cell that is shared is on the way to
neither of its places, so it is written out in full at both.

`PrintsPlainly` is the recursive printer that keeps no account of cycles. It comes to an end
exactly for the values that lead to no cycle, since what it goes through is then well founded,
and there its text is that of `print`: an outline without a cut is what it goes through.
-/

import Mathlib.Logic.Relation
import MessageMachine.Proofs.Heap.Printer

namespace MessageMachine.Heap

open Relation

/-! ## Cycles -/

/-- A cell leads to its head and to its tail. -/
inductive LeadsTo (h : Heap) : Value → Value → Prop
  | head (cell : Ref .pair) : LeadsTo h (.pair cell) (h.head cell)
  | tail (cell : Ref .pair) : LeadsTo h (.pair cell) (h.tail cell)

/-- Nothing that heads and tails lead to from a value leads back to itself. -/
def CycleFree (h : Heap) (v : Value) : Prop :=
  ∀ w, ReflTransGen h.LeadsTo v w → ¬ TransGen h.LeadsTo w w

variable {h : Heap} {v w : Value}

theorem CycleFree.step (free : h.CycleFree v) (leads : h.LeadsTo v w) : h.CycleFree w :=
  fun _ reaches => free _ (.head leads reaches)

/-- What leads to an end whichever way is taken leads to no cycle. -/
theorem cycleFree_of_acc (ends : Acc (fun w v => h.LeadsTo v w) v) : h.CycleFree v := by
  induction ends with
  | intro v _ ih =>
    intro w reaches cycle
    rcases reaches.cases_head with rfl | ⟨u, first, rest⟩
    · -- The cycle leaves the value, and comes back to where it has gone.
      obtain ⟨u, first, rest⟩ := TransGen.head'_iff.1 cycle
      exact ih u first u .refl (.tail' rest first)
    · exact ih u first w rest cycle

/-! ## Printing without regard to cycles -/

/-- A list with one more element in front. -/
def ListText.cons (element : String) (rest : ListText) : ListText :=
  ⟨element :: rest.elements, rest.dotted⟩

mutual

/-- Plain recursion prints a value, with this text. -/
inductive PrintsPlainly (h : Heap) : Value → String → Prop
  | atom {v : Value} : v.asPair? = none → PrintsPlainly h v (h.atomText v)
  | list {cell : Ref .pair} {parts : ListText} :
      ListsPlainly h (.pair cell) parts → PrintsPlainly h (.pair cell) parts.toText

/-- Plain recursion prints the parts of a list from a value on. -/
inductive ListsPlainly (h : Heap) : Value → ListText → Prop
  | cell {cell : Ref .pair} {element : String} {rest : ListText} :
      PrintsPlainly h (h.head cell) element → ListsPlainly h (h.tail cell) rest →
      ListsPlainly h (.pair cell) (.cons element rest)
  | proper : ListsPlainly h .nil ⟨[], none⟩
  | dotted {last : Value} :
      last ≠ .nil → last.asPair? = none → ListsPlainly h last ⟨[], some (h.atomText last)⟩

end

mutual

theorem PrintsPlainly.unique {v : Value} {text text' : String} (prints : h.PrintsPlainly v text)
    (prints' : h.PrintsPlainly v text') : text = text' := by
  match prints with
  | .atom apart =>
    cases prints' with
    | atom _ => rfl
    | list _ => cases apart
  | .list lists =>
    cases prints' with
    | atom apart => cases apart
    | list lists' => rw [ListsPlainly.unique lists lists']

theorem ListsPlainly.unique {v : Value} {parts parts' : ListText} (lists : h.ListsPlainly v parts)
    (lists' : h.ListsPlainly v parts') : parts = parts' := by
  match lists with
  | .cell prints rest =>
    cases lists' with
    | cell prints' rest' => rw [PrintsPlainly.unique prints prints', ListsPlainly.unique rest rest']
    | dotted _ apart => cases apart
  | .proper =>
    cases lists' with
    | proper => rfl
    | dotted some_ _ => exact absurd rfl some_
  | .dotted some_ apart =>
    cases lists' with
    | cell _ _ => cases apart
    | proper => exact absurd rfl some_
    | dotted _ _ => rfl

end

theorem acc_of_atom (apart : v.asPair? = none) : Acc (fun w v => h.LeadsTo v w) v := by
  refine .intro v fun w leads => ?_
  cases leads <;> cases apart

mutual

/-- What plain recursion prints leads to an end whichever way is taken. -/
theorem PrintsPlainly.acc {v : Value} {text : String} (prints : h.PrintsPlainly v text) :
    Acc (fun w v => h.LeadsTo v w) v := by
  match prints with
  | .atom apart => exact acc_of_atom apart
  | .list lists => exact lists.acc

theorem ListsPlainly.acc {v : Value} {parts : ListText} (lists : h.ListsPlainly v parts) :
    Acc (fun w v => h.LeadsTo v w) v := by
  match lists with
  | .cell prints rest =>
    refine .intro _ fun w leads => ?_
    cases leads with
    | head => exact prints.acc
    | tail => exact rest.acc
  | .proper => exact acc_of_atom rfl
  | .dotted _ apart => exact acc_of_atom apart

end

/-! ## Outlines -/

/-- What is printed of a value: it is not a list, or a cell that is cut, or one that is written
out. -/
inductive Outline
  | atom (v : Value)
  | cut (cell : Ref .pair)
  | cell (cell : Ref .pair) (head tail : Outline)

namespace Outline

mutual

/-- The text of an outline. -/
def text (h : Heap) : Outline → String
  | atom v => h.atomText v
  | cut _ => ListText.toText ⟨["..."], none⟩
  | cell _ head tail => (ListText.cons (head.text h) (tail.parts h)).toText

/-- The parts of a list from an outline on. -/
def parts (h : Heap) : Outline → ListText
  | atom last => ⟨[], if last = .nil then none else some (h.atomText last)⟩
  | cut _ => ⟨["..."], none⟩
  | cell _ head tail => .cons (head.text h) (tail.parts h)

end

/-- Nothing is cut. -/
def Whole : Outline → Prop
  | atom _ => True
  | cut _ => False
  | cell _ head tail => head.Whole ∧ tail.Whole

end Outline

/-- The outline of a value to which a path of cells has led, from the last to the first. These
are the cells that are still being printed there: a cell is cut if it is one of them, and
otherwise it is written out, and its head and its tail are printed within it. -/
inductive Outlines (h : Heap) : List (Ref .pair) → Value → Outline → Prop
  | atom {path : List (Ref .pair)} {v : Value} : v.asPair? = none → Outlines h path v (.atom v)
  | cut {path : List (Ref .pair)} {cell : Ref .pair} :
      cell ∈ path → Outlines h path (.pair cell) (.cut cell)
  | cell {path : List (Ref .pair)} {cell : Ref .pair} {head tail : Outline} :
      cell ∉ path → Outlines h (cell :: path) (h.head cell) head →
      Outlines h (cell :: path) (h.tail cell) tail →
      Outlines h path (.pair cell) (.cell cell head tail)

namespace Outlines

variable {path : List (Ref .pair)} {outline : Outline}

theorem unique {other : Outline} (outlines : h.Outlines path v outline)
    (outlines' : h.Outlines path v other) : other = outline := by
  induction outlines generalizing other with
  | atom apart =>
    cases outlines' with
    | atom => rfl
    | cut | cell => cases apart
  | cut met =>
    cases outlines' with
    | atom apart => cases apart
    | cut => rfl
    | cell fresh => exact absurd met fresh
  | cell fresh _ _ ihHead ihTail =>
    cases outlines' with
    | atom apart => cases apart
    | cut met => exact absurd met fresh
    | cell _ head tail => rw [ihHead head, ihTail tail]

/-- A cell is printed as the list of its parts. -/
theorem text_eq {cell : Ref .pair} (outlines : h.Outlines path (.pair cell) outline) :
    outline.text h = (outline.parts h).toText := by
  cases outlines with
  | atom apart => cases apart
  | cut => rw [Outline.text, Outline.parts]
  | cell => rw [Outline.text, Outline.parts]

/-- Where there is no cycle nothing is cut, since all cells on the path lead to the value. -/
theorem whole (outlines : h.Outlines path v outline) (free : h.CycleFree v)
    (above : ∀ cell ∈ path, TransGen h.LeadsTo (.pair cell) v) : outline.Whole := by
  induction outlines with
  | atom => trivial
  | cut met => exact free _ .refl (above _ met)
  | @cell path cell _ _ _ _ _ ihHead ihTail =>
    have within {w : Value} (leads : h.LeadsTo (.pair cell) w) :
        ∀ outer ∈ cell :: path, TransGen h.LeadsTo (.pair outer) w :=
      List.forall_mem_cons.2 ⟨.single leads, fun outer member => (above outer member).tail leads⟩
    exact ⟨ihHead (free.step (.head cell)) (within (.head cell)),
      ihTail (free.step (.tail cell)) (within (.tail cell))⟩

/-- Plain recursion prints what is not cut. -/
theorem printsPlainly (outlines : h.Outlines path v outline) (whole : outline.Whole) :
    h.PrintsPlainly v (outline.text h) ∧ h.ListsPlainly v (outline.parts h) := by
  induction outlines with
  | @atom _ v apart =>
    rw [Outline.text, Outline.parts]
    refine ⟨.atom apart, ?_⟩
    by_cases proper : v = .nil
    · rw [if_pos proper, proper]
      exact .proper
    · rw [if_neg proper]
      exact .dotted proper apart
  | cut => exact whole.elim
  | cell _ _ _ ihHead ihTail =>
    rw [Outline.text, Outline.parts]
    have lists := ListsPlainly.cell (ihHead whole.1).1 (ihTail whole.2).2
    exact ⟨.list lists, lists⟩

end Outlines

/-! ## The printer writes outlines -/

/-- The active cells are those of a path. -/
def Marks (path : List (Ref .pair)) (active : ActiveCells) : Prop :=
  ∀ cell : Ref .pair, cell.index ∈ active ↔ cell ∈ path

theorem marks_nil : Marks [] {} :=
  fun _ => iff_of_false Std.TreeSet.not_mem_emptyc List.not_mem_nil

theorem Marks.insert {path : List (Ref .pair)} {active : ActiveCells} (marks : Marks path active)
    (cell : Ref .pair) : Marks (cell :: path) (active.insert cell.index) := by
  intro other
  rw [mem_insert_iff, List.mem_cons, marks]
  exact or_congr_left ⟨Ref.eq_of_index, congrArg Ref.index⟩

/-- What has been printed of a list, and the rest of it. -/
def Trail.followedBy (trail : Trail) (rest : ListText) : ListText :=
  ⟨trail.elements.reverse ++ rest.elements, rest.dotted⟩

theorem Trail.followedBy_add (trail : Trail) (cell : Ref .pair) (element : String)
    (rest : ListText) :
    (trail.add cell element).followedBy rest = trail.followedBy (.cons element rest) := by
  simp [followedBy, add, ListText.cons]

/-- Printing a value leaves the active cells as it found them. -/
theorem Prints.mem_iff {active : ActiveCells} {printed : String × ActiveCells}
    (prints : h.Prints active v printed) (place : Nat) : place ∈ printed.2 ↔ place ∈ active := by
  obtain ⟨prints', restores⟩ := h.prints_printWithin active v
  rw [prints.unique prints']
  exact restores place

mutual

/-- The text of a value is that of its outline. -/
theorem Prints.exists_outline {path : List (Ref .pair)} {active : ActiveCells} {v : Value}
    {printed : String × ActiveCells} (prints : h.Prints active v printed)
    (marks : Marks path active) :
    ∃ outline, h.Outlines path v outline ∧ printed.1 = outline.text h := by
  match prints with
  | .atom apart => exact ⟨.atom v, .atom apart, by rw [Outline.text]⟩
  | .list lists =>
    obtain ⟨outline, outlines, same⟩ := lists.exists_outline marks
    refine ⟨outline, outlines, ?_⟩
    rw [outlines.text_eq, same]
    rfl

theorem Lists.exists_outline {path : List (Ref .pair)} {active : ActiveCells} {trail : Trail}
    {v : Value} {parts : ListText × ActiveCells} (lists : h.Lists active trail v parts)
    (marks : Marks path active) :
    ∃ outline, h.Outlines path v outline ∧ parts.1 = trail.followedBy (outline.parts h) := by
  match lists with
  | .cut met =>
    refine ⟨.cut _, .cut ((marks _).1 met), ?_⟩
    simp [Outline.parts, Trail.cut, Trail.close, Trail.followedBy]
  | @Lists.cell _ _ _ cell element _ fresh prints rest =>
    have within := marks.insert cell
    obtain ⟨head, heads, first⟩ := prints.exists_outline within
    obtain ⟨tail, tails, others⟩ :=
      rest.exists_outline fun other => (prints.mem_iff other.index).trans (within other)
    refine ⟨.cell cell head tail, .cell (fun met => fresh ((marks cell).2 met)) heads tails, ?_⟩
    rw [others, Trail.followedBy_add, first, Outline.parts]
  | .proper =>
    refine ⟨.atom .nil, .atom rfl, ?_⟩
    simp [Outline.parts, Trail.close, Trail.followedBy]
  | .dotted some_ apart =>
    refine ⟨.atom v, .atom apart, ?_⟩
    simp [Outline.parts, Trail.close, Trail.followedBy, some_]

end

/-! ## Printing -/

/-- What printing is in a heap, whatever cycles its cells form. -/
structure PrintingIsFaithful (h : Heap) : Prop where
  /-- Whichever cells are active, printing comes to an end by itself, and in one way. -/
  ends : ∀ active v printed, h.Prints active v printed ↔ printed = h.printWithin active v
  /-- It leaves the active cells as it found them. -/
  restores : ∀ active v place, place ∈ (h.printWithin active v).2 ↔ place ∈ active
  /-- What is printed where a path of cells has led is the one outline that there is. In it a
  cell is cut exactly if it is met again while it is still being printed. -/
  cuts : ∀ path active v, Marks path active → ∃ outline,
    (∀ other, h.Outlines path v other ↔ other = outline) ∧
      (h.printWithin active v).1 = outline.text h
  /-- Plain recursion comes to an end where there is no cycle, and only there, and its text
  is the one that is printed. -/
  plain : ∀ v text, h.PrintsPlainly v text ↔ h.CycleFree v ∧ text = h.print v
  /-- Something is cut if there is a cycle, and only then. -/
  whole : ∀ v outline, h.Outlines [] v outline →
    h.print v = outline.text h ∧ (outline.Whole ↔ h.CycleFree v)

theorem exists_outline (h : Heap) (v : Value) :
    ∃ outline, h.Outlines [] v outline ∧ h.print v = outline.text h :=
  (h.prints_printWithin {} v).1.exists_outline marks_nil

theorem CycleFree.printsPlainly (free : h.CycleFree v) : h.PrintsPlainly v (h.print v) := by
  obtain ⟨outline, outlines, same⟩ := h.exists_outline v
  rw [same]
  exact (outlines.printsPlainly (outlines.whole free fun _ member => absurd member
    List.not_mem_nil)).1

theorem printing_isFaithful (h : Heap) : h.PrintingIsFaithful where
  ends := by
    intro active v printed
    have prints := (h.prints_printWithin active v).1
    constructor
    · exact fun other => other.unique prints
    · rintro rfl
      exact prints
  restores := fun active v => (h.prints_printWithin active v).2
  cuts := by
    intro path active v marks
    obtain ⟨outline, outlines, same⟩ := (h.prints_printWithin active v).1.exists_outline marks
    refine ⟨outline, fun other => ⟨outlines.unique, ?_⟩, same⟩
    rintro rfl
    exact outlines
  plain := by
    intro v text
    constructor
    · intro prints
      have free := cycleFree_of_acc prints.acc
      exact ⟨free, prints.unique free.printsPlainly⟩
    · rintro ⟨free, rfl⟩
      exact free.printsPlainly
  whole := by
    intro v outline outlines
    obtain ⟨other, outlines', same⟩ := h.exists_outline v
    cases outlines.unique outlines'
    refine ⟨same, fun whole => ?_, fun free => ?_⟩
    · exact cycleFree_of_acc (outlines.printsPlainly whole).1.acc
    · exact outlines.whole free fun _ member => absurd member List.not_mem_nil

/-- The second cell has itself in its head, and the third leads back to the first. The last one
occurs twice and is written out twice. -/
example : ({ Heap.empty with pairs :=
    #[⟨.pair ⟨3⟩, .pair ⟨1⟩, none⟩, ⟨.pair ⟨1⟩, .pair ⟨2⟩, none⟩, ⟨.pair ⟨3⟩, .pair ⟨0⟩, none⟩,
      ⟨.integer 1, .nil, none⟩] } : Heap).print (.pair ⟨0⟩) = "((1) (...) (1) ...)" := by
  decide +kernel

end MessageMachine.Heap
