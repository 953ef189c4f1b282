/-
# Printing

The external form of a value. Every value has one: a handle of no known kind
prints as such, and a list that contains itself is cut where it comes back to a
cell that is still being printed. A cell that merely occurs twice is printed
twice.

`texts` prints the elements of a list, cell by cell. It is given the cells that
are still being printed and hands them back, having added its own on the way and
removed them at the end.
-/

import MessageMachine.Heap
import Std.Data.TreeSet

namespace MessageMachine.Heap

/-! ## Atoms -/

/-- Characters whose printed form is a name. -/
def charName? : Char → Option String
  | ' ' => some "space"
  | '\n' => some "newline"
  | '\t' => some "tab"
  | '\r' => some "return"
  | _ => none

def charText (c : Char) : String :=
  "#\\" ++ (charName? c).getD (String.singleton c)

/-- One character inside a quoted string. -/
def escapeChar : Char → List Char
  | '"' => ['\\', '"']
  | '\\' => ['\\', '\\']
  | '\n' => ['\\', 'n']
  | '\t' => ['\\', 't']
  | '\r' => ['\\', 'r']
  | c => [c]

/-- A string in quotes. -/
def quoted (text : String) : String :=
  String.ofList ('"' :: text.toList.flatMap escapeChar ++ ['"'])

/-- The text of a value that is not a list; a pair has no text of this kind. -/
def atomText (h : Heap) : Value → String
  | .nil => "nil"
  | .boolean true => "#t"
  | .boolean false | .strayBoolean _ => "#f"
  | .integer n => toString n
  | v@(.char _) => charText (v.asChar?.getD ' ')
  | .malformed handle => s!"#<unknown {handle.toText}>"
  | .symbol name => name
  | .string r => quoted (h.stringText r)
  | .callable (.primitive r) => s!"#<primitive {(h.primitive r).name}>"
  | .callable (.method r) => s!"#<method {(h.method r).name}>"
  | .classObject r => s!"#<class {(h.classAt r).name}>"
  | .object r => s!"#<{(h.classAt (h.object r).ofClass).name}>"
  | .pair _ => ""

/-! ## Lists -/

/-- The printed parts of a list from some cell on: its elements, and what
follows the dot when it does not end in nil. -/
structure ListText where
  elements : List String
  dotted : Option String

/-- The list in parentheses. -/
def ListText.toText (t : ListText) : String :=
  let inner := " ".intercalate t.elements
  match t.dotted with
  | some last => s!"({inner} . {last})"
  | none => s!"({inner})"

/-- The cells that are still being printed, by their places. -/
abbrev ActiveCells := Std.TreeSet Nat

/-- What has been printed of a list: its cells and the texts of their heads, the
latest first. -/
structure Trail where
  cells : List (Ref .pair)
  elements : List String

namespace Trail

/-- The beginning of a list. -/
def start : Trail := ⟨[], []⟩

def add (t : Trail) (cell : Ref .pair) (element : String) : Trail :=
  ⟨cell :: t.cells, element :: t.elements⟩

/-- The list ends here, perhaps with a dot; its cells are active no more. -/
def close (t : Trail) (dotted : Option String) (active : ActiveCells) : ListText × ActiveCells :=
  (⟨t.elements.reverse, dotted⟩, t.cells.foldl (fun active cell => active.erase cell.index) active)

/-- The list comes back to an active cell. -/
def cut (t : Trail) (active : ActiveCells) : ListText × ActiveCells :=
  { t with elements := "..." :: t.elements }.close none active

end Trail

/-- The parts of a list of which some has been printed, from a value on. The
fuel bounds the number of cells that are active at once. -/
def texts (h : Heap) : Nat → ActiveCells → Trail → Value → ListText × ActiveCells
  | 0, active, trail, _ => trail.close none active
  | fuel + 1, active, trail, .pair cell =>
    if active.contains cell.index then trail.cut active
    else
      let head := h.head cell
      let (element, active) :=
        match head with
        | .pair _ =>
          let (inner, active) := h.texts fuel (active.insert cell.index) .start head
          (inner.toText, active)
        | _ => (h.atomText head, active.insert cell.index)
      h.texts fuel active (trail.add cell element) (h.tail cell)
  | _ + 1, active, trail, .nil => trail.close none active
  | _ + 1, active, trail, last => trail.close (some (h.atomText last)) active

/-- Print a value while some cells are active. Fresh cells can be entered as often as there
are cells, then one that the heap does not hold, and one more call sees what follows. -/
def printWithin (h : Heap) (active : ActiveCells) (v : Value) : String × ActiveCells :=
  match v with
  | .pair _ =>
    let (parts, active) := h.texts (h.pairs.size + 2) active .start v
    (parts.toText, active)
  | _ => (h.atomText v, active)

/-- The external form of a value. -/
def print (h : Heap) (v : Value) : String :=
  (h.printWithin {} v).1

end MessageMachine.Heap
