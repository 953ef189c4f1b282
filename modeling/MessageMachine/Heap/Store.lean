/-
# Data in the heap

A datum that was read becomes a value: its strings and pairs are allocated, and
the first pair of each list keeps its place together with the name of the file.
-/

import MessageMachine.Heap
import MessageMachine.Reader.Datum

namespace MessageMachine

open Reader

/-- A place in a named file. -/
def Reader.Place.inFile (place : Place) (file : String) : Location :=
  ⟨file, place.line, place.column⟩

/-- The text of an error in a named file. -/
def Reader.Fault.message (fault : Fault) (file : String) : String :=
  match fault.reason with
  | .reservedName => fault.reason.message
  | reason =>
    let place := fault.place
    s!"Parse error in {file} at {place.line}:{place.column}: {reason.message}"

namespace Heap

/-- Allocate a chain of pairs in front of a tail, from heads with their places,
the latest first. -/
def storePairs (h : Heap) (file : String) (tail : Value) :
    List (Value × Option Place) → Heap × Value
  | [] => (h, tail)
  | (head, source) :: before =>
    let (h, r) := h.allocPair ⟨head, tail, source.map (·.inFile file)⟩
    h.storePairs file (.pair r) before

/-- Allocate a datum behind the heads of pairs whose tails it ends: all heads of
a chain come first, then what ends it, then the pairs from the last to the first. -/
def storeBehind (h : Heap) (file : String) (before : List (Value × Option Place)) :
    Datum → Heap × Value
  | .pair source head tail =>
    let (h, head) := h.storeBehind file [] head
    h.storeBehind file ((head, source) :: before) tail
  | .nil => h.storePairs file .nil before
  | .boolean b => h.storePairs file (.boolean b) before
  | .integer n => h.storePairs file (.integer n) before
  | .char c => h.storePairs file (.char c.toNat) before
  | .symbol name => h.storePairs file (.symbol name) before
  | .string text =>
    let (h, last) := h.allocString text
    h.storePairs file last before

/-- Allocate a datum. -/
def store (h : Heap) (file : String) (d : Datum) : Heap × Value :=
  h.storeBehind file [] d

/-- A top-level value and where it was read. -/
structure Stored where
  value : Value
  location : Location

/-- Allocate one more form, behind those already allocated. -/
def storeForm (file : String) (done : Heap × Array Stored) (form : Reader.Form) : Heap × Array Stored :=
  let (h, values) := done
  let (h, value) := h.store file form.datum
  (h, values.push ⟨value, form.place.inFile file⟩)

/-- Allocate forms in order. -/
def storeForms (h : Heap) (file : String) (forms : List Reader.Form) : Heap × List Stored :=
  let (h, values) := forms.foldl (storeForm file) (h, #[])
  (h, values.toList)

end Heap

end MessageMachine
