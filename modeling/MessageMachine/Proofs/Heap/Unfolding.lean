/-
# Values as data

A value without a cycle unfolds to a datum: cells that are shared are written out once for
each way to them. `Unfolds` is inductive, so what has an unfolding has no cycle, and every
cell and string that it goes through is one that the heap holds.

What is stored unfolds to the datum that was stored (`unfolds_store`), and the first cell of
each list notes where it began. Structural equality cannot tell values apart that unfold to
the same datum, up to places (`equal_of_unfolds`). The comparison may go on about cells for
long, but each comparison that it still has to make is one of values that unfold alike.
-/

import MessageMachine.Heap.Store
import MessageMachine.Proofs.Heap.Equality

namespace MessageMachine

open Reader

/-- A datum without its places. -/
def Reader.Datum.bare : Datum → Datum
  | .pair _ head tail => .pair none head.bare tail.bare
  | d => d

namespace Heap

/-! ## Unfolding -/

/-- A value unfolds to a datum. What a pair of the datum says about its place and what the
cell says about it are related as given. -/
inductive Unfolds (h : Heap) (notes : Option Place → Option Location → Prop) :
    Value → Datum → Prop
  | nil : Unfolds h notes .nil .nil
  | boolean (b : Bool) : Unfolds h notes (.boolean b) (.boolean b)
  | integer (n : Int) : Unfolds h notes (.integer n) (.integer n)
  | char (c : Char) : Unfolds h notes (.char c.toNat) (.char c)
  | symbol (name : String) : Unfolds h notes (.symbol name) (.symbol name)
  | string {r : Ref .string} {text : String} :
      h.strings[r.index]? = some text → Unfolds h notes (.string r) (.string text)
  | pair {r : Ref .pair} {cell : Pair} {source : Option Place} {head tail : Datum} :
      h.pairs[r.index]? = some cell → notes source cell.source →
      Unfolds h notes cell.head head → Unfolds h notes cell.tail tail →
      Unfolds h notes (.pair r) (.pair source head tail)

/-- A cell notes the place that the datum has, in a file. -/
def Notes (file : String) (source : Option Place) (location : Option Location) : Prop :=
  location = source.map (·.inFile file)

/-- A heap that holds every pair and every string that another does. -/
structure Keeps (h h' : Heap) : Prop where
  pairs : ∀ {place : Nat} {cell : Pair}, h.pairs[place]? = some cell → h'.pairs[place]? = some cell
  strings : ∀ {place : Nat} {text : String},
    h.strings[place]? = some text → h'.strings[place]? = some text

theorem Keeps.refl (h : Heap) : h.Keeps h :=
  ⟨id, id⟩

theorem Keeps.trans {h₁ h₂ h₃ : Heap} (first : h₁.Keeps h₂) (second : h₂.Keeps h₃) :
    h₁.Keeps h₃ :=
  ⟨fun held => second.pairs (first.pairs held), fun held => second.strings (first.strings held)⟩

theorem getElem?_push_of_some {α : Type} {xs : Array α} {place : Nat} {x : α} (y : α)
    (held : xs[place]? = some x) : (xs.push y)[place]? = some x := by
  have inside : place < xs.size := (Array.getElem?_eq_some_iff.1 held).1
  rw [Array.getElem?_push, if_neg (Nat.ne_of_lt inside), held]

theorem keeps_allocPair (h : Heap) (cell : Pair) : h.Keeps (h.allocPair cell).1 :=
  ⟨getElem?_push_of_some cell, id⟩

theorem keeps_allocString (h : Heap) (text : String) : h.Keeps (h.allocString text).1 :=
  ⟨id, getElem?_push_of_some text⟩

variable {h h' : Heap} {notes : Option Place → Option Location → Prop} {v : Value} {d : Datum}

/-- A value goes on to unfold as it does when the heap grows. -/
theorem Unfolds.mono (unfolds : h.Unfolds notes v d) (keeps : h.Keeps h') :
    h'.Unfolds notes v d := by
  induction unfolds with
  | nil => exact .nil
  | boolean b => exact .boolean b
  | integer n => exact .integer n
  | char c => exact .char c
  | symbol name => exact .symbol name
  | string held => exact .string (keeps.strings held)
  | pair held noted _ _ head tail => exact .pair (keeps.pairs held) noted head tail

theorem pair_of_getElem? {r : Ref .pair} {cell : Pair} (held : h.pairs[r.index]? = some cell) :
    h.head r = cell.head ∧ h.tail r = cell.tail := by
  have same : h.pair r = cell := by
    rw [pair, Array.getD_eq_getD_getElem?, held]
    rfl
  rw [head, tail, same]
  exact ⟨rfl, rfl⟩

theorem stringText_of_getElem? {r : Ref .string} {text : String}
    (held : h.strings[r.index]? = some text) : h.stringText r = text := by
  rw [stringText, Array.getD_eq_getD_getElem?, held]
  rfl

/-! ## Storing -/

/-- Heads of pairs that wait for a tail, the latest first, and the datum that they make
of one. -/
inductive Heads (h : Heap) (notes : Option Place → Option Location → Prop) :
    List (Value × Option Place) → (Datum → Datum) → Prop
  | nil : Heads h notes [] id
  | cons {v : Value} {head : Datum} {before : List (Value × Option Place)}
      {make : Datum → Datum} (source : Option Place) :
      Unfolds h notes v head → Heads h notes before make →
      Heads h notes ((v, source) :: before) fun tail => make (.pair source head tail)

theorem Heads.mono {before : List (Value × Option Place)} {make : Datum → Datum}
    (heads : h.Heads notes before make) (keeps : h.Keeps h') : h'.Heads notes before make := by
  induction heads with
  | nil => exact .nil
  | cons source unfolds _ ih => exact .cons source (unfolds.mono keeps) ih

/-- What came of storing a datum: the heap keeps what it held, and the value unfolds to
the datum. -/
def Adds (h : Heap) (file : String) (d : Datum) (stored : Heap × Value) : Prop :=
  h.Keeps stored.1 ∧ stored.1.Unfolds (Notes file) stored.2 d

variable {file : String} {before : List (Value × Option Place)} {make : Datum → Datum}

theorem adds_storePairs {tail : Value} (heads : h.Heads (Notes file) before make)
    (unfolds : h.Unfolds (Notes file) tail d) :
    h.Adds file (make d) (h.storePairs file tail before) := by
  induction before generalizing h tail d make with
  | nil =>
    cases heads
    exact ⟨.refl h, unfolds⟩
  | cons entry before ih =>
    obtain ⟨v, source⟩ := entry
    cases heads with
    | cons _ head heads =>
      have keeps := h.keeps_allocPair ⟨v, tail, source.map (·.inFile file)⟩
      have cell : (h.allocPair ⟨v, tail, source.map (·.inFile file)⟩).1.Unfolds (Notes file)
          (.pair ⟨h.pairs.size⟩) (.pair source _ d) :=
        .pair Array.getElem?_push_size rfl (head.mono keeps) (unfolds.mono keeps)
      obtain ⟨kept, made⟩ := ih (heads.mono keeps) cell
      exact ⟨keeps.trans kept, made⟩

theorem adds_storeBehind (heads : h.Heads (Notes file) before make) :
    h.Adds file (make d) (h.storeBehind file before d) := by
  induction d generalizing h before make with
  | pair source head tail ihHead ihTail =>
    obtain ⟨keeps, first⟩ := ihHead (h := h) .nil
    obtain ⟨kept, made⟩ := ihTail (.cons source first (heads.mono keeps))
    exact ⟨keeps.trans kept, made⟩
  | string text =>
    have keeps := h.keeps_allocString text
    obtain ⟨kept, made⟩ := adds_storePairs (heads.mono keeps) (.string Array.getElem?_push_size)
    exact ⟨keeps.trans kept, made⟩
  | nil => exact adds_storePairs heads .nil
  | boolean b => exact adds_storePairs heads (.boolean b)
  | integer n => exact adds_storePairs heads (.integer n)
  | char c => exact adds_storePairs heads (.char c)
  | symbol name => exact adds_storePairs heads (.symbol name)

/-- What is stored unfolds to the datum that was stored. -/
theorem adds_store (h : Heap) (file : String) (d : Datum) : h.Adds file d (h.store file d) :=
  adds_storeBehind .nil

/-- A form that was stored, its value and its place. -/
def Holds (h : Heap) (file : String) (stored : Stored) (form : Reader.Form) : Prop :=
  h.Unfolds (Notes file) stored.value form.datum ∧ stored.location = form.place.inFile file

/-- The values of forms that were stored unfold to their data, in order. -/
theorem holds_storeForms (h : Heap) (file : String) (forms : List Reader.Form) :
    h.Keeps (h.storeForms file forms).1 ∧
      List.Forall₂ ((h.storeForms file forms).1.Holds file) (h.storeForms file forms).2 forms := by
  -- Forms are stored behind those that have been.
  suffices ∀ (rest done : List Reader.Form) (state : Heap × Array Stored),
      h.Keeps state.1 → List.Forall₂ (state.1.Holds file) state.2.toList done →
      h.Keeps (rest.foldl (storeForm file) state).1 ∧
        List.Forall₂ ((rest.foldl (storeForm file) state).1.Holds file)
          (rest.foldl (storeForm file) state).2.toList (done ++ rest) from
    this forms [] (h, #[]) (.refl h) .nil
  intro rest
  induction rest with
  | nil =>
    intro done state keeps held
    rw [List.append_nil]
    exact ⟨keeps, held⟩
  | cons form rest ih =>
    intro done state keeps held
    obtain ⟨more, unfolds⟩ := state.1.adds_store file form.datum
    rw [List.foldl_cons, List.append_cons]
    refine ih (done ++ [form]) _ (keeps.trans more) ?_
    show List.Forall₂ _ (state.2.push _).toList _
    rw [Array.toList_push]
    refine List.rel_append (held.imp fun _ _ one => ⟨one.1.mono more, one.2⟩) ?_
    exact .cons ⟨unfolds, rfl⟩ .nil

/-! ## Equality -/

/-- Values that unfold alike, up to places. -/
def Alike (h : Heap) (x y : Value) : Prop :=
  ∃ notes notes' d d', h.Unfolds notes x d ∧ h.Unfolds notes' y d' ∧ d.bare = d'.bare

/-- Comparisons of values that unfold alike never find a difference. -/
theorem Settles.of_alike {pending : List (Value × Value)} {compared : CellPairs} {answer : Bool}
    (settles : h.Settles pending compared answer)
    (alike : ∀ entry ∈ pending, h.Alike entry.1 entry.2) : answer = true := by
  induction settles with
  | done => rfl
  | identical _ _ ih | again _ _ ih | strings _ _ ih =>
    exact ih (List.forall_mem_cons.1 alike).2
  | cells _ _ _ ih =>
    obtain ⟨⟨notes, notes', d, d', first, second, same⟩, later⟩ := List.forall_mem_cons.1 alike
    cases first with
    | pair held _ head tail =>
      cases second with
      | pair held' _ head' tail' =>
        obtain ⟨-, heads, tails⟩ := Datum.pair.inj same
        rw [← (pair_of_getElem? held).1] at head
        rw [← (pair_of_getElem? held).2] at tail
        rw [← (pair_of_getElem? held').1] at head'
        rw [← (pair_of_getElem? held').2] at tail'
        refine ih (List.forall_mem_cons.2 ⟨⟨_, _, _, _, head, head', heads⟩, ?_⟩)
        exact List.forall_mem_cons.2 ⟨⟨_, _, _, _, tail, tail', tails⟩, later⟩
  | apart differ not_pairs not_strings =>
    obtain ⟨notes, notes', d, d', first, second, same⟩ := (List.forall_mem_cons.1 alike).1
    cases first with
    | pair =>
      cases second with
      | pair => exact absurd rfl (not_pairs _ _ rfl)
      | _ => cases same
    | string held =>
      cases second with
      | string held' =>
        cases same
        exact absurd ((stringText_of_getElem? held).trans (stringText_of_getElem? held').symm)
          (not_strings _ _ rfl rfl)
      | _ => cases same
    | _ =>
      -- What is neither a cell nor a string is the same value.
      cases second <;> cases same
      rw [Value.identical, decide_eq_false_iff_not] at differ
      exact absurd ⟨rfl, nofun⟩ differ

/-- Values that unfold alike are structurally equal. -/
theorem equal_of_alike {x y : Value} (alike : h.Alike x y) : h.equal x y = true :=
  (h.settles_equal x y).of_alike (List.forall_mem_singleton.2 alike)

end Heap

end MessageMachine
