/-
# What storing makes

A datum that is stored becomes pairs and strings, and nothing is made besides: every pair that the
heap has grown by is part of one of the values that came of it (`makes_storeForms`). Pairs are
made in an order of their own, heads before what ends a list and the first pair last, so the
induction says of each stage what has been gathered so far.
-/

import MessageMachine.Proofs.Heap.Outline
import MessageMachine.Proofs.Heap.Unfolding

namespace MessageMachine.Heap

open Relation Reader

variable {h h' : Heap} {v : Value} {file : String}

/-! ## Growing heaps -/

/-- A heap that keeps what another holds has the same heads and tails there, and where the other
holds no pair it is nil that its heads and tails are. -/
theorem Keeps.cell (keeps : h.Keeps h') (cell : Ref .pair) :
    (h'.head cell = h.head cell ∧ h'.tail cell = h.tail cell) ∨
      h.head cell = .nil ∧ h.tail cell = .nil := by
  cases held : h.pairs[cell.index]? with
  | some p =>
    obtain ⟨head, tail⟩ := pair_of_getElem? held
    obtain ⟨head', tail'⟩ := pair_of_getElem? (keeps.pairs held)
    exact .inl ⟨head'.trans head.symm, tail'.trans tail.symm⟩
  | none =>
    have same : h.pair cell = default := by
      rw [pair, Array.getD_eq_getD_getElem?, held]
      rfl
    exact .inr ⟨congrArg Pair.head same, congrArg Pair.tail same⟩

theorem not_reaches_of_nil {r : Ref .pair} : ¬ ReflTransGen h.LeadsTo .nil (.pair r) := by
  intro reaches
  obtain same | ⟨w, first, -⟩ := reaches.cases_head
  · cases same
  · cases first

/-- What leads to a pair still does when the heap grows. -/
theorem reaches_mono (keeps : h.Keeps h') {r : Ref .pair}
    (reaches : ReflTransGen h.LeadsTo v (.pair r)) :
    ReflTransGen h'.LeadsTo v (.pair r) := by
  induction reaches using ReflTransGen.head_induction_on with
  | refl => exact .refl
  | head leads rest ih =>
    cases leads with
    | head cell =>
      obtain ⟨same, -⟩ | ⟨ended, -⟩ := keeps.cell cell
      · exact .head (.head cell) (same ▸ ih)
      · exact absurd (ended ▸ rest) not_reaches_of_nil
    | tail cell =>
      obtain ⟨-, same⟩ | ⟨-, ended⟩ := keeps.cell cell
      · exact .head (.tail cell) (same ▸ ih)
      · exact absurd (ended ▸ rest) not_reaches_of_nil

/-- The heap grows, and every pair that is made is part of one of the values. -/
structure Makes (h h' : Heap) (values : List Value) : Prop where
  keeps : h.Keeps h'
  made : ∀ r : Ref .pair, h.pairs.size ≤ r.index → r.index < h'.pairs.size →
    ∃ v ∈ values, ReflTransGen h'.LeadsTo v (.pair r)

theorem Makes.refl (h : Heap) (values : List Value) : h.Makes h values :=
  ⟨.refl h, fun _ old new => absurd new (Nat.not_lt_of_le old)⟩

theorem Makes.trans {h₁ h₂ h₃ : Heap} {values values' : List Value} (first : h₁.Makes h₂ values)
    (second : h₂.Makes h₃ values')
    (covers : ∀ v ∈ values, ∃ w ∈ values', ReflTransGen h₃.LeadsTo w v) :
    h₁.Makes h₃ values' := by
  refine ⟨first.keeps.trans second.keeps, fun r old new => ?_⟩
  by_cases inner : r.index < h₂.pairs.size
  · obtain ⟨v, mem, reaches⟩ := first.made r old inner
    obtain ⟨w, mem', leads⟩ := covers v mem
    exact ⟨w, mem', leads.trans (reaches_mono second.keeps reaches)⟩
  · exact second.made r (Nat.le_of_not_lt inner) new

theorem Makes.mono {values values' : List Value} (makes : h.Makes h' values)
    (more : values ⊆ values') : h.Makes h' values' := by
  refine ⟨makes.keeps, fun r old new => ?_⟩
  obtain ⟨v, mem, reaches⟩ := makes.made r old new
  exact ⟨v, more mem, reaches⟩

theorem leadsTo_of_getElem? {r : Ref .pair} {cell : Pair}
    (held : h.pairs[r.index]? = some cell) :
    h.LeadsTo (.pair r) cell.head ∧ h.LeadsTo (.pair r) cell.tail := by
  obtain ⟨head, tail⟩ := pair_of_getElem? held
  exact ⟨head ▸ .head r, tail ▸ .tail r⟩

theorem makes_allocPair (h : Heap) (cell : Pair) :
    h.Makes (h.allocPair cell).1 [.pair (h.allocPair cell).2] := by
  refine ⟨h.keeps_allocPair cell, fun r old new => ⟨_, List.mem_singleton.2 rfl, ?_⟩⟩
  have place : r.index = h.pairs.size :=
    Nat.le_antisymm (Nat.le_of_lt_succ (new.trans_eq (Array.size_push _))) old
  rw [Ref.eq_of_index (s := (h.allocPair cell).2) place]

theorem makes_allocString (h : Heap) (text : String) (values : List Value) :
    h.Makes (h.allocString text).1 values :=
  ⟨h.keeps_allocString text, fun _ old new => absurd new (Nat.not_lt_of_le old)⟩

/-! ## Storing -/

/-- A value came of others: they are parts of it, and so is every pair that was made. -/
structure Gathers (h : Heap) (others : List Value) (stored : Heap × Value) : Prop where
  makes : h.Makes stored.1 [stored.2]
  parts : ∀ v ∈ others, ReflTransGen stored.1.LeadsTo stored.2 v

theorem gathers_storePairs (h : Heap) (tail : Value) (before : List (Value × Option Place)) :
    h.Gathers (tail :: before.map Prod.fst) (h.storePairs file tail before) := by
  induction before generalizing h tail with
  | nil => exact ⟨.refl h _, List.forall_mem_singleton.2 .refl⟩
  | cons entry before ih =>
    obtain ⟨head, source⟩ := entry
    have rest := ih (h.allocPair ⟨head, tail, source.map (·.inFile file)⟩).1 (.pair ⟨h.pairs.size⟩)
    obtain ⟨made, others⟩ := List.forall_mem_cons.1 rest.parts
    obtain ⟨toHead, toTail⟩ := leadsTo_of_getElem? (r := ⟨h.pairs.size⟩)
      (rest.makes.keeps.pairs Array.getElem?_push_size)
    refine ⟨(h.makes_allocPair _).trans rest.makes
      (List.forall_mem_singleton.2 ⟨_, List.mem_singleton.2 rfl, made⟩), ?_⟩
    exact List.forall_mem_cons.2
      ⟨made.tail toTail, List.forall_mem_cons.2 ⟨made.tail toHead, others⟩⟩

theorem gathers_storeBehind (h : Heap) (file : String) (before : List (Value × Option Place))
    (d : Datum) : h.Gathers (before.map Prod.fst) (h.storeBehind file before d) := by
  have atom (h : Heap) (last : Value) (before : List (Value × Option Place)) :
      h.Gathers (before.map Prod.fst) (h.storePairs file last before) :=
    have stored := h.gathers_storePairs last before
    ⟨stored.makes, (List.forall_mem_cons.1 stored.parts).2⟩
  induction d generalizing h before with
  | pair source head tail ihHead ihTail =>
    have first := ihHead h []
    have rest := ihTail (h.storeBehind file [] head).1
      (((h.storeBehind file [] head).2, source) :: before)
    obtain ⟨held, others⟩ := List.forall_mem_cons.1 rest.parts
    exact ⟨first.makes.trans rest.makes
      (List.forall_mem_singleton.2 ⟨_, List.mem_singleton.2 rfl, held⟩), others⟩
  | string text =>
    have stored := atom (h.allocString text).1 (h.allocString text).2 before
    exact ⟨(h.makes_allocString text []).trans stored.makes nofun, stored.parts⟩
  | nil | boolean b | integer n | char c | symbol name => exact atom h _ before

/-- No pair is made but those that the stored values are made of. -/
theorem makes_storeForms (h : Heap) (file : String) (forms : List Reader.Form) :
    h.Makes (h.storeForms file forms).1 ((h.storeForms file forms).2.map Stored.value) := by
  suffices ∀ state : Heap × Array Stored, h.Makes state.1 (state.2.toList.map Stored.value) →
      h.Makes (forms.foldl (storeForm file) state).1
        ((forms.foldl (storeForm file) state).2.toList.map Stored.value) from
    this (h, #[]) (.refl h _)
  induction forms with
  | nil => exact fun _ makes => makes
  | cons form rest ih =>
    intro state makes
    refine ih _ ?_
    have stored := (state.1.gathers_storeBehind file [] form.datum).makes
    show h.Makes _ ((state.2.push _).toList.map Stored.value)
    rw [Array.toList_push, List.map_append]
    exact makes.trans (stored.mono (List.subset_append_right _ _)) fun v mem =>
      ⟨v, List.mem_append_left _ mem, .refl⟩

end MessageMachine.Heap
