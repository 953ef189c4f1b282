/-
# Listings come to an end

A listing goes on to the methods that a listed method loads, and to those that these load,
and methods may load each other. `listMethods` bounds the number of its rounds.
`ListsMethods` is the loop without a bound: what it relates is the result of a listing that
ends by itself. Every listing is one, so the bound makes no difference. What is left to do is
what is pending together with the code of all methods that have not been listed, since a method
loads no more constants than it has bytes.
-/

import Mathlib.Algebra.BigOperators.Group.Finset.Basic
import Mathlib.Algebra.Order.BigOperators.Group.Finset
import MessageMachine.Listing

namespace MessageMachine

namespace Instruction

variable {code : Code}

theorem size_decodeFrom_le {limit offset : Nat} {done all : Array Instruction}
    (decoded : decodeFrom code limit offset done = .ok all) : all.size ≤ done.size + limit := by
  induction limit generalizing offset done with
  | zero =>
    cases decoded
    exact Nat.le_refl _
  | succ limit ih =>
    unfold decodeFrom at decoded
    split at decoded
    · cases decoded
      exact Nat.le_add_right _ _
    · split at decoded
      · cases decoded
      · have le := ih decoded
        rw [Array.size_push] at le
        omega

/-- An instruction takes a byte at least. -/
theorem length_decodeAll_le {listed : List Instruction} (decoded : decodeAll code = .ok listed) :
    listed.length ≤ code.size := by
  unfold decodeAll at decoded
  cases read : decodeFrom code code.size 0 #[] with
  | error fault =>
    rw [read] at decoded
    cases decoded
  | ok all =>
    rw [read] at decoded
    cases decoded
    have le := size_decodeFrom_le read
    rw [Array.size_empty, Nat.zero_add] at le
    exact le

end Instruction

namespace Heap

/-- A listing comes to an end with a result: `pending` is what there is to list, `listed` what
has been, and `lines` are the lines so far. -/
inductive ListsMethods (h : Heap) : List (Ref .method) → List (Ref .method) → Array String →
    Except MalformedCode (Array String) → Prop
  | done (listed : List (Ref .method)) (lines : Array String) :
      ListsMethods h [] listed lines (.ok lines)
  | again {r : Ref .method} {pending listed : List (Ref .method)} {lines : Array String}
      {result : Except MalformedCode (Array String)} :
      r ∈ listed → ListsMethods h pending listed lines result →
      ListsMethods h (r :: pending) listed lines result
  | unreadable {r : Ref .method} {pending listed : List (Ref .method)} {lines : Array String}
      {fault : MalformedCode} :
      r ∉ listed → Instruction.decodeAll (h.method r).code = .error fault →
      ListsMethods h (r :: pending) listed lines (.error fault)
  /-- A method has its paragraph, and what it loads comes after all that is pending. -/
  | paragraph {r : Ref .method} {pending listed : List (Ref .method)} {lines : Array String}
      {instructions : List Instruction} {result : Except MalformedCode (Array String)} :
      r ∉ listed → Instruction.decodeAll (h.method r).code = .ok instructions →
      ListsMethods h (pending ++ nestedMethods (h.method r) instructions) (r :: listed)
        (lines ++ ((if lines.isEmpty then [] else [""]) ++ titleLine (h.method r) ::
          instructions.map (h.instructionLine (h.method r)))) result →
      ListsMethods h (r :: pending) listed lines result

/-! ## What is left to list -/

/-- The methods of a heap that have not been listed. -/
def unlisted (h : Heap) (listed : List (Ref .method)) : Finset Nat :=
  (Finset.range h.methods.size).filter fun place => (⟨place⟩ : Ref .method) ∉ listed

/-- How much code they have. -/
def unlistedCode (h : Heap) (listed : List (Ref .method)) : Nat :=
  ∑ place ∈ h.unlisted listed, (h.method ⟨place⟩).code.size

theorem codeSize_of_size_le {h : Heap} {r : Ref .method} (outside : h.methods.size ≤ r.index) :
    (h.method r).code.size = 0 := by
  unfold method
  rw [Array.getD_eq_getD_getElem?, Array.getElem?_eq_none outside]
  rfl

theorem unlisted_cons_subset (h : Heap) (r : Ref .method) (listed : List (Ref .method)) :
    h.unlisted (r :: listed) ⊆ (h.unlisted listed).erase r.index := by
  intro place inside
  obtain ⟨held, fresh⟩ := Finset.mem_filter.1 inside
  rw [List.mem_cons, not_or] at fresh
  refine Finset.mem_erase.2 ⟨?_, Finset.mem_filter.2 ⟨held, fresh.2⟩⟩
  rintro rfl
  exact fresh.1 rfl

/-- Listing a method takes its code off what is left. -/
theorem unlistedCode_cons_le {h : Heap} {r : Ref .method} {listed : List (Ref .method)}
    (fresh : r ∉ listed) :
    h.unlistedCode (r :: listed) + (h.method r).code.size ≤ h.unlistedCode listed := by
  have fewer : h.unlistedCode (r :: listed) ≤
      ∑ place ∈ (h.unlisted listed).erase r.index, (h.method ⟨place⟩).code.size :=
    Finset.sum_le_sum_of_subset (h.unlisted_cons_subset r listed)
  by_cases held : r.index < h.methods.size
  · have member : r.index ∈ h.unlisted listed :=
      Finset.mem_filter.2 ⟨Finset.mem_range.2 held, fresh⟩
    have split_ := Finset.sum_erase_add _ (fun place => (h.method ⟨place⟩).code.size) member
    unfold unlistedCode at fewer ⊢
    rw [← split_]
    exact Nat.add_le_add_right fewer _
  · rw [codeSize_of_size_le (Nat.le_of_not_lt held), Nat.add_zero]
    exact fewer.trans (Finset.sum_le_sum_of_subset (Finset.erase_subset _ _))

/-- The bound of a listing counts every byte of code and every method. -/
theorem add_sum_codeSize_le (methods : List Method) (rounds : Nat) :
    rounds + ∑ place ∈ Finset.range methods.length, (methods.getD place default).code.size ≤
      methods.foldl (fun rounds m => rounds + m.code.size + 1) rounds := by
  induction methods generalizing rounds with
  | nil => exact Nat.le_refl _
  | cons m rest ih =>
    have others := ih (rounds + m.code.size + 1)
    rw [List.length_cons, Finset.sum_range_succ', List.foldl_cons]
    simp only [List.getD_cons_succ, List.getD_cons_zero]
    omega

theorem unlistedCode_nil_lt (h : Heap) : h.unlistedCode [] < h.listingRounds := by
  have le := add_sum_codeSize_le h.methods.toList 1
  have all : h.unlisted [] = Finset.range h.methods.size :=
    Finset.filter_true_of_mem fun _ _ => List.not_mem_nil
  unfold unlistedCode listingRounds method
  rw [all, ← Array.foldl_toList]
  simp only [Array.length_toList, List.getD_eq_getElem?_getD, Array.getElem?_toList] at le
  simp only [Array.getD_eq_getD_getElem?]
  omega

/-! ## Rounds -/

theorem length_nestedMethods_le {m : Method} {instructions : List Instruction}
    (decoded : Instruction.decodeAll m.code = .ok instructions) :
    (nestedMethods m instructions).length ≤ m.code.size :=
  (List.length_filterMap_le _ _).trans (Instruction.length_decodeAll_le decoded)

/-- With rounds for all that is left, a listing ends by itself. -/
theorem listsMethods_of_rounds {h : Heap} {fuel : Nat} {pending listed : List (Ref .method)}
    (lines : Array String) (enough : pending.length + h.unlistedCode listed ≤ fuel) :
    h.ListsMethods pending listed lines (h.listMethods fuel pending listed lines) := by
  induction fuel generalizing pending listed lines with
  | zero =>
    have none_ : pending = [] := List.eq_nil_of_length_eq_zero (by omega)
    subst none_
    exact .done listed lines
  | succ fuel ih =>
    cases pending with
    | nil => exact .done listed lines
    | cons r pending =>
      rw [List.length_cons] at enough
      unfold listMethods
      split
      next old => exact .again (List.contains_iff_mem.1 old) (ih lines (by omega))
      next new =>
        have fresh : r ∉ listed := fun old => new (List.contains_iff_mem.2 old)
        dsimp only
        split
        next decoded => exact .unreadable fresh decoded
        next instructions decoded =>
          have loaded := length_nestedMethods_le decoded
          have left := unlistedCode_cons_le (h := h) fresh
          refine .paragraph fresh decoded (ih _ ?_)
          rw [List.length_append]
          omega

/-- The listing of a method comes to an end. -/
theorem listsMethods_listingRounds (h : Heap) (r : Ref .method) :
    h.ListsMethods [r] [] #[] (h.listMethods h.listingRounds [r] [] #[]) := by
  have left := h.unlistedCode_nil_lt
  exact listsMethods_of_rounds #[] (by rw [List.length_singleton]; omega)

/-- A listing of a method comes to an end, with a text. -/
def ListedAs (h : Heap) (r : Ref .method) (text : String) : Prop :=
  ∃ lines : Array String, h.ListsMethods [r] [] #[] (.ok lines) ∧
    text = "\n".intercalate lines.toList

theorem listedAs_of_listing {h : Heap} {r : Ref .method} {text : String}
    (made : h.listing r = .ok text) : h.ListedAs r text := by
  have ends := h.listsMethods_listingRounds r
  unfold listing listingLines at made
  cases listed : h.listMethods h.listingRounds [r] [] #[] with
  | error fault =>
    rw [listed] at made
    cases made
  | ok lines =>
    rw [listed] at made ends
    cases made
    exact ⟨lines, ends, rfl⟩

end Heap

end MessageMachine
