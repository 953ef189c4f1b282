/-
# What is seen of a heap

What a program can see of a heap, it sees of every heap that mirrors it: values are equal or
not, print alike, are found under the same names and answer the same messages. Comparing,
printing, listing and looking up are each bounded by the size of the heap, which may differ,
but each comes to an end before its bound.

For a search along tails that is because a chain of cells that goes on for longer than there
are cells has come back to one of them, and then finds nothing that it has not found before.
-/

import Mathlib.Data.Fintype.Pigeonhole
import MessageMachine.Proofs.Heap.Bisimilarity
import MessageMachine.Proofs.Heap.Printer
import MessageMachine.Proofs.Heap.Renaming
import MessageMachine.Proofs.Listing

namespace MessageMachine

namespace Heap

variable {ρ : Renaming} {h h' : Heap} {v w : Value}

/-! ## Chains -/

/-- The cell so many tails from a value. -/
def cellAt? (h : Heap) : Nat → Value → Option (Ref .pair)
  | 0, v => v.asPair?
  | steps + 1, v => v.asPair?.bind fun r => h.cellAt? steps (h.tail r)

theorem cellAt?_add (h : Heap) (first more : Nat) (v : Value) :
    h.cellAt? (first + more) v = (h.cellAt? first v).bind fun r => h.cellAt? more (.pair r) := by
  induction first generalizing v with
  | zero =>
    rw [Nat.zero_add]
    cases v <;> cases more <;> rfl
  | succ first ih =>
    rw [Nat.add_right_comm, cellAt?, cellAt?, Option.bind_assoc]
    simp only [ih]

theorem has_cellAt? (closed : h.Closed) (has : h.Has v) {steps : Nat} {r : Ref .pair}
    (found : h.cellAt? steps v = some r) : h.Has (.pair r) := by
  induction steps generalizing v with
  | zero =>
    cases v <;> cases found
    exact has
  | succ steps ih =>
    cases v with
    | pair s => exact ih (closed.tail has) found
    | _ => cases found

theorem findAlong?_eq_range {α : Type} (h : Heap) (look : Ref .pair → Option α) (limit : Nat)
    (v : Value) : h.findAlong? look limit v =
      (List.range limit).findSome? fun steps => (h.cellAt? steps v).bind look := by
  induction limit generalizing v with
  | zero => cases v <;> rfl
  | succ limit ih =>
    rw [List.range_succ_eq_map, List.findSome?_cons, List.findSome?_map]
    cases v with
    | pair r =>
      rw [findAlong?, ih]
      rfl
    | _ => exact (List.findSome?_eq_none_iff.2 fun _ _ => rfl).symm

/-- A cell far along a chain is met before already, no further than there are cells. -/
theorem exists_cellAt?_of_size_le (closed : h.Closed) (has : h.Has v) {steps : Nat}
    {r : Ref .pair} (found : h.cellAt? steps v = some r) :
    ∃ fewer < h.pairs.size, h.cellAt? fewer v = some r := by
  induction steps using Nat.strongRecOn generalizing r with
  | ind steps ih =>
    rcases Nat.lt_or_ge steps h.pairs.size with few | many
    · exact ⟨steps, few, found⟩
    · have met (place : Fin (h.pairs.size + 1)) :
          ∃ cell : Fin h.pairs.size, h.cellAt? place v = some ⟨cell⟩ := by
        obtain ⟨more, rfl⟩ := Nat.exists_eq_add_of_le ((Nat.le_of_lt_succ place.isLt).trans many)
        rw [cellAt?_add] at found
        obtain ⟨cell, here, -⟩ := Option.bind_eq_some_iff.1 found
        exact ⟨⟨cell.index, has_cellAt? closed has here⟩, here⟩
      choose cell here using met
      obtain ⟨first, second, apart, same⟩ :=
        Fintype.exists_ne_map_eq_of_card_lt cell (by simp)
      -- The stretch between two visits of one cell can be left out.
      have shorter (early late : Fin (h.pairs.size + 1)) (lt : early < late)
          (same : cell early = cell late) :
          ∃ fewer < h.pairs.size, h.cellAt? fewer v = some r := by
        obtain ⟨more, rfl⟩ := Nat.exists_eq_add_of_le ((Nat.le_of_lt_succ late.isLt).trans many)
        rw [cellAt?_add, here late, ← same, ← here early, ← cellAt?_add] at found
        exact ih (early + more) (Nat.add_lt_add_right lt more) found
      rcases Nat.lt_or_gt_of_ne (fun eq => apart (Fin.ext eq)) with lt | gt
      · exact shorter first second lt same
      · exact shorter second first gt same.symm

/-- A search along tails finds nothing beyond as many steps as there are cells. -/
theorem findAlong?_of_size_le {α : Type} (closed : h.Closed) (has : h.Has v)
    (look : Ref .pair → Option α) {limit : Nat} (enough : h.pairs.size ≤ limit) :
    h.findAlong? look limit v = h.findAlong? look h.pairs.size v := by
  obtain ⟨more, rfl⟩ := Nat.exists_eq_add_of_le enough
  rw [findAlong?_eq_range, findAlong?_eq_range, List.range_add, List.findSome?_append]
  cases found : (List.range h.pairs.size).findSome? fun steps => (h.cellAt? steps v).bind look with
  | some a => rfl
  | none =>
    rw [List.findSome?_eq_none_iff] at found
    rw [Option.none_or, List.findSome?_eq_none_iff]
    intro steps _
    rw [Option.bind_eq_none_iff]
    intro r here
    obtain ⟨fewer, lt, here⟩ := exists_cellAt?_of_size_le closed has here
    exact Option.bind_eq_none_iff.1 (found fewer (List.mem_range.2 lt)) r here

theorem exists_of_findAlong? {α : Type} (closed : h.Closed) (has : h.Has v)
    {look : Ref .pair → Option α} {limit : Nat} {a : α}
    (found : h.findAlong? look limit v = some a) : ∃ r, h.Has (.pair r) ∧ look r = some a := by
  rw [findAlong?_eq_range] at found
  obtain ⟨steps, -, here⟩ := List.exists_of_findSome?_eq_some found
  obtain ⟨r, here, looked⟩ := Option.bind_eq_some_iff.1 here
  exact ⟨r, has_cellAt? closed has here, looked⟩

/-- Searches for the same thing find the same, whatever their bounds. -/
theorem Mirrors.findAlong? {α β : Type} (mirrors : h.Mirrors ρ h') (has : h.Has v)
    {look : Ref .pair → Option α} {look' : Ref .pair → Option β} {f : α → β}
    (each : ∀ r, h.Has (.pair r) → look' (ρ.pair r) = (look r).map f) :
    h'.findAlong? look' h'.pairs.size (v.rename ρ) =
      (h.findAlong? look h.pairs.size v).map f := by
  rw [← findAlong?_of_size_le mirrors.closed has look mirrors.size_le]
  generalize h'.pairs.size = limit
  induction limit generalizing v with
  | zero => rfl
  | succ limit ih =>
    cases v with
    | pair r =>
      rw [Value.rename_pair, Heap.findAlong?, Heap.findAlong?, each r has, mirrors.tail has]
      cases look r with
      | some a => rfl
      | none => exact ih (mirrors.closed.tail has)
    | _ => rfl

/-! ## Equality -/

theorem Mirrors.bisimilar_iff (mirrors : h.Mirrors ρ h') (first : h.Has v) (second : h.Has w) :
    h'.Bisimilar (v.rename ρ) (w.rename ρ) ↔ h.Bisimilar v w := by
  constructor
  · rintro ⟨R, bisimulation, related⟩
    refine ⟨fun x y => h.Has x ∧ h.Has y ∧ R (x.rename ρ) (y.rename ρ), ?_, first, second, related⟩
    rintro x y ⟨hasX, hasY, related⟩
    have found := bisimulation _ _ related
    generalize left : x.rename ρ = x' at found
    generalize right : y.rename ρ = y' at found
    cases found with
    | identical same =>
      rw [← left, ← right, Value.identical_rename] at same
      exact .identical same
    | strings same =>
      cases x <;> cases left
      cases y <;> cases right
      rw [mirrors.stringText hasX, mirrors.stringText hasY] at same
      exact .strings same
    | cells heads tails =>
      cases x <;> cases left
      cases y <;> cases right
      rw [mirrors.head hasX, mirrors.head hasY] at heads
      rw [mirrors.tail hasX, mirrors.tail hasY] at tails
      exact .cells ⟨mirrors.closed.head hasX, mirrors.closed.head hasY, heads⟩
        ⟨mirrors.closed.tail hasX, mirrors.closed.tail hasY, tails⟩
  · rintro ⟨R, bisimulation, related⟩
    refine ⟨fun x' y' => ∃ x y, h.Has x ∧ h.Has y ∧ R x y ∧ x' = x.rename ρ ∧ y' = y.rename ρ, ?_,
      v, w, first, second, related, rfl, rfl⟩
    rintro _ _ ⟨x, y, hasX, hasY, related, rfl, rfl⟩
    cases bisimulation x y related with
    | identical same => exact .identical ((Value.identical_rename ρ x y).trans same)
    | strings same =>
      refine .strings ?_
      rw [mirrors.stringText hasX, mirrors.stringText hasY]
      exact same
    | cells heads tails =>
      exact .cells
        ⟨_, _, mirrors.closed.head hasX, mirrors.closed.head hasY, heads, mirrors.head hasX,
          mirrors.head hasY⟩
        ⟨_, _, mirrors.closed.tail hasX, mirrors.closed.tail hasY, tails, mirrors.tail hasX,
          mirrors.tail hasY⟩

theorem Mirrors.equal (mirrors : h.Mirrors ρ h') (first : h.Has v) (second : h.Has w) :
    h'.equal (v.rename ρ) (w.rename ρ) = h.equal v w := by
  rw [Bool.eq_iff_iff, equal_iff_bisimilar, equal_iff_bisimilar]
  exact mirrors.bisimilar_iff first second

/-! ## Printing -/

theorem Mirrors.atomText (mirrors : h.Mirrors ρ h') (has : h.Has v) :
    h'.atomText (v.rename ρ) = h.atomText v := by
  cases v with
  | string r =>
    unfold Heap.atomText
    simp only [Value.rename_string, mirrors.stringText has]
  | callable c =>
    unfold Heap.atomText
    cases c with
    | primitive p => simp only [Value.rename_callable, mirrors.primitive]
    | method r => simp only [Value.rename_callable, (mirrors.method has).name]
  | classObject c =>
    unfold Heap.atomText
    simp only [Value.rename_classObject, mirrors.classAt]
  | object r =>
    unfold Heap.atomText
    simp only [Value.rename_object, mirrors.classAt, mirrors.object, Object.rename]
  | boolean b => cases b <;> rfl
  | _ => rfl

/-- The same cells are active in both heaps. -/
def SameActive (ρ : Renaming) (active active' : ActiveCells) : Prop :=
  ∀ r, (ρ.pair r).index ∈ active' ↔ r.index ∈ active

theorem SameActive.insert {active active' : ActiveCells} (same : SameActive ρ active active')
    (cell : Ref .pair) :
    SameActive ρ (active.insert cell.index) (active'.insert (ρ.pair cell).index) := by
  intro r
  rw [mem_insert_iff, mem_insert_iff, same]
  refine or_congr_left ⟨fun eq => ?_, fun eq => ?_⟩
  · rw [ρ.pair_injective (Ref.eq_of_index eq)]
  · rw [Ref.eq_of_index eq]

def Trail.rename (ρ : Renaming) (t : Trail) : Trail :=
  { t with cells := t.cells.map ρ.pair }

theorem SameActive.close {active active' : ActiveCells} (same : SameActive ρ active active')
    (trail : Trail) (dotted : Option String) :
    SameActive ρ (trail.close dotted active).2 ((trail.rename ρ).close dotted active').2 := by
  intro r
  rw [mem_close_iff, mem_close_iff, same]
  refine and_congr_right fun _ => List.forall_mem_map.trans (forall₂_congr fun cell _ => ?_)
  refine not_congr ⟨fun eq => ?_, fun eq => ?_⟩
  · rw [ρ.pair_injective (Ref.eq_of_index eq)]
  · rw [Ref.eq_of_index eq]

mutual

/-- A value is printed as in the heap that is mirrored. -/
theorem Prints.mirrored (mirrors : h.Mirrors ρ h') {active active' : ActiveCells} {v : Value}
    {printed : String × ActiveCells} (prints : h.Prints active v printed) (has : h.Has v)
    (same : SameActive ρ active active') :
    ∃ left, h'.Prints active' (v.rename ρ) (printed.1, left) ∧ SameActive ρ printed.2 left := by
  match prints with
  | .atom apart =>
    refine ⟨active', ?_, same⟩
    rw [← mirrors.atomText has]
    exact .atom (by rw [Value.asPair?_rename, apart]; rfl)
  | .list lists =>
    obtain ⟨left, lists, same⟩ := Lists.mirrored mirrors lists has same
    exact ⟨left, .list lists, same⟩

theorem Lists.mirrored (mirrors : h.Mirrors ρ h') {active active' : ActiveCells} {trail : Trail}
    {v : Value} {parts : ListText × ActiveCells} (lists : h.Lists active trail v parts)
    (has : h.Has v) (same : SameActive ρ active active') :
    ∃ left, h'.Lists active' (trail.rename ρ) (v.rename ρ) (parts.1, left) ∧
      SameActive ρ parts.2 left := by
  match lists with
  | @Lists.cut _ _ _ cell met =>
    exact ⟨_, .cut ((same cell).2 met), same.close _ none⟩
  | @Lists.cell _ _ _ cell element _ fresh prints rest =>
    obtain ⟨left, prints, same'⟩ :=
      Prints.mirrored mirrors prints (mirrors.closed.head has) (same.insert cell)
    obtain ⟨left', rest, same'⟩ := Lists.mirrored mirrors rest (mirrors.closed.tail has) same'
    rw [← mirrors.head has] at prints
    rw [← mirrors.tail has] at rest
    exact ⟨left', .cell (fun met => fresh ((same cell).1 met)) prints rest, same'⟩
  | .proper => exact ⟨_, .proper, same.close trail none⟩
  | .dotted some_ apart =>
    refine ⟨_, ?_, same.close trail _⟩
    rw [← mirrors.atomText has]
    refine .dotted (fun none_ => some_ ?_) (by rw [Value.asPair?_rename, apart]; rfl)
    exact Value.rename_injective (none_.trans (Value.rename_nil ρ).symm)

end

theorem Mirrors.print (mirrors : h.Mirrors ρ h') (has : h.Has v) :
    h'.print (v.rename ρ) = h.print v := by
  obtain ⟨active, prints⟩ := h.prints_print v
  obtain ⟨active', prints'⟩ := h'.prints_print (v.rename ρ)
  have nothing : SameActive ρ {} {} := fun r => iff_of_false Std.TreeSet.not_mem_emptyc
    Std.TreeSet.not_mem_emptyc
  obtain ⟨left, mirrored, -⟩ := prints.mirrored mirrors has nothing
  exact (Prod.mk.inj (prints'.unique mirrored)).1

/-! ## Listing -/

section

variable {m m' : Method} {instructions : List Instruction}

theorem loadedConstant?_mirrored (same : m.Mirrors ρ m') (i : Instruction) :
    loadedConstant? m' i = (loadedConstant? m i).map (·.rename ρ) := by
  unfold loadedConstant?
  split
  · rw [same.constants, Array.getElem?_map]
  · rfl

theorem nestedMethods_mirrored (same : m.Mirrors ρ m') :
    nestedMethods m' instructions = nestedMethods m instructions := by
  unfold nestedMethods
  refine List.filterMap_congr fun i _ => ?_
  rw [loadedConstant?_mirrored same]
  cases loadedConstant? m i with
  | none => rfl
  | some v => cases v <;> rfl

theorem mem_constants_of_loadedConstant? {i : Instruction} (loads : loadedConstant? m i = some v) :
    v ∈ m.constants := by
  unfold loadedConstant? at loads
  split at loads
  · exact Array.mem_of_getElem? loads
  · cases loads

theorem Mirrors.instructionLine (mirrors : h.Mirrors ρ h') (same : m.Mirrors ρ m')
    (known : ∀ v ∈ m.constants, h.Has v) (i : Instruction) :
    h'.instructionLine m' i = h.instructionLine m i := by
  have remark : h'.remark? m' i = h.remark? m i := by
    unfold remark?
    split
    · rw [loadedConstant?_mirrored same]
      cases loads : loadedConstant? m i with
      | none => rfl
      | some v =>
        exact congrArg some (mirrors.print (known v (mem_constants_of_loadedConstant? loads)))
    · rfl
    · rfl
    · rfl
  unfold Heap.instructionLine
  rw [remark]

theorem titleLine_mirrored (same : m.Mirrors ρ m') : titleLine m' = titleLine m := by
  unfold titleLine
  rw [same.name, same.argCount, same.maxStack, same.constants, Array.size_map]

end

theorem Closed.constants_method (closed : h.Closed) (r : Ref .method) :
    ∀ v ∈ (h.method r).constants, h.Has v := by
  unfold method
  rw [Array.getD_eq_getD_getElem?]
  cases held : h.methods[r.index]? with
  | none => exact fun v member => absurd member (Array.not_mem_empty v)
  | some m => exact closed.constants r m held

theorem ListsMethods.mirrored (mirrors : h.Mirrors ρ h') {pending listed : List (Ref .method)}
    {lines : Array String} {result : Except MalformedCode (Array String)}
    (lists : h.ListsMethods pending listed lines result)
    (known : ∀ r ∈ pending, h.Has (.callable (.method r))) :
    h'.ListsMethods pending listed lines result := by
  induction lists with
  | done listed lines => exact .done listed lines
  | again old _ ih => exact .again old (ih fun r member => known r (List.mem_cons_of_mem _ member))
  | @unreadable r _ _ _ _ fresh decoded =>
    rw [← (mirrors.method (known r List.mem_cons_self)).code] at decoded
    exact .unreadable fresh decoded
  | @paragraph r pending listed lines instructions result fresh decoded _ ih =>
    have same := mirrors.method (known r List.mem_cons_self)
    have constants := mirrors.closed.constants_method r
    have later : ∀ s ∈ pending ++ nestedMethods (h.method r) instructions,
        h.Has (.callable (.method s)) := by
      intro s member
      rcases List.mem_append.1 member with before | nested
      · exact known s (List.mem_cons_of_mem _ before)
      · obtain ⟨i, -, loads⟩ := List.mem_filterMap.1 nested
        split at loads
        next held =>
          cases loads
          exact constants _ (mem_constants_of_loadedConstant? held)
        next => cases loads
    have rest := ih later
    rw [← same.code] at decoded
    rw [← titleLine_mirrored same, ← nestedMethods_mirrored same,
      ← List.map_congr_left fun i _ => mirrors.instructionLine same constants i] at rest
    exact .paragraph fresh decoded rest

theorem ListsMethods.unique {pending listed : List (Ref .method)} {lines : Array String}
    {result result' : Except MalformedCode (Array String)}
    (lists : h.ListsMethods pending listed lines result)
    (lists' : h.ListsMethods pending listed lines result') : result = result' := by
  induction lists with
  | done listed lines =>
    cases lists'
    rfl
  | again old _ ih =>
    cases lists' with
    | again _ rest => exact ih rest
    | unreadable fresh _ => exact absurd old fresh
    | paragraph fresh _ _ => exact absurd old fresh
  | unreadable fresh decoded =>
    cases lists' with
    | again old _ => exact absurd old fresh
    | unreadable _ decoded' =>
      cases decoded.symm.trans decoded'
      rfl
    | paragraph _ decoded' _ => cases decoded.symm.trans decoded'
  | paragraph fresh decoded _ ih =>
    cases lists' with
    | again old _ => exact absurd old fresh
    | unreadable _ decoded' => cases decoded.symm.trans decoded'
    | paragraph _ decoded' rest =>
      cases decoded.symm.trans decoded'
      exact ih rest

theorem Mirrors.listing (mirrors : h.Mirrors ρ h') {r : Ref .method}
    (has : h.Has (.callable (.method r))) : h'.listing r = h.listing r := by
  have lists := (h.listsMethods_listingRounds r).mirrored mirrors
    fun s member => List.mem_singleton.1 member ▸ has
  unfold Heap.listing listingLines
  rw [(h'.listsMethods_listingRounds r).unique lists]

end Heap

/-! ## Names -/

namespace Environment

open Heap

variable {ρ : Renaming} {h h' : Heap} (mirrors : h.Mirrors ρ h')
include mirrors

theorem bindingIn?_mirrored (name : String) {cell : Ref .pair} (has : h.Has (.pair cell)) :
    bindingIn? h' name (ρ.pair cell) = (bindingIn? h name cell).map ρ.pair := by
  have element := mirrors.closed.head has
  unfold bindingIn?
  rw [mirrors.head has]
  generalize h.head cell = element_ at element ⊢
  cases element_ with
  | pair binding =>
    simp only [Value.rename_pair, mirrors.head element]
    cases h.head binding with
    | symbol bound =>
      simp only [Value.rename_symbol]
      split <;> rfl
    | _ => rfl
  | _ => rfl

theorem scopeBinding?_mirrored (name : String) {scope : Ref .pair} (has : h.Has (.pair scope)) :
    scopeBinding? h' name (ρ.pair scope) = (scopeBinding? h name scope).map ρ.pair := by
  unfold scopeBinding?
  rw [mirrors.head has]
  exact mirrors.findAlong? (mirrors.closed.head has) fun cell =>
    bindingIn?_mirrored mirrors name

theorem has_of_bindingIn? {name : String} {cell binding : Ref .pair} (has : h.Has (.pair cell))
    (found : bindingIn? h name cell = some binding) : h.Has (.pair binding) := by
  have element := mirrors.closed.head has
  unfold bindingIn? at found
  split at found
  next held =>
    rw [held] at element
    split at found
    · split at found
      · cases found
        exact element
      · cases found
    · cases found
  · cases found

theorem has_of_scopeBinding? {name : String} {scope binding : Ref .pair}
    (has : h.Has (.pair scope)) (found : scopeBinding? h name scope = some binding) :
    h.Has (.pair binding) := by
  obtain ⟨cell, has, here⟩ := exists_of_findAlong? mirrors.closed (mirrors.closed.head has) found
  exact has_of_bindingIn? mirrors has here

variable {e : Environment} (has : h.Has (.pair e.scope))
include has

theorem has_of_lookup? {name : String} {v : Value} (found : e.lookup? h name = some v) :
    h.Has v := by
  obtain ⟨binding, bound, rfl⟩ := Option.map_eq_some_iff.1 found
  obtain ⟨scope, has, here⟩ := exists_of_findAlong? mirrors.closed has bound
  exact mirrors.closed.tail (has_of_scopeBinding? mirrors has here)

variable (fixed : ρ.pair e.scope = e.scope)
include fixed

theorem lookup?_mirrored (name : String) :
    e.lookup? h' name = (e.lookup? h name).map (·.rename ρ) := by
  have found : e.binding? h' name = (e.binding? h name).map ρ.pair := by
    have all := mirrors.findAlong? has fun scope => scopeBinding?_mirrored mirrors name
    rw [Value.rename_pair, fixed] at all
    exact all
  unfold lookup?
  rw [found]
  cases here : e.binding? h name with
  | none => rfl
  | some binding =>
    obtain ⟨scope, has, here⟩ := exists_of_findAlong? mirrors.closed has here
    exact congrArg some (mirrors.tail (has_of_scopeBinding? mirrors has here))

theorem carries_define {v : Value} (value : h.Has v) (name : String) :
    Carries ρ h h' (e.define h name v) (e.define h' name (v.rename ρ)) := by
  obtain ⟨first, binding, made⟩ := mirrors.cons (v := .symbol name) trivial value
  have scope := has.mono first.widens
  obtain ⟨second, bindings, made⟩ :=
    first.mirrors.cons made (first.mirrors.closed.head scope)
  have third := second.mirrors.setHead (scope.mono second.widens) made
  have all := (first.trans second).trans third
  simp only [Value.rename_symbol, Value.rename_pair, ← binding, ← first.mirrors.head scope, fixed]
    at all bindings
  rw [← bindings] at all
  exact all

end Environment

/-! ## Classes -/

namespace Image

open Heap

variable {ρ : Renaming} {h h' : Heap} (mirrors : h.Mirrors ρ h') (image : Image)
include mirrors

theorem base?_mirrored (c : Ref .classObject) : image.base? h' c = image.base? h c := by
  unfold base?
  rw [mirrors.classAt]

theorem classOf_mirrored (v : Value) : image.classOf h' (v.rename ρ) = image.classOf h v := by
  cases v with
  | object r =>
    show (h'.object r).ofClass = (h.object r).ofClass
    rw [mirrors.object]
    rfl
  | _ => rfl

theorem search_mirrored (selector : String) (limit : Nat) (c : Ref .classObject) :
    image.search h' selector limit c = image.search h selector limit c := by
  induction limit generalizing c with
  | zero => rfl
  | succ limit ih =>
    unfold search ownHandler?
    rw [mirrors.classAt, image.base?_mirrored mirrors]
    simp only [ih]

theorem handler?_mirrored (c : Ref .classObject) (selector : String) :
    image.handler? h' c selector = image.handler? h c selector :=
  image.search_mirrored mirrors selector _ c

theorem respondsTo_mirrored (receiver : Value) (selector : String) :
    image.respondsTo h' (receiver.rename ρ) selector = image.respondsTo h receiver selector := by
  unfold respondsTo
  rw [image.classOf_mirrored mirrors, image.handler?_mirrored mirrors]

/-- A handler that is found is one that the heap holds. -/
theorem has_of_handler? {selector : String} {c : Ref .classObject} {handler : Handler}
    (found : image.handler? h c selector = .ok (some handler)) :
    h.Has (.callable handler.callable) := by
  unfold handler? at found
  generalize image.chainLimit = limit at found
  induction limit generalizing c with
  | zero => cases found
  | succ limit ih =>
    unfold search at found
    split at found
    next callable own =>
      cases found
      refine mirrors.closed.handlers c selector callable ?_
      unfold ownHandler? at own
      split at own
      next held =>
        cases own
        unfold handlersOn
        rw [held]
        exact List.mem_cons_self
      next => cases own
    next =>
      split at found
      · cases found
      · cases found
      · exact ih found

/-- A class that is defined in both is the same class in both. -/
theorem defineClass_mirrored (has : h.Has (.pair image.globals.scope))
    (fixed : ρ.pair image.globals.scope = image.globals.scope) (name : String)
    (base : Option (Ref .classObject)) (tag : Tag) :
    Carries ρ h h' (image.defineClass h name base tag).1 (image.defineClass h' name base tag).1 ∧
      (image.defineClass h' name base tag).2 = (image.defineClass h name base tag).2 := by
  have place : h'.classes.size = h.classes.size := congrArg Array.size mirrors.classes
  have first := mirrors.allocClass
    (c := ⟨image.classes.size, name, base.map fun b => (h.classAt b).number, tag, .empty⟩) rfl
  have second := Environment.carries_define first.mirrors (has.mono first.widens) fixed
    (v := .classObject ⟨h.classes.size⟩) trivial name
  have both := first.trans second
  unfold defineClass
  simp only [Heap.allocClass, mirrors.classAt, place] at both ⊢
  exact ⟨both, trivial⟩

end Image

end MessageMachine
