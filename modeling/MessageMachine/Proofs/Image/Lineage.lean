/-
# Base chains without a limit

`chain` and `search` climb a limited number of bases, and what takes more counts as endless. A
`Climb` is a climb that ends by itself. It comes to no class twice, since what a class leads to is
always the same, and all classes that it comes to are in the class table. So none takes more steps
than the limit allows, and what is found to be endless never ends.

A `Lineage` is the base chain of a class, up to one without a base. What lookups come to
can be read off it.
-/

import Mathlib.Data.List.Nodup
import Mathlib.Data.List.Perm.Subperm
import MessageMachine.Image

namespace MessageMachine

/-- The handler that a class has for a selector, with that class. -/
def Heap.handlerOn? (h : Heap) (selector : String) (k : Ref .classObject) :
    Option Image.Handler :=
  (h.ownHandler? k selector).map (Image.Handler.mk k)

theorem Heap.findSome?_handlerOn? (h : Heap) (selector : String) (k : Ref .classObject)
    (rest : List (Ref .classObject)) :
    (k :: rest).findSome? (h.handlerOn? selector) =
      match h.ownHandler? k selector with
      | some callable => some ⟨k, callable⟩
      | none => rest.findSome? (h.handlerOn? selector) := by
  rw [List.findSome?_cons, handlerOn?]
  cases h.ownHandler? k selector <;> rfl

namespace Image

variable {image : Image} {h : Heap} {c : Ref .classObject}

/-! ## Climbs -/

/-- A climb from a class on, given what each class leads to, and all classes on the way. -/
inductive Climb (next : Ref .classObject → Option (Ref .classObject)) :
    Ref .classObject → List (Ref .classObject) → Prop
  | stay {c : Ref .classObject} : next c = none → Climb next c [c]
  | on {c d : Ref .classObject} {path : List (Ref .classObject)} :
      next c = some d → Climb next d path → Climb next c (c :: path)

namespace Climb

variable {next : Ref .classObject → Option (Ref .classObject)} {path : List (Ref .classObject)}

theorem unique {path' : List (Ref .classObject)} (climb : Climb next c path)
    (other : Climb next c path') : path' = path := by
  induction climb generalizing path' with
  | stay ends =>
    cases other with
    | stay _ => rfl
    | on leads _ => cases ends.symm.trans leads
  | on leads _ ih =>
    cases other with
    | stay ends => cases ends.symm.trans leads
    | on leads' rest =>
      cases leads.symm.trans leads'
      rw [ih rest]

theorem length_pos (climb : Climb next c path) : 0 < path.length := by
  cases climb <;> exact Nat.succ_pos _

/-- What is climbed from a class on the way is the rest of the way. -/
theorem exists_suffix (climb : Climb next c path) {k : Ref .classObject} (member : k ∈ path) :
    ∃ above, Climb next k above ∧ above <:+ path := by
  induction climb with
  | stay ends =>
    cases List.mem_singleton.1 member
    exact ⟨_, .stay ends, List.suffix_refl _⟩
  | on leads rest ih =>
    rcases List.mem_cons.1 member with rfl | later
    · exact ⟨_, .on leads rest, List.suffix_refl _⟩
    · obtain ⟨above, climb, part⟩ := ih later
      exact ⟨above, climb, part.trans (List.suffix_cons _ _)⟩

/-- A climb that ends does not come back to a class. -/
theorem nodup (climb : Climb next c path) : path.Nodup := by
  induction climb with
  | stay ends => exact List.nodup_singleton _
  | on leads rest ih =>
    refine List.nodup_cons.2 ⟨fun again => ?_, ih⟩
    obtain ⟨above, climb, part⟩ := rest.exists_suffix again
    have short := part.length_le
    rw [unique (.on leads rest) climb, List.length_cons] at short
    omega

variable {table : Array (Ref .classObject)}

theorem mem_table (inside : ∀ c d, next c = some d → d ∈ table) (climb : Climb next c path)
    {k : Ref .classObject} (member : k ∈ path.tail) : k ∈ table := by
  induction climb with
  | stay ends => cases member
  | on leads rest ih =>
    cases rest with
    | stay _ =>
      cases List.mem_singleton.1 member
      exact inside _ _ leads
    | on _ _ =>
      rcases List.mem_cons.1 member with rfl | later
      · exact inside _ _ leads
      · exact ih later

/-- It comes to the classes of the table once each, after the one that it begins at. -/
theorem length_le (inside : ∀ c d, next c = some d → d ∈ table) (climb : Climb next c path) :
    path.length ≤ table.size + 1 := by
  have part : path.tail ⊆ table.toList :=
    fun k member => Array.mem_toList_iff.2 (climb.mem_table inside member)
  have le := (List.subperm_of_subset (climb.nodup.sublist (List.tail_sublist _)) part).length_le
  rw [List.length_tail, Array.length_toList] at le
  exact Nat.le_add_of_sub_le le

/-- A count of steps goes on for as long as every climb that ends is longer. -/
theorem going_iff {going : Nat → Ref .classObject → Prop} (start : ∀ c, going 0 c)
    (step : ∀ limit c, going (limit + 1) c ↔ ∃ d, next c = some d ∧ going limit d)
    {limit : Nat} : going limit c ↔ ∀ path, Climb next c path → limit < path.length := by
  induction limit generalizing c with
  | zero => exact ⟨fun _ path climb => climb.length_pos, fun _ => start c⟩
  | succ limit ih =>
    rw [step]
    constructor
    · rintro ⟨d, leads, on⟩ path climb
      cases climb with
      | stay ends => cases ends.symm.trans leads
      | on leads' rest =>
        cases leads.symm.trans leads'
        exact Nat.succ_lt_succ (ih.1 on _ rest)
    · intro long
      cases leads : next c with
      | none => exact absurd (long _ (.stay leads)) (by simp)
      | some d =>
        refine ⟨d, rfl, ih.2 fun path climb => ?_⟩
        exact Nat.lt_of_succ_lt_succ (long _ (.on leads climb))

/-- A count that goes on for more steps than the table has classes goes on for ever. -/
theorem endless (going : Nat → Ref .classObject → Prop) (start : ∀ c, going 0 c)
    (step : ∀ limit c, going (limit + 1) c ↔ ∃ d, next c = some d ∧ going limit d)
    (inside : ∀ c d, next c = some d → d ∈ table) (on : going (table.size + 1) c) (limit : Nat) :
    going limit c := by
  refine (going_iff start step).2 fun path climb => ?_
  have long := (going_iff start step).1 on path climb
  exact absurd (climb.length_le inside) (Nat.not_le_of_lt long)

end Climb

/-! ## What is endless -/

/-- The class that a base chain goes on with. -/
def nextBase (image : Image) (h : Heap) (c : Ref .classObject) : Option (Ref .classObject) :=
  match image.base? h c with
  | .ok base => base
  | .error _ => none

/-- The class that a search goes on with. -/
def nextSearched (image : Image) (h : Heap) (selector : String) (c : Ref .classObject) :
    Option (Ref .classObject) :=
  match h.ownHandler? c selector with
  | some _ => none
  | none => image.nextBase h c

theorem mem_classes_of_base? {base : Ref .classObject}
    (next : image.base? h c = .ok (some base)) : base ∈ image.classes := by
  unfold base? at next
  split at next
  · cases next
  · split at next
    next found =>
      cases next
      exact Array.mem_of_getElem? found
    · cases next

theorem base?_ne_endless : image.base? h c ≠ .error .endlessBases := by
  unfold base?
  split
  · exact nofun
  · split <;> exact nofun

theorem base?_of_nextBase {base : Ref .classObject} (next : image.nextBase h c = some base) :
    image.base? h c = .ok (some base) := by
  unfold nextBase at next
  split at next
  next found => rw [found, next]
  · cases next

theorem nextBase_of_nextSearched {selector : String} {base : Ref .classObject}
    (next : image.nextSearched h selector c = some base) : image.nextBase h c = some base := by
  unfold nextSearched at next
  split at next
  · cases next
  · exact next

theorem mem_of_nextBase (c base : Ref .classObject) (next : image.nextBase h c = some base) :
    base ∈ image.classes :=
  mem_classes_of_base? (base?_of_nextBase next)

theorem mem_of_nextSearched {selector : String} (c base : Ref .classObject)
    (next : image.nextSearched h selector c = some base) : base ∈ image.classes :=
  mem_of_nextBase c base (nextBase_of_nextSearched next)

theorem chain_succ_eq_endless_iff (limit : Nat) (c : Ref .classObject) :
    image.chain h (limit + 1) c = .error .endlessBases ↔
      ∃ base, image.nextBase h c = some base ∧
        image.chain h limit base = .error .endlessBases := by
  rw [Image.chain, nextBase]
  cases next : image.base? h c with
  | error fault =>
    refine ⟨?_, nofun⟩
    rintro ⟨⟩
    exact absurd next base?_ne_endless
  | ok base =>
    cases base with
    | none => exact ⟨nofun, nofun⟩
    | some base =>
      dsimp only
      cases above : image.chain h limit base with
      | error fault => simp [Except.map, above]
      | ok chain => simp [Except.map, above]

theorem search_succ_eq_endless_iff (selector : String) (limit : Nat) (c : Ref .classObject) :
    image.search h selector (limit + 1) c = .error .endlessBases ↔
      ∃ base, image.nextSearched h selector c = some base ∧
        image.search h selector limit base = .error .endlessBases := by
  rw [search, nextSearched, nextBase]
  cases h.ownHandler? c selector with
  | some callable => exact ⟨nofun, nofun⟩
  | none =>
    cases next : image.base? h c with
    | error fault =>
      refine ⟨?_, nofun⟩
      rintro ⟨⟩
      exact absurd next base?_ne_endless
    | ok base =>
      cases base with
      | none => exact ⟨nofun, nofun⟩
      | some base => simp

/-- A base chain that is found to be endless has no end, whatever the limit. -/
theorem chain_endless (found : image.ancestry h c = .error .endlessBases) (limit : Nat) :
    image.chain h limit c = .error .endlessBases :=
  Climb.endless (fun limit c => image.chain h limit c = .error .endlessBases) (fun _ => rfl)
    chain_succ_eq_endless_iff mem_of_nextBase found limit

/-- So is a search. -/
theorem search_endless {selector : String}
    (found : image.handler? h c selector = .error .endlessBases) (limit : Nat) :
    image.search h selector limit c = .error .endlessBases :=
  Climb.endless (fun limit c => image.search h selector limit c = .error .endlessBases)
    (fun _ => rfl) (search_succ_eq_endless_iff selector) mem_of_nextSearched found limit

/-- A class that is its own base has an endless base chain. -/
theorem ancestry_of_base?_self (self : image.base? h c = .ok (some c)) :
    image.ancestry h c = .error .endlessBases := by
  unfold ancestry
  induction image.chainLimit with
  | zero => rfl
  | succ limit ih => exact (chain_succ_eq_endless_iff limit c).2 ⟨c, by rw [nextBase, self], ih⟩

/-- A lookup there does not end either, unless the class itself has a handler. -/
theorem handler?_of_base?_self (self : image.base? h c = .ok (some c)) {selector : String}
    (none_ : h.ownHandler? c selector = none) :
    image.handler? h c selector = .error .endlessBases := by
  unfold handler?
  induction image.chainLimit with
  | zero => rfl
  | succ limit ih =>
    refine (search_succ_eq_endless_iff selector limit c).2 ⟨c, ?_, ih⟩
    rw [nextSearched, none_]
    dsimp only
    rw [nextBase, self]

/-! ## Lineages -/

/-- The base chain from a class on, the class included, up to one without a base. -/
inductive Lineage (image : Image) (h : Heap) :
    Ref .classObject → List (Ref .classObject) → Prop
  | root {c : Ref .classObject} : image.base? h c = .ok none → Lineage image h c [c]
  | derived {c base : Ref .classObject} {chain : List (Ref .classObject)} :
      image.base? h c = .ok (some base) → Lineage image h base chain →
      Lineage image h c (c :: chain)

namespace Lineage

variable {chain : List (Ref .classObject)}

theorem climb (lineage : Lineage image h c chain) : Climb (image.nextBase h) c chain := by
  induction lineage with
  | root top => exact .stay (by rw [nextBase, top])
  | derived next _ ih => exact .on (by rw [nextBase, next]) ih

theorem length_le (lineage : Lineage image h c chain) : chain.length ≤ image.chainLimit :=
  lineage.climb.length_le mem_of_nextBase

/-- With a limit that is not reached, climbing gives the whole chain. -/
theorem chain_eq (lineage : Lineage image h c chain) {limit : Nat} (le : chain.length ≤ limit) :
    image.chain h limit c = .ok chain := by
  induction lineage generalizing limit with
  | root top =>
    obtain ⟨limit, rfl⟩ := Nat.exists_eq_succ_of_ne_zero (Nat.ne_of_gt le)
    rw [Image.chain, top]
  | derived next _ ih =>
    obtain ⟨limit, rfl⟩ := Nat.exists_eq_succ_of_ne_zero (Nat.ne_of_gt (Nat.zero_lt_of_lt le))
    rw [Image.chain, next]
    dsimp only
    rw [ih (Nat.le_of_succ_le_succ le)]
    rfl

/-- A search that may climb the whole chain comes to the first class with a handler. -/
theorem search_eq (lineage : Lineage image h c chain) (selector : String) {limit : Nat}
    (le : chain.length ≤ limit) :
    image.search h selector limit c = .ok (chain.findSome? (h.handlerOn? selector)) := by
  induction lineage generalizing limit with
  | root top =>
    obtain ⟨limit, rfl⟩ := Nat.exists_eq_succ_of_ne_zero (Nat.ne_of_gt le)
    rw [search, Heap.findSome?_handlerOn?]
    cases h.ownHandler? _ selector with
    | none =>
      dsimp only
      rw [top]
      rfl
    | some callable => rfl
  | derived next _ ih =>
    obtain ⟨limit, rfl⟩ := Nat.exists_eq_succ_of_ne_zero (Nat.ne_of_gt (Nat.zero_lt_of_lt le))
    rw [search, Heap.findSome?_handlerOn?]
    cases h.ownHandler? _ selector with
    | none =>
      dsimp only
      rw [next]
      exact ih (Nat.le_of_succ_le_succ le)
    | some callable => rfl

theorem handler?_eq (lineage : Lineage image h c chain) (selector : String) :
    image.handler? h c selector = .ok (chain.findSome? (h.handlerOn? selector)) :=
  lineage.search_eq selector lineage.length_le

end Lineage

/-- Where the number falls from each class to its base, there is a base chain. -/
theorem exists_lineage {P : Ref .classObject → Prop}
    (falls : ∀ c, P c → image.base? h c = .ok none ∨ ∃ base, image.base? h c = .ok (some base) ∧
      P base ∧ (h.classAt base).number < (h.classAt c).number)
    (here : P c) : ∃ chain, Lineage image h c chain := by
  induction number : (h.classAt c).number using Nat.strongRecOn generalizing c with
  | ind n ih =>
    rcases falls c here with top | ⟨base, next, there, lower⟩
    · exact ⟨[c], .root top⟩
    · obtain ⟨chain, lineage⟩ := ih _ (number ▸ lower) there rfl
      exact ⟨c :: chain, .derived next lineage⟩

/-- What climbing finds is the base chain. -/
theorem lineage_of_chain {limit : Nat} {chain : List (Ref .classObject)}
    (climbed : image.chain h limit c = .ok chain) : Lineage image h c chain := by
  induction limit generalizing c chain with
  | zero => cases climbed
  | succ limit ih =>
    rw [Image.chain] at climbed
    split at climbed
    · cases climbed
    next top =>
      cases climbed
      exact .root top
    next base next =>
      cases above : image.chain h limit base with
      | error fault =>
        rw [above] at climbed
        cases climbed
      | ok rest =>
        rw [above] at climbed
        cases climbed
        exact .derived next (ih above)

/-- The base chain is found if there is one, and only then. -/
theorem ancestry_eq_ok_iff {chain : List (Ref .classObject)} :
    image.ancestry h c = .ok chain ↔ Lineage image h c chain :=
  ⟨lineage_of_chain, fun lineage => lineage.chain_eq lineage.length_le⟩

end Image

end MessageMachine
