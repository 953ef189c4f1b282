/-
# Chains of scopes

Every pair of an environment has a part to play: it is a scope, or the link of a list of bindings,
or a binding with its place in such a list. `ScopesAt` and `BindingsAt` say which pairs a value
leads to and which parts they play.

A pair plays one part only, so writing into one of them leaves all that play another part as they
were: a definition writes into a scope, an assignment into a binding. Pairs are made after those
that they refer to. Places therefore fall along every chain, and a search that is limited by the
number of pairs is one without a limit (`Looks`).
-/

import Mathlib.Logic.Function.Basic
import MessageMachine.Environment
import MessageMachine.Proofs.Environment.Stack

namespace MessageMachine

open Bindings

namespace Heap

/-! ## Pairs that are made or overwritten -/

variable {h : Heap} {r : Ref .pair}

theorem head_allocPair_of_lt (cell : Pair) (old : r.index < h.pairs.size) :
    (h.allocPair cell).1.head r = h.head r := by
  unfold Heap.head
  rw [pair_allocPair, if_neg]
  rintro rfl
  exact Nat.lt_irrefl _ old

theorem tail_allocPair_of_lt (cell : Pair) (old : r.index < h.pairs.size) :
    (h.allocPair cell).1.tail r = h.tail r := by
  unfold Heap.tail
  rw [pair_allocPair, if_neg]
  rintro rfl
  exact Nat.lt_irrefl _ old

theorem head_allocPair_new (h : Heap) (cell : Pair) :
    (h.allocPair cell).1.head ⟨h.pairs.size⟩ = cell.head := by
  unfold Heap.head
  rw [pair_allocPair]
  exact congrArg Pair.head (if_pos rfl)

theorem tail_allocPair_new (h : Heap) (cell : Pair) :
    (h.allocPair cell).1.tail ⟨h.pairs.size⟩ = cell.tail := by
  unfold Heap.tail
  rw [pair_allocPair]
  exact congrArg Pair.tail (if_pos rfl)

theorem size_allocPair (h : Heap) (cell : Pair) :
    (h.allocPair cell).1.pairs.size = h.pairs.size + 1 :=
  Array.size_push _

theorem size_setHead (h : Heap) (r : Ref .pair) (v : Value) :
    (h.setHead r v).pairs.size = h.pairs.size :=
  Array.size_setIfInBounds

theorem size_setTail (h : Heap) (r : Ref .pair) (v : Value) :
    (h.setTail r v).pairs.size = h.pairs.size :=
  Array.size_setIfInBounds

/-! ## Searches without a limit -/

/-- Looking along tails comes to an end, at the first pair where looking gives something or at
the end of the chain. -/
inductive Looks {α : Type} (h : Heap) (look : Ref .pair → Option α → Prop) :
    Value → Option α → Prop
  | found {cell : Ref .pair} {a : α} : look cell (some a) → Looks h look (.pair cell) (some a)
  | on {cell : Ref .pair} {found : Option α} :
      look cell none → Looks h look (h.tail cell) found → Looks h look (.pair cell) found
  | ended {v : Value} : v.asPair? = none → Looks h look v none

end Heap

namespace Environment

/-- Looking for the binding of a name comes to an end: in each scope on the way, and on the way
from scope to scope. -/
def Searches (h : Heap) (e : Environment) (name : String) (found : Option (Ref .pair)) : Prop :=
  h.Looks (fun scope found =>
    h.Looks (fun cell found => bindingIn? h name cell = found) (h.head scope) found)
    (.pair e.scope) found

/-- The name and the value of the binding that a cell of a list of bindings holds. -/
def content? (h : Heap) (cell : Ref .pair) : Option (String × Value) :=
  match h.head cell with
  | .pair binding =>
    match h.head binding with
    | .symbol name => some (name, h.tail binding)
    | _ => none
  | _ => none

/-- What the innermost scope binds, the newest binding first. -/
def contents (h : Heap) (e : Environment) : Bindings :=
  (h.spine (h.head e.scope)).1.filterMap (content? h)

variable {h : Heap} {cell binding : Ref .pair} {bound : String}

theorem bindingIn?_eq (head : h.head cell = .pair binding) (symbol : h.head binding = .symbol bound)
    (name : String) : bindingIn? h name cell = if bound = name then some binding else none := by
  unfold bindingIn?
  rw [head]
  simp only [symbol]

theorem content?_eq (head : h.head cell = .pair binding) (symbol : h.head binding = .symbol bound) :
    content? h cell = some (bound, h.tail binding) := by
  unfold content?
  rw [head]
  simp only [symbol]

end Environment

/-! ## The parts that pairs play -/

/-- What a pair is for. Scopes have the numbers of maps, and bindings tell how many of their
scope are older. -/
inductive Part
  | scope (number : Nat)
  | link
  | binding (number older : Nat)

/-- The parts of pairs. -/
abbrev Parts := Ref .pair → Option Part

variable {h h' : Heap} {part part' : Parts} {bound bound' limit number : Nat} {v : Value}
  {stack : List Nat} {bs : Bindings} {name : String}

/-- Tails lead from a value through the scopes of a stack, and enclosing scopes are older. -/
inductive ScopesAt (h : Heap) (part : Parts) : Nat → Value → List Nat → Prop
  | nil {bound : Nat} : ScopesAt h part bound .nil []
  | cons {bound number : Nat} {scope : Ref .pair} {outer : List Nat} :
      scope.index < bound → part scope = some (.scope number) →
      ScopesAt h part scope.index (h.tail scope) outer →
      ScopesAt h part bound (.pair scope) (number :: outer)

/-- Tails lead from a value through the bindings of a scope, and what follows is older. -/
inductive BindingsAt (h : Heap) (part : Parts) (number : Nat) : Nat → Value → Bindings → Prop
  | nil {bound : Nat} : BindingsAt h part number bound .nil []
  | cons {bound : Nat} {cell binding : Ref .pair} {name : String} {value : Value}
      {older : Bindings} :
      cell.index < bound → part cell = some .link → h.head cell = .pair binding →
      binding.index < cell.index → part binding = some (.binding number older.length) →
      h.head binding = .symbol name → h.tail binding = value →
      BindingsAt h part number cell.index (h.tail cell) older →
      BindingsAt h part number bound (.pair cell) ((name, value) :: older)

theorem ScopesAt.mono (scopes : ScopesAt h part bound v stack) (le : bound ≤ bound')
    (keeps : ∀ (r : Ref .pair) (n : Nat), r.index < bound → part r = some (.scope n) →
      part' r = some (.scope n) ∧ h'.tail r = h.tail r) : ScopesAt h' part' bound' v stack := by
  induction scopes generalizing bound' with
  | nil => exact .nil
  | cons lt scope _ ih =>
    obtain ⟨scope', tail⟩ := keeps _ _ lt scope
    refine .cons (Nat.lt_of_lt_of_le lt le) scope' ?_
    rw [tail]
    exact ih (Nat.le_refl _) fun r n less => keeps r n (Nat.lt_trans less lt)

theorem BindingsAt.mono (bindings : BindingsAt h part number bound v bs) (le : bound ≤ bound')
    (keeps : ∀ (r : Ref .pair) (p : Part), r.index < bound → part r = some p →
      (∀ n, p ≠ .scope n) → part' r = some p ∧ h'.head r = h.head r ∧ h'.tail r = h.tail r) :
    BindingsAt h' part' number bound' v bs := by
  induction bindings generalizing bound' with
  | nil => exact .nil
  | @cons bound cell binding name value older lt link head below binds symbol valued _ ih =>
    obtain ⟨link', head', tail'⟩ := keeps cell _ lt link nofun
    obtain ⟨binds', symbol', valued'⟩ := keeps binding _ (Nat.lt_trans below lt) binds nofun
    refine .cons (Nat.lt_of_lt_of_le lt le) link' (head'.trans head) below binds'
      (symbol'.trans symbol) (valued'.trans valued) ?_
    rw [tail']
    exact ih (Nat.le_refl _) fun r p less => keeps r p (Nat.lt_trans less lt)

/-! ### A new pair -/

theorem update_new_of_lt {r : Ref .pair} {size : Nat} (old : r.index < size) (p : Option Part) :
    Function.update part ⟨size⟩ p r = part r := by
  rw [Function.update_of_ne]
  rintro rfl
  exact Nat.lt_irrefl _ old

theorem ScopesAt.alloc (scopes : ScopesAt h part bound v stack) (le : bound ≤ h.pairs.size)
    (cell : Pair) (p : Option Part) :
    ScopesAt (h.allocPair cell).1 (Function.update part ⟨h.pairs.size⟩ p) bound v stack :=
  scopes.mono (Nat.le_refl _) fun _ _ less scope =>
    ⟨(update_new_of_lt (Nat.lt_of_lt_of_le less le) p).trans scope,
      Heap.tail_allocPair_of_lt cell (Nat.lt_of_lt_of_le less le)⟩

theorem BindingsAt.alloc (bindings : BindingsAt h part number bound v bs)
    (le : bound ≤ h.pairs.size) (cell : Pair) (p : Option Part) :
    BindingsAt (h.allocPair cell).1 (Function.update part ⟨h.pairs.size⟩ p) number bound v bs :=
  bindings.mono (Nat.le_refl _) fun _ _ less plays _ =>
    ⟨(update_new_of_lt (Nat.lt_of_lt_of_le less le) p).trans plays,
      Heap.head_allocPair_of_lt cell (Nat.lt_of_lt_of_le less le),
      Heap.tail_allocPair_of_lt cell (Nat.lt_of_lt_of_le less le)⟩

/-! ### Lists of bindings -/

open Environment

namespace BindingsAt

/-- The binding that is found first has the newest value. -/
theorem map_tail_findAlong? (bindings : BindingsAt h part number bound v bs) (le : bound ≤ limit)
    (name : String) :
    (h.findAlong? (bindingIn? h name) limit v).map h.tail = bs.lookup name := by
  induction bindings generalizing limit with
  | nil => cases limit <;> rfl
  | @cons _ _ _ first _ _ lt _ head _ _ symbol valued _ ih =>
    obtain ⟨limit, rfl⟩ := Nat.exists_eq_add_of_lt (Nat.lt_of_lt_of_le lt le)
    rw [Heap.findAlong?, bindingIn?_eq head symbol, lookup_cons_binding]
    by_cases here : first = name
    · rw [if_pos here, if_pos here.symm]
      exact congrArg some valued
    · rw [if_neg here, if_neg (Ne.symm here)]
      exact ih (Nat.le_add_right _ _)

theorem looks (bindings : BindingsAt h part number bound v bs) (le : bound ≤ limit)
    (name : String) : h.Looks (fun cell found => bindingIn? h name cell = found) v
      (h.findAlong? (bindingIn? h name) limit v) := by
  induction bindings generalizing limit with
  | nil => cases limit <;> exact .ended rfl
  | @cons _ cell _ _ _ _ lt _ _ _ _ _ _ _ ih =>
    obtain ⟨limit, rfl⟩ := Nat.exists_eq_add_of_lt (Nat.lt_of_lt_of_le lt le)
    rw [Heap.findAlong?]
    cases found : bindingIn? h name cell with
    | some binding => exact .found found
    | none => exact .on found (ih (Nat.le_add_right _ _))

/-- What is read off the pairs is what the scope binds. -/
theorem filterMap_walk (bindings : BindingsAt h part number bound v bs) (le : bound ≤ limit) :
    (h.walk limit v).1.filterMap (content? h) = bs := by
  induction bindings generalizing limit with
  | nil =>
    rw [Heap.walk_of_ne_pair h limit rfl]
    rfl
  | cons lt _ head _ _ symbol valued _ ih =>
    obtain ⟨limit, rfl⟩ := Nat.exists_eq_add_of_lt (Nat.lt_of_lt_of_le lt le)
    rw [Heap.walk_succ_pair, List.filterMap_cons, content?_eq head symbol, valued]
    exact congrArg _ (ih (Nat.le_add_right _ _))

/-- Only the binding that is written into has another tail. -/
theorem tail_setTail_of_part {written r : Ref .pair} {p : Part} (plays : part written = some p)
    (apart : part r ≠ some p) (w : Value) : (h.setTail written w).tail r = h.tail r := by
  rw [Heap.tail_setTail, if_neg]
  rintro ⟨rfl, -⟩
  exact apart plays

/-- Writing into a binding that is none of these changes nothing. -/
theorem setTail_of_ne (bindings : BindingsAt h part number bound v bs) {written : Ref .pair}
    {number' older : Nat} (binds : part written = some (.binding number' older))
    (other : number' = number → bs.length ≤ older) (w : Value) :
    BindingsAt (h.setTail written w) part number bound v bs := by
  induction bindings with
  | nil => exact .nil
  | @cons bound cell binding name value bs lt link head below binds' symbol valued _ ih =>
    have kept : (h.setTail written w).tail binding = h.tail binding := by
      refine tail_setTail_of_part binds (fun same => ?_) w
      cases binds'.symm.trans same
      exact Nat.not_succ_le_self _ (other rfl)
    refine .cons lt link ((h.head_setTail written cell w).trans head) below binds'
      ((h.head_setTail written binding w).trans symbol) (kept.trans valued) ?_
    rw [tail_setTail_of_part binds (by simp [link])]
    exact ih fun same => Nat.le_of_succ_le (other same)

/-- The binding that is found first is one of these, and writing into it overwrites the newest
value. -/
theorem setTail_of_findAlong? (bindings : BindingsAt h part number bound v bs)
    (le : bound ≤ limit) (held : bound ≤ h.pairs.size) {written : Ref .pair}
    (found : h.findAlong? (bindingIn? h name) limit v = some written) :
    (∃ older < bs.length, part written = some (.binding number older)) ∧
      ∀ w, BindingsAt (h.setTail written w) part number bound v (overwrite name w bs) := by
  induction bindings generalizing limit with
  | nil => cases limit <;> cases found
  | @cons bound cell binding first value bs lt link head below binds symbol valued older ih =>
    obtain ⟨limit, rfl⟩ := Nat.exists_eq_add_of_lt (Nat.lt_of_lt_of_le lt le)
    rw [Heap.findAlong?, bindingIn?_eq head symbol] at found
    by_cases here : first = name
    · rw [if_pos here] at found
      obtain rfl : binding = written := Option.some.inj found
      refine ⟨⟨bs.length, Nat.lt_succ_self _, binds⟩, fun w => ?_⟩
      have overwritten : (h.setTail binding w).tail binding = w :=
        (h.tail_setTail binding binding w).trans (if_pos ⟨rfl, by omega⟩)
      rw [overwrite, if_pos here]
      refine .cons lt link ((h.head_setTail binding cell w).trans head) below binds
        ((h.head_setTail binding binding w).trans symbol) overwritten ?_
      rw [tail_setTail_of_part binds (by simp [link])]
      exact older.setTail_of_ne binds (fun _ => Nat.le_refl _) w
    · rw [if_neg here] at found
      obtain ⟨⟨place, less, binds'⟩, writes⟩ := ih (by omega) (by omega) found
      refine ⟨⟨place, Nat.lt_succ_of_lt less, binds'⟩, fun w => ?_⟩
      have kept : (h.setTail written w).tail binding = h.tail binding := by
        refine tail_setTail_of_part binds' (fun same => ?_) w
        cases binds.symm.trans same
        exact Nat.lt_irrefl _ less
      rw [overwrite, if_neg here]
      refine .cons lt link ((h.head_setTail written cell w).trans head) below
        (binds.trans (by rw [length_overwrite])) ((h.head_setTail written binding w).trans symbol)
        (kept.trans valued) ?_
      rw [tail_setTail_of_part binds' (by simp [link])]
      exact writes w

end BindingsAt

end MessageMachine
