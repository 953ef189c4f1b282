/-
# Stacks of maps

What environments are meant to be, without pairs. Scopes have numbers and are maps: names with
their values, the newest binding first, of which the first one for a name counts. An environment
is a stack of scopes, the innermost first, and two environments may share all of it but a few
scopes. What is done to a scope is therefore noticed by every environment that has it on its
stack and finds nothing on the way to it.

`lookup?_define` and `lookup?_assign` say exactly who notices what.
-/

import Mathlib.Logic.Function.Basic
import MessageMachine.Value

namespace MessageMachine

/-! ## Bindings -/

/-- What a scope binds, the newest binding first. -/
abbrev Bindings := List (String × Value)

/-- Give the newest binding of a name another value; older ones keep theirs. -/
def Bindings.overwrite (name : String) (v : Value) : Bindings → Bindings
  | [] => []
  | (bound, old) :: older =>
    if bound = name then (bound, v) :: older else (bound, old) :: overwrite name v older

open Bindings

@[simp] theorem length_overwrite (name : String) (v : Value) (bs : Bindings) :
    (overwrite name v bs).length = bs.length := by
  induction bs with
  | nil => rfl
  | cons binding older ih =>
    rw [overwrite]
    split
    · rfl
    · exact congrArg (· + 1) ih

theorem lookup_cons_binding (bs : Bindings) (name : String) (v : Value) (other : String) :
    List.lookup other ((name, v) :: bs) = if other = name then some v else bs.lookup other := by
  rw [List.lookup_cons]
  by_cases same : other = name
  · rw [if_pos same, beq_iff_eq.2 same]
  · rw [if_neg same, beq_eq_false_iff_ne.2 same]

/-- Only the name itself has another value, provided that it is bound. -/
theorem lookup_overwrite {bs : Bindings} {name : String} (bound : (bs.lookup name).isSome)
    (v : Value) (other : String) :
    (overwrite name v bs).lookup other = if other = name then some v else bs.lookup other := by
  induction bs with
  | nil => cases bound
  | cons binding older ih =>
    obtain ⟨first, old⟩ := binding
    rw [lookup_cons_binding] at bound
    rw [overwrite, lookup_cons_binding]
    by_cases here : first = name
    · rw [if_pos here, lookup_cons_binding, here]
      split <;> rfl
    · rw [if_neg (Ne.symm here)] at bound
      rw [if_neg here, lookup_cons_binding, ih bound]
      by_cases same : other = first
      · rw [if_pos same, if_pos same, if_neg (same ▸ here)]
      · rw [if_neg same, if_neg same]

/-! ## Stacks -/

/-- Environments as stacks of scopes, and what is bound in the scopes. -/
structure Stacks where
  /-- Scopes are numbered in the order in which they were made. -/
  count : Nat
  bindings : Nat → Bindings
  /-- The scopes of each environment, the innermost first. -/
  environments : List (List Nat)

namespace Stacks

/-- The value of the newest binding of a name in the innermost scope that has one. -/
def lookup? (a : Stacks) (stack : List Nat) (name : String) : Option Value :=
  stack.findSome? fun scope => (a.bindings scope).lookup name

/-- The innermost scope that binds a name. -/
def holder? (a : Stacks) (stack : List Nat) (name : String) : Option Nat :=
  stack.find? fun scope => ((a.bindings scope).lookup name).isSome

/-- An environment sees what a scope binds to a name: the scope is on its stack, and none that is
further inside has a binding in front of it. -/
def Sees (a : Stacks) (stack : List Nat) (scope : Nat) (name : String) : Prop :=
  ∃ inner outer, stack = inner ++ scope :: outer ∧
    ∀ other ∈ inner, (a.bindings other).lookup name = none

/-- A new environment, with a scope of its own on a stack. -/
def addScope (a : Stacks) (stack : List Nat) : Stacks where
  count := a.count + 1
  bindings := Function.update a.bindings a.count []
  environments := a.environments ++ [a.count :: stack]

/-- A scope binds something else. -/
def write (a : Stacks) (scope : Nat) (bs : Bindings) : Stacks :=
  { a with bindings := Function.update a.bindings scope bs }

def define (a : Stacks) (scope : Nat) (name : String) (v : Value) : Stacks :=
  a.write scope ((name, v) :: a.bindings scope)

def assign (a : Stacks) (stack : List Nat) (name : String) (v : Value) : Stacks :=
  match a.holder? stack name with
  | some scope => a.write scope (overwrite name v (a.bindings scope))
  | none => a

variable {a : Stacks} {stack : List Nat} {scope first : Nat} {name : String}

theorem bindings_write (a : Stacks) (scope : Nat) (bs : Bindings) (other : Nat) :
    (a.write scope bs).bindings other = if other = scope then bs else a.bindings other :=
  Function.update_apply ..

theorem bindings_addScope (a : Stacks) (stack : List Nat) (other : Nat) :
    (a.addScope stack).bindings other = if other = a.count then [] else a.bindings other :=
  Function.update_apply ..

theorem lookup?_cons (a : Stacks) (first : Nat) (stack : List Nat) (name : String) :
    a.lookup? (first :: stack) name =
      ((a.bindings first).lookup name).or (a.lookup? stack name) := by
  rw [lookup?, List.findSome?_cons]
  cases (a.bindings first).lookup name <;> rfl

theorem holder?_cons (a : Stacks) (first : Nat) (stack : List Nat) (name : String) :
    a.holder? (first :: stack) name =
      if ((a.bindings first).lookup name).isSome then some first else a.holder? stack name := by
  rw [holder?, List.find?_cons]
  cases ((a.bindings first).lookup name).isSome <;> rfl

theorem bound_of_holder? (held : a.holder? stack name = some scope) :
    ((a.bindings scope).lookup name).isSome :=
  List.find?_some (p := fun scope => ((a.bindings scope).lookup name).isSome) held

/-- A scope that binds a name holds it for the environments that see it. -/
theorem holder?_eq_some_iff (bound : ((a.bindings scope).lookup name).isSome) :
    a.holder? stack name = some scope ↔ a.Sees stack scope name := by
  rw [holder?, List.find?_eq_some_iff_append]
  refine (and_iff_right bound).trans (exists₂_congr fun inner outer => and_congr_right fun _ => ?_)
  simp

/-- What the innermost scope binds is seen, and so is what is seen from outside, unless the
innermost scope has a binding too. -/
theorem sees_cons_iff : a.Sees (first :: stack) scope name ↔
    first = scope ∨ (a.bindings first).lookup name = none ∧ a.Sees stack scope name := by
  constructor
  · rintro ⟨inner, outer, whole, free⟩
    cases inner with
    | nil =>
      cases whole
      exact .inl rfl
    | cons one inner =>
      cases whole
      obtain ⟨free, others⟩ := List.forall_mem_cons.1 free
      exact .inr ⟨free, inner, outer, rfl, others⟩
  · rintro (rfl | ⟨free, inner, outer, rfl, others⟩)
    · exact ⟨[], stack, rfl, nofun⟩
    · exact ⟨first :: inner, outer, rfl, List.forall_mem_cons.2 ⟨free, others⟩⟩

theorem not_sees_nil : ¬ a.Sees [] scope name := by
  rintro ⟨inner, outer, whole, -⟩
  cases inner <;> cases whole

instance decidableSees : (stack : List Nat) → Decidable (a.Sees stack scope name)
  | [] => isFalse not_sees_nil
  | _ :: stack =>
    have := decidableSees stack
    decidable_of_iff' _ sees_cons_iff

/-! ## Who notices what -/

/-- When a scope gives a name another value and otherwise binds what it did, those who see it
notice the value, and nothing else changes. -/
theorem lookup?_write {bs : Bindings} {v : Value}
    (binds : ∀ other, bs.lookup other =
      if other = name then some v else (a.bindings scope).lookup other)
    (stack : List Nat) (other : String) :
    (a.write scope bs).lookup? stack other =
      if other = name ∧ a.Sees stack scope name then some v else a.lookup? stack other := by
  induction stack with
  | nil =>
    rw [if_neg fun seen => not_sees_nil seen.2]
    rfl
  | cons first stack ih =>
    rw [lookup?_cons, lookup?_cons, ih, bindings_write]
    by_cases here : first = scope
    · rw [if_pos here, binds, here]
      by_cases same : other = name
      · rw [if_pos same, Option.some_or, if_pos ⟨same, sees_cons_iff.2 (.inl rfl)⟩]
      · rw [if_neg same, if_neg fun seen => same seen.1, if_neg fun seen => same seen.1]
    · rw [if_neg here]
      have seen_iff : a.Sees (first :: stack) scope name ↔
          (a.bindings first).lookup name = none ∧ a.Sees stack scope name :=
        sees_cons_iff.trans (or_iff_right here)
      cases found : (a.bindings first).lookup other with
      | none =>
        rw [Option.none_or, Option.none_or]
        refine if_congr (and_congr_right fun same => ?_) rfl rfl
        rw [seen_iff, ← same, found]
        exact (and_iff_right rfl).symm
      | some w =>
        rw [Option.some_or, Option.some_or, if_neg]
        rintro ⟨rfl, seen⟩
        cases found.symm.trans (seen_iff.1 seen).1

/-- A definition gives the name another value where the scope is seen. -/
theorem lookup?_define (a : Stacks) (scope : Nat) (name : String) (v : Value) (stack : List Nat)
    (other : String) :
    (a.define scope name v).lookup? stack other =
      if other = name ∧ a.Sees stack scope name then some v else a.lookup? stack other :=
  lookup?_write (lookup_cons_binding _ name v) stack other

/-- Without a binding there is nothing to assign. -/
theorem assign_of_none (unbound : a.holder? stack name = none) (v : Value) :
    a.assign stack name v = a := by
  rw [assign, unbound]

theorem assign_of_some (held : a.holder? stack name = some scope) (v : Value) :
    a.assign stack name v = a.write scope (overwrite name v (a.bindings scope)) := by
  rw [assign, held]

/-- An assignment gives the name another value where the same scope holds it. -/
theorem lookup?_assign (held : a.holder? stack name = some scope) (v : Value)
    (stack' : List Nat) (other : String) :
    (a.assign stack name v).lookup? stack' other =
      if other = name ∧ a.holder? stack' name = some scope then some v
      else a.lookup? stack' other := by
  have bound := bound_of_holder? held
  rw [assign_of_some held, lookup?_write (lookup_overwrite bound v)]
  exact if_congr (and_congr_right fun _ => (holder?_eq_some_iff bound).symm) rfl rfl

end Stacks

end MessageMachine
