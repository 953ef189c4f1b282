/-
# Environments refine stacks of maps

Environments share their outer scopes, and an assignment writes into a pair that several of them
may see. Whatever is done with them, each behaves as a stack of maps does
(`environments_refine_stacks`): histories of deeds are run on environments and on stacks, and
what can be asked of the one is compared with the other.

The invariant is `Represents`. Every deed keeps it: what is made plays a new part, and what is
overwritten plays a part that no other pair does (`Represents.perform`).
-/

import Mathlib.Data.List.Forall2
import MessageMachine.Proofs.Environment.Chain

namespace MessageMachine

open Bindings Environment

/-! ## Histories -/

/-- A heap, and environments in the order in which they were obtained. -/
structure Environments where
  heap : Heap
  handles : List Environment

/-- What can be done with environments. They are told by their numbers; nothing comes of a number
that no environment has. -/
inductive Environments.Deed
  | create
  | extend (env : Nat)
  | parent (env : Nat)
  | define (env : Nat) (name : String) (v : Value)
  | assign (env : Nat) (name : String) (v : Value)
  /-- A pair is made that is part of no environment. -/
  | elsewhere (cell : Pair)

namespace Environments

def start (h : Heap) : Environments := ⟨h, []⟩

/-- A new environment within another, or an outermost one. -/
def create (s : Environments) (enclosing : Option Environment) : Environments :=
  let (h, e) := Environment.create s.heap enclosing
  ⟨h, s.handles ++ [e]⟩

def perform (s : Environments) : Deed → Environments
  | .create => s.create none
  | .extend env =>
    match s.handles[env]? with
    | some e => s.create (some e)
    | none => s
  | .parent env =>
    match s.handles[env]?.bind (·.parent? s.heap) with
    | some outer => { s with handles := s.handles ++ [outer] }
    | none => s
  | .define env name v =>
    match s.handles[env]? with
    | some e => { s with heap := e.define s.heap name v }
    | none => s
  | .assign env name v =>
    match s.handles[env]?.bind (·.assign? s.heap name v) with
    | some h => { s with heap := h }
    | none => s
  | .elsewhere cell => { s with heap := (s.heap.allocPair cell).1 }

def run (s : Environments) (deeds : List Deed) : Environments :=
  deeds.foldl perform s

end Environments

namespace Stacks

open Environments (Deed)

def empty : Stacks := ⟨0, fun _ => [], []⟩

/-- What the same deed does to stacks of maps. -/
def perform (a : Stacks) : Deed → Stacks
  | .create => a.addScope []
  | .extend env =>
    match a.environments[env]? with
    | some stack => a.addScope stack
    | none => a
  | .parent env =>
    match a.environments[env]? with
    | some (_ :: outer :: more) => { a with environments := a.environments ++ [outer :: more] }
    | _ => a
  | .define env name v =>
    match a.environments[env]? with
    | some (scope :: _) => a.define scope name v
    | _ => a
  | .assign env name v =>
    match a.environments[env]? with
    | some stack => a.assign stack name v
    | none => a
  | .elsewhere _ => a

def run (a : Stacks) (deeds : List Deed) : Stacks :=
  deeds.foldl perform a

end Stacks

/-- An environment and the stack of the same number. -/
def Counterparts (s : Environments) (a : Stacks) (e : Environment) (stack : List Nat) : Prop :=
  (e, stack) ∈ s.handles.zip a.environments

/-- Environments are, in all that can be observed, stacks of maps. -/
structure RefinesStacks (s : Environments) (a : Stacks) : Prop where
  together : s.handles.length = a.environments.length
  nonempty : ∀ {e : Environment} {stack : List Nat}, Counterparts s a e stack → stack ≠ []
  /-- Looking a name up comes to an end. -/
  searches : ∀ {e : Environment} {stack : List Nat}, Counterparts s a e stack →
    ∀ name, e.Searches s.heap name (e.binding? s.heap name)
  /-- It gives the newest value in the innermost scope that has one, and nothing if none has. -/
  lookup : ∀ {e : Environment} {stack : List Nat}, Counterparts s a e stack →
    ∀ name, e.lookup? s.heap name = a.lookup? stack name
  /-- The scopes hold what the maps do, older bindings included. -/
  contents : ∀ {e : Environment} {scope : Nat} {outer : List Nat},
    Counterparts s a e (scope :: outer) → e.contents s.heap = a.bindings scope
  outermost : ∀ {e : Environment} {scope : Nat}, Counterparts s a e [scope] →
    e.parent? s.heap = none
  /-- The parent of an environment is the one that was extended. -/
  parent : ∀ {e e' : Environment} {scope : Nat} {outer : List Nat},
    Counterparts s a e (scope :: outer) → Counterparts s a e' outer → e.parent? s.heap = some e'
  /-- A definition is noticed for its name only, and where nothing shadows it. -/
  define : ∀ {e e' : Environment} {scope : Nat} {outer stack : List Nat},
    Counterparts s a e (scope :: outer) → Counterparts s a e' stack → ∀ name v other,
      e'.lookup? (e.define s.heap name v) other =
        if other = name ∧ a.Sees stack scope name then some v else e'.lookup? s.heap other
  /-- It puts a binding in front of those that its own scope has. -/
  defined : ∀ {e e' : Environment} {stack stack' : List Nat},
    Counterparts s a e stack → Counterparts s a e' stack' → ∀ name v,
      e'.contents (e.define s.heap name v) =
        if e' = e then (name, v) :: e'.contents s.heap else e'.contents s.heap
  /-- Nothing is assigned to a name without a binding. -/
  unbound : ∀ {e : Environment} {stack : List Nat}, Counterparts s a e stack → ∀ name v,
    e.assign? s.heap name v = none ↔ a.lookup? stack name = none
  /-- An assignment is noticed for its name only, and by those who find the same binding. -/
  assign : ∀ {e e' : Environment} {stack stack' : List Nat} {name : String} {v : Value} {h : Heap},
    Counterparts s a e stack → Counterparts s a e' stack' → e.assign? s.heap name v = some h →
      ∀ other, e'.lookup? h other =
        if other = name ∧ e'.binding? s.heap name = e.binding? s.heap name then some v
        else e'.lookup? s.heap other
  /-- It overwrites the newest binding of the scope that lookup finds it in, and no other. -/
  assigned : ∀ {e e' : Environment} {stack stack' : List Nat} {name : String} {v : Value}
    {h : Heap}, Counterparts s a e stack → Counterparts s a e' stack' →
      e.assign? s.heap name v = some h →
      e'.contents h = if scopeBinding? s.heap name e'.scope = e.binding? s.heap name
        then overwrite name v (e'.contents s.heap) else e'.contents s.heap

/-! ## The invariant -/

/-- Stacks of maps stand for environments whose pairs play the given parts. -/
structure Represents (s : Environments) (a : Stacks) (part : Parts) : Prop where
  stacked : List.Forall₂
    (fun e stack => ScopesAt s.heap part s.heap.pairs.size (.pair e.scope) stack)
    s.handles a.environments
  numbered : ∀ {r : Ref .pair} {k : Nat}, part r = some (.scope k) → k < a.count
  inside : ∀ {r : Ref .pair} {k : Nat}, part r = some (.scope k) → r.index < s.heap.pairs.size
  unique : ∀ {r r' : Ref .pair} {k : Nat},
    part r = some (.scope k) → part r' = some (.scope k) → r = r'
  binds : ∀ {r : Ref .pair} {k : Nat}, part r = some (.scope k) →
    BindingsAt s.heap part k s.heap.pairs.size (s.heap.head r) (a.bindings k)

variable {s : Environments} {a : Stacks} {part : Parts} {bound limit k : Nat} {v : Value}
  {stack stack' : List Nat} {name : String} {r written : Ref .pair} {e e' : Environment}

namespace Represents

/-! ### What is found -/

theorem map_tail_scopeBinding? (rep : Represents s a part) (scope : part r = some (.scope k))
    (name : String) :
    (scopeBinding? s.heap name r).map s.heap.tail = (a.bindings k).lookup name :=
  (rep.binds scope).map_tail_findAlong? (Nat.le_refl _) name

theorem map_tail_findAlong? (rep : Represents s a part)
    (scopes : ScopesAt s.heap part bound v stack) (le : bound ≤ limit) (name : String) :
    (s.heap.findAlong? (scopeBinding? s.heap name) limit v).map s.heap.tail =
      a.lookup? stack name := by
  induction scopes generalizing limit with
  | nil => cases limit <;> rfl
  | cons lt scope _ ih =>
    obtain ⟨limit, rfl⟩ := Nat.exists_eq_add_of_lt (Nat.lt_of_lt_of_le lt le)
    rw [Heap.findAlong?, Stacks.lookup?_cons, ← rep.map_tail_scopeBinding? scope]
    cases scopeBinding? s.heap name _ with
    | some _ => rfl
    | none => exact ih (Nat.le_add_right _ _)

theorem looks (rep : Represents s a part) (scopes : ScopesAt s.heap part bound v stack)
    (le : bound ≤ limit) (name : String) :
    s.heap.Looks (fun scope found => s.heap.Looks
        (fun cell found => bindingIn? s.heap name cell = found) (s.heap.head scope) found) v
      (s.heap.findAlong? (scopeBinding? s.heap name) limit v) := by
  induction scopes generalizing limit with
  | nil => cases limit <;> exact .ended rfl
  | @cons _ _ scope _ lt plays _ ih =>
    obtain ⟨limit, rfl⟩ := Nat.exists_eq_add_of_lt (Nat.lt_of_lt_of_le lt le)
    have within := (rep.binds plays).looks (Nat.le_refl _) name
    rw [Heap.findAlong?]
    cases found : scopeBinding? s.heap name scope with
    | some binding => exact .found (found ▸ within)
    | none => exact .on (found ▸ within) (ih (Nat.le_add_right _ _))

/-- A binding is found in the scope that holds the name. -/
theorem holder?_of_findAlong? (rep : Represents s a part)
    (scopes : ScopesAt s.heap part bound v stack) (le : bound ≤ limit)
    (found : s.heap.findAlong? (scopeBinding? s.heap name) limit v = some written) :
    ∃ scope k, part scope = some (.scope k) ∧ a.holder? stack name = some k ∧
      scopeBinding? s.heap name scope = some written := by
  induction scopes generalizing limit with
  | nil => cases limit <;> cases found
  | @cons _ first scope _ lt plays _ ih =>
    obtain ⟨limit, rfl⟩ := Nat.exists_eq_add_of_lt (Nat.lt_of_lt_of_le lt le)
    rw [Heap.findAlong?] at found
    have value := rep.map_tail_scopeBinding? plays name
    cases here : scopeBinding? s.heap name scope with
    | some binding =>
      rw [here] at found value
      refine ⟨scope, first, plays, ?_, here.trans found⟩
      rw [Stacks.holder?_cons, ← value]
      rfl
    | none =>
      rw [here] at found value
      obtain ⟨holder, k, plays', held, there⟩ := ih (Nat.le_add_right _ _) found
      refine ⟨holder, k, plays', ?_, there⟩
      rw [Stacks.holder?_cons, ← value]
      exact held

/-- A binding that is found in a scope is one of the scope. -/
theorem part_of_scopeBinding? (rep : Represents s a part) (scope : part r = some (.scope k))
    (found : scopeBinding? s.heap name r = some written) :
    ∃ older, part written = some (.binding k older) := by
  obtain ⟨⟨older, -, plays⟩, -⟩ :=
    (rep.binds scope).setTail_of_findAlong? (Nat.le_refl _) (Nat.le_refl _) found
  exact ⟨older, plays⟩

theorem lookup? (rep : Represents s a part)
    (scopes : ScopesAt s.heap part s.heap.pairs.size (.pair e.scope) stack) (name : String) :
    e.lookup? s.heap name = a.lookup? stack name :=
  rep.map_tail_findAlong? scopes (Nat.le_refl _) name

theorem contents_eq (rep : Represents s a part) (scope : part e.scope = some (.scope k)) :
    e.contents s.heap = a.bindings k :=
  (rep.binds scope).filterMap_walk (Nat.le_refl _)

/-- Each scope has bindings of its own. -/
theorem scopeBinding?_eq_iff {r' : Ref .pair} {k' : Nat} (rep : Represents s a part)
    (plays : part r = some (.scope k)) (there : scopeBinding? s.heap name r = some written)
    (plays' : part r' = some (.scope k')) :
    scopeBinding? s.heap name r' = some written ↔ k' = k := by
  constructor
  · intro there'
    obtain ⟨_, binds⟩ := rep.part_of_scopeBinding? plays there
    obtain ⟨_, binds'⟩ := rep.part_of_scopeBinding? plays' there'
    cases binds.symm.trans binds'
    rfl
  · rintro rfl
    rwa [rep.unique plays' plays]

theorem holder?_eq_none (rep : Represents s a part)
    (scopes : ScopesAt s.heap part s.heap.pairs.size (.pair e.scope) stack)
    (unfound : e.binding? s.heap name = none) : a.holder? stack name = none := by
  have value := rep.lookup? scopes name
  rw [Environment.lookup?, unfound] at value
  rw [Stacks.holder?, List.find?_eq_none]
  intro k mem bound
  rw [List.findSome?_eq_none_iff.1 value.symm k mem] at bound
  cases bound

/-- An environment finds a binding if the scope that has it holds the name. -/
theorem binding?_eq_iff (rep : Represents s a part)
    (scopes : ScopesAt s.heap part s.heap.pairs.size (.pair e.scope) stack)
    (plays : part r = some (.scope k)) (there : scopeBinding? s.heap name r = some written) :
    e.binding? s.heap name = some written ↔ a.holder? stack name = some k := by
  cases found : e.binding? s.heap name with
  | none => simp [rep.holder?_eq_none scopes found]
  | some other =>
    obtain ⟨scope', k', plays', held, there'⟩ :=
      rep.holder?_of_findAlong? scopes (Nat.le_refl _) found
    rw [held, Option.some.injEq, Option.some.injEq, ← rep.scopeBinding?_eq_iff plays there plays',
      there', Option.some.injEq]

/-! ### What is kept -/

/-- A new pair that is no scope does not matter. -/
theorem alloc (rep : Represents s a part) (cell : Pair) {p : Option Part}
    (other : ∀ k, p ≠ some (.scope k)) :
    Represents ⟨(s.heap.allocPair cell).1, s.handles⟩ a
      (Function.update part ⟨s.heap.pairs.size⟩ p) := by
  have size := s.heap.size_allocPair cell
  have old {r : Ref .pair} {k : Nat}
      (scope : Function.update part ⟨s.heap.pairs.size⟩ p r = some (.scope k)) :
      part r = some (.scope k) := by
    rw [Function.update_apply] at scope
    split at scope
    · exact absurd scope (other k)
    · exact scope
  refine ⟨rep.stacked.imp fun e stack scopes => ?_, fun scope => rep.numbered (old scope),
    fun scope => ?_, fun scope scope' => rep.unique (old scope) (old scope'), fun scope => ?_⟩
  · exact (scopes.alloc (Nat.le_refl _) cell p).mono (by rw [size]; exact Nat.le_succ _)
      fun _ _ _ scope => ⟨scope, rfl⟩
  · rw [size]
    exact Nat.lt_succ_of_lt (rep.inside (old scope))
  · rw [Heap.head_allocPair_of_lt cell (rep.inside (old scope))]
    exact ((rep.binds (old scope)).alloc (Nat.le_refl _) cell p).mono
      (by rw [size]; exact Nat.le_succ _) fun _ _ _ plays _ => ⟨plays, rfl, rfl⟩

/-- A pair without a part becomes a scope. -/
theorem addScope (rep : Represents s a part) (free : part r = none)
    (inside : r.index < s.heap.pairs.size) (head : s.heap.head r = .nil)
    (outer : ScopesAt s.heap part r.index (s.heap.tail r) stack) :
    Represents ⟨s.heap, s.handles ++ [⟨r⟩]⟩ (a.addScope stack)
      (Function.update part r (some (.scope a.count))) := by
  have kept {r' : Ref .pair} {p : Part} (plays : part r' = some p) :
      Function.update part r (some (.scope a.count)) r' = some p := by
    rw [Function.update_of_ne, plays]
    rintro rfl
    cases free.symm.trans plays
  have scopes {bound : Nat} {v : Value} {stack : List Nat}
      (scopes : ScopesAt s.heap part bound v stack) :=
    scopes.mono (Nat.le_refl _) fun r' n _ scope => ⟨kept scope, rfl⟩
  -- A scope is the new one or an old one, and the new one has a number of its own.
  have cases {r' : Ref .pair} {k : Nat}
      (scope : Function.update part r (some (.scope a.count)) r' = some (.scope k)) :
      r' = r ∧ k = a.count ∨ part r' = some (.scope k) ∧ k < a.count := by
    rw [Function.update_apply] at scope
    split at scope
    · next same =>
      cases scope
      exact .inl ⟨same, rfl⟩
    · exact .inr ⟨scope, rep.numbered scope⟩
  refine ⟨?_, fun scope => ?_, fun scope => ?_, fun scope scope' => ?_, fun scope => ?_⟩
  · refine List.rel_append (rep.stacked.imp fun e stack => scopes) (.cons ?_ .nil)
    exact .cons inside (Function.update_self r _ part) (scopes outer)
  · obtain ⟨-, rfl⟩ | ⟨-, less⟩ := cases scope
    · exact Nat.lt_succ_self _
    · exact Nat.lt_succ_of_lt less
  · obtain ⟨rfl, -⟩ | ⟨old, -⟩ := cases scope
    · exact inside
    · exact rep.inside old
  · obtain ⟨rfl, rfl⟩ | ⟨old, less⟩ := cases scope <;>
      obtain ⟨rfl, same⟩ | ⟨old', less'⟩ := cases scope'
    · rfl
    · exact absurd less' (Nat.lt_irrefl _)
    · exact absurd (same ▸ less) (Nat.lt_irrefl _)
    · exact rep.unique old old'
  · obtain ⟨rfl, rfl⟩ | ⟨old, less⟩ := cases scope
    · rw [head, Stacks.bindings_addScope, if_pos rfl]
      exact .nil
    · rw [Stacks.bindings_addScope, if_neg (Nat.ne_of_lt less)]
      exact (rep.binds old).mono (Nat.le_refl _) fun _ _ _ plays _ => ⟨kept plays, rfl, rfl⟩

/-- A scope gets another list of bindings. -/
theorem setHead {bs : Bindings} (rep : Represents s a part) (scope : part r = some (.scope k))
    (bindings : BindingsAt s.heap part k s.heap.pairs.size v bs) :
    Represents ⟨s.heap.setHead r v, s.handles⟩ (a.write k bs) part := by
  have size := s.heap.size_setHead r v
  have kept {r' : Ref .pair} {p : Part} (plays : part r' = some p) (other : ∀ n, p ≠ .scope n) :
      (s.heap.setHead r v).head r' = s.heap.head r' := by
    rw [Heap.head_setHead, if_neg]
    rintro ⟨rfl, -⟩
    exact other k (Option.some.inj (plays.symm.trans scope))
  have moved {k : Nat} {v' : Value} {bs : Bindings}
      (bindings : BindingsAt s.heap part k s.heap.pairs.size v' bs) :
      BindingsAt (s.heap.setHead r v) part k (s.heap.setHead r v).pairs.size v' bs :=
    bindings.mono (Nat.le_of_eq size.symm) fun r' _ _ plays other =>
      ⟨plays, kept plays other, s.heap.tail_setHead r r' v⟩
  refine ⟨rep.stacked.imp fun e stack scopes => ?_, rep.numbered, fun plays => ?_, rep.unique,
    fun {r' k'} plays => ?_⟩
  · exact scopes.mono (Nat.le_of_eq size.symm) fun r' _ _ plays =>
      ⟨plays, s.heap.tail_setHead r r' v⟩
  · exact Nat.lt_of_lt_of_eq (rep.inside plays) size.symm
  · rw [Stacks.bindings_write, Heap.head_setHead]
    by_cases same : k' = k
    · cases same
      rw [if_pos rfl, if_pos ⟨rep.unique plays scope, rep.inside scope⟩]
      exact moved bindings
    · rw [if_neg same, if_neg]
      · exact moved (rep.binds plays)
      · rintro ⟨rfl, -⟩
        cases plays.symm.trans scope
        exact same rfl

/-- The newest binding that a scope has for a name gets another value. -/
theorem setTail (rep : Represents s a part) (scope : part r = some (.scope k))
    (found : scopeBinding? s.heap name r = some written) (v : Value) :
    Represents ⟨s.heap.setTail written v, s.handles⟩
      (a.write k (overwrite name v (a.bindings k))) part := by
  have size := s.heap.size_setTail written v
  obtain ⟨older, binds⟩ := rep.part_of_scopeBinding? scope found
  refine ⟨rep.stacked.imp fun e stack scopes => ?_, rep.numbered, fun plays => ?_, rep.unique,
    fun {r' k'} plays => ?_⟩
  · exact scopes.mono (Nat.le_of_eq size.symm) fun r' n _ plays =>
      ⟨plays, BindingsAt.tail_setTail_of_part binds (by simp [plays]) v⟩
  · exact Nat.lt_of_lt_of_eq (rep.inside plays) size.symm
  · rw [Stacks.bindings_write, Heap.head_setTail, size]
    by_cases same : k' = k
    · cases same
      rw [if_pos rfl, rep.unique plays scope]
      exact ((rep.binds scope).setTail_of_findAlong? (Nat.le_refl _) (Nat.le_refl _) found).2 v
    · rw [if_neg same]
      exact (rep.binds plays).setTail_of_ne binds (fun eq => absurd eq.symm same) v

/-! ### What deeds do -/

/-- A new pair becomes a scope. -/
theorem create {parent : Value} (rep : Represents s a part)
    (outer : ScopesAt s.heap part s.heap.pairs.size parent stack) :
    ∃ part', Represents ⟨(s.heap.allocPair ⟨.nil, parent, none⟩).1,
      s.handles ++ [⟨⟨s.heap.pairs.size⟩⟩]⟩ (a.addScope stack) part' := by
  have grown := rep.alloc ⟨.nil, parent, none⟩ (p := none) nofun
  refine ⟨_, grown.addScope (r := ⟨s.heap.pairs.size⟩) (Function.update_self _ _ _) ?_
    (s.heap.head_allocPair_new _) ?_⟩
  · exact Nat.lt_of_lt_of_eq (Nat.lt_succ_self _) (s.heap.size_allocPair _).symm
  · rw [Heap.tail_allocPair_new]
    exact outer.alloc (Nat.le_refl _) _ none

theorem define (rep : Represents s a part) (inside : r.index < s.heap.pairs.size)
    (scope : part r = some (.scope k)) (name : String) (v : Value) :
    ∃ part', Represents ⟨Environment.define s.heap ⟨r⟩ name v, s.handles⟩ (a.define k name v)
      part' := by
  -- The binding is made first, then the link, and only then does the scope change.
  have bound := rep.alloc ⟨.symbol name, v, none⟩
    (p := some (.binding k (a.bindings k).length)) (by simp)
  have scope₁ := (update_new_of_lt inside (some (.binding k (a.bindings k).length))).trans scope
  have inside₁ := bound.inside scope₁
  let h₁ := (s.heap.allocPair ⟨.symbol name, v, none⟩).1
  let link : Pair := ⟨.pair ⟨s.heap.pairs.size⟩, h₁.head r, none⟩
  have linked := bound.alloc link (p := some .link) (by simp)
  refine ⟨_, linked.setHead ((update_new_of_lt inside₁ (some .link)).trans scope₁)
    (v := .pair ⟨h₁.pairs.size⟩) ?_⟩
  have below : s.heap.pairs.size < h₁.pairs.size :=
    Nat.lt_of_lt_of_eq (Nat.lt_succ_self _) (s.heap.size_allocPair _).symm
  refine .cons ?_ (Function.update_self _ _ _) (h₁.head_allocPair_new link) below
    ((update_new_of_lt below (some .link)).trans (Function.update_self _ _ _))
    ((h₁.head_allocPair_of_lt link below).trans (s.heap.head_allocPair_new _))
    ((h₁.tail_allocPair_of_lt link below).trans (s.heap.tail_allocPair_new _)) ?_
  · exact Nat.lt_of_lt_of_eq (Nat.lt_succ_self _) (h₁.size_allocPair link).symm
  · rw [h₁.tail_allocPair_new link]
    exact (bound.binds scope₁).alloc (Nat.le_refl _) link (some .link)

/-- The newest binding in the scope that holds the name gets another value. -/
theorem assign {h : Heap} (rep : Represents s a part)
    (scopes : ScopesAt s.heap part s.heap.pairs.size (.pair e.scope) stack)
    (assigned : e.assign? s.heap name v = some h) :
    Represents ⟨h, s.handles⟩ (a.assign stack name v) part := by
  obtain ⟨written, found, rfl⟩ := Option.map_eq_some_iff.1 assigned
  obtain ⟨scope, k, plays, held, there⟩ :=
    rep.holder?_of_findAlong? scopes (Nat.le_refl _) found
  rw [Stacks.assign_of_some held]
  exact rep.setTail plays there v

end Represents

/-- Lists that go together have nothing at a place, or two things that go together. -/
theorem getElem?_of_forall₂ {α β : Type} {R : α → β → Prop} {xs : List α} {ys : List β}
    (together : List.Forall₂ R xs ys) (i : Nat) :
    xs[i]? = none ∧ ys[i]? = none ∨ ∃ x y, xs[i]? = some x ∧ ys[i]? = some y ∧ R x y := by
  induction together generalizing i with
  | nil => exact .inl ⟨rfl, rfl⟩
  | cons rel _ ih =>
    cases i with
    | zero => exact .inr ⟨_, _, rfl, rfl, rel⟩
    | succ i => exact ih i

/-- An environment has no parent if its scope is alone on the stack, and else the parent stands
for the rest of the stack. -/
theorem ScopesAt.parent? {h : Heap} (scopes : ScopesAt h part bound (.pair e.scope) stack) :
    (∃ k, stack = [k] ∧ e.parent? h = none) ∨
      ∃ k k' more outer, stack = k :: k' :: more ∧ e.parent? h = some outer ∧
        ScopesAt h part bound (.pair outer.scope) (k' :: more) := by
  obtain _ | ⟨inside, -, outside⟩ := scopes
  rw [Environment.parent?]
  generalize h.tail e.scope = outside at *
  cases outside with
  | nil => exact .inl ⟨_, rfl, rfl⟩
  | cons lt plays rest =>
    exact .inr ⟨_, _, _, ⟨_⟩, rfl, rfl, .cons (Nat.lt_trans lt inside) plays rest⟩

/-- Every deed does to environments what it does to stacks of maps. -/
theorem Represents.perform (rep : Represents s a part) (deed : Environments.Deed) :
    ∃ part', Represents (s.perform deed) (a.perform deed) part' := by
  cases deed with
  | create => exact rep.create .nil
  | extend env =>
    rw [Environments.perform, Stacks.perform]
    obtain ⟨none, none'⟩ | ⟨e, stack, some, some', scopes⟩ := getElem?_of_forall₂ rep.stacked env
    · rw [none, none']
      exact ⟨_, rep⟩
    · rw [some, some']
      exact rep.create scopes
  | parent env =>
    rw [Environments.perform, Stacks.perform]
    obtain ⟨none, none'⟩ | ⟨e, stack, some, some', scopes⟩ := getElem?_of_forall₂ rep.stacked env
    · rw [none, none']
      exact ⟨_, rep⟩
    · rw [some, some', Option.bind_some]
      obtain ⟨k, rfl, outermost⟩ | ⟨k, k', more, outer, rfl, outside, scopes'⟩ := scopes.parent?
      · rw [outermost]
        exact ⟨_, rep⟩
      · rw [outside]
        exact ⟨_, { rep with stacked := List.rel_append rep.stacked (.cons scopes' .nil) }⟩
  | define env name v =>
    rw [Environments.perform, Stacks.perform]
    obtain ⟨none, none'⟩ | ⟨e, stack, some, some', scopes⟩ := getElem?_of_forall₂ rep.stacked env
    · rw [none, none']
      exact ⟨_, rep⟩
    · rw [some, some']
      obtain _ | ⟨inside, plays, -⟩ := scopes
      exact rep.define inside plays name v
  | assign env name v =>
    rw [Environments.perform, Stacks.perform]
    obtain ⟨none, none'⟩ | ⟨e, stack, some, some', scopes⟩ := getElem?_of_forall₂ rep.stacked env
    · rw [none, none']
      exact ⟨_, rep⟩
    · rw [some, some', Option.bind_some]
      cases assigned : e.assign? s.heap name v with
      | none =>
        have unheld := rep.holder?_eq_none scopes (Option.map_eq_none_iff.1 assigned)
        exact ⟨_, (Stacks.assign_of_none unheld v).symm ▸ rep⟩
      | some h => exact ⟨_, rep.assign scopes assigned⟩
  | elsewhere cell => exact ⟨_, rep.alloc cell (p := none) nofun⟩

theorem Represents.run (rep : Represents s a part) (deeds : List Environments.Deed) :
    ∃ part', Represents (s.run deeds) (a.run deeds) part' := by
  induction deeds generalizing s a part with
  | nil => exact ⟨part, rep⟩
  | cons deed deeds ih =>
    obtain ⟨part', rep'⟩ := rep.perform deed
    exact ih rep'

theorem represents_start (h : Heap) :
    Represents (Environments.start h) Stacks.empty fun _ => none where
  stacked := .nil
  numbered := nofun
  inside := nofun
  unique := nofun
  binds := nofun

/-! ## What is observed -/

theorem Represents.scopesAt (rep : Represents s a part) (at' : Counterparts s a e stack) :
    ScopesAt s.heap part s.heap.pairs.size (.pair e.scope) stack :=
  List.forall₂_zip rep.stacked at'

theorem Represents.plays {outer : List Nat} (rep : Represents s a part)
    (at' : Counterparts s a e (k :: outer)) : part e.scope = some (.scope k) := by
  obtain _ | ⟨-, plays, -⟩ := rep.scopesAt at'
  exact plays

theorem Represents.exists_cons (rep : Represents s a part) (at' : Counterparts s a e stack) :
    ∃ k outer, stack = k :: outer := by
  cases rep.scopesAt at'
  exact ⟨_, _, rfl⟩

theorem Represents.refinesStacks (rep : Represents s a part) : RefinesStacks s a where
  together := rep.stacked.length_eq
  nonempty at' := by
    cases rep.scopesAt at'
    nofun
  searches at' name := rep.looks (rep.scopesAt at') (Nat.le_refl _) name
  lookup at' name := rep.lookup? (rep.scopesAt at') name
  contents at' := rep.contents_eq (rep.plays at')
  outermost at' := by
    obtain ⟨_, -, outermost⟩ | ⟨_, _, _, _, more, -⟩ := (rep.scopesAt at').parent?
    · exact outermost
    · cases more
  parent at' outside := by
    obtain ⟨_, alone, -⟩ | ⟨_, _, _, outer, more, found, scopes⟩ := (rep.scopesAt at').parent?
    · cases alone
      cases rep.scopesAt outside
    · cases more
      obtain _ | ⟨-, plays, -⟩ := scopes
      exact found.trans (congrArg (some ∘ Environment.mk) (rep.unique plays (rep.plays outside)))
  define at' elsewhere name v other := by
    obtain ⟨part', rep'⟩ := rep.define (rep.inside (rep.plays at')) (rep.plays at') name v
    exact (rep'.lookup? (rep'.scopesAt elsewhere) other).trans
      ((a.lookup?_define ..).trans (by rw [rep.lookup? (rep.scopesAt elsewhere)]))
  defined {e e' _ _} at' elsewhere name v := by
    obtain ⟨k, outer, rfl⟩ := rep.exists_cons at'
    obtain ⟨k', outer', rfl⟩ := rep.exists_cons elsewhere
    have plays := rep.plays at'
    have plays' := rep.plays elsewhere
    obtain ⟨part', rep'⟩ := rep.define (rep.inside plays) plays name v
    have same_iff : e' = e ↔ k' = k := by
      constructor
      · rintro rfl
        cases plays.symm.trans plays'
        rfl
      · rintro rfl
        exact congrArg Environment.mk (rep.unique plays' plays)
    refine (rep'.contents_eq (rep'.plays elsewhere)).trans ?_
    rw [Stacks.define, Stacks.bindings_write, rep.contents_eq plays']
    simp only [same_iff]
    split
    · next same => rw [same]
    · rfl
  unbound at' name v := by
    rw [← rep.lookup? (rep.scopesAt at'), Environment.lookup?, Environment.assign?,
      Option.map_eq_none_iff, Option.map_eq_none_iff]
  assign {e e' stack stack' name v _} at' elsewhere assigned other := by
    obtain ⟨written, found, rfl⟩ := Option.map_eq_some_iff.1 assigned
    obtain ⟨scope, k, plays, held, there⟩ :=
      rep.holder?_of_findAlong? (rep.scopesAt at') (Nat.le_refl _) found
    have rep' := rep.setTail plays there v
    refine (rep'.lookup? (rep'.scopesAt elsewhere) other).trans ?_
    rw [← Stacks.assign_of_some held, Stacks.lookup?_assign held, found,
      rep.lookup? (rep.scopesAt elsewhere)]
    simp only [rep.binding?_eq_iff (rep.scopesAt elsewhere) plays there]
  assigned {e e' stack stack' name v _} at' elsewhere assigned := by
    obtain ⟨written, found, rfl⟩ := Option.map_eq_some_iff.1 assigned
    obtain ⟨scope, k, plays, held, there⟩ :=
      rep.holder?_of_findAlong? (rep.scopesAt at') (Nat.le_refl _) found
    obtain ⟨k', outer, rfl⟩ := rep.exists_cons elsewhere
    have plays' := rep.plays elsewhere
    have rep' := rep.setTail plays there v
    refine (rep'.contents_eq plays').trans ?_
    rw [Stacks.bindings_write, rep.contents_eq plays', found]
    simp only [rep.scopeBinding?_eq_iff plays there plays']
    split
    · next same => rw [same]
    · rfl

/-- Whatever is done with environments, in whatever order and in whatever heap, they are stacks
of maps. -/
theorem environments_refine_stacks (h : Heap) (deeds : List Environments.Deed) :
    RefinesStacks ((Environments.start h).run deeds) (Stacks.empty.run deeds) := by
  obtain ⟨part, rep⟩ := (represents_start h).run deeds
  exact rep.refinesStacks

/-- A scope within another shadows what the latter defines later, and what is assigned from
within is seen from without. -/
example :
    let deeds : List Environments.Deed := [.create, .define 0 "x" (.integer 1), .extend 0,
      .define 1 "y" (.integer 2), .define 0 "y" (.integer 3), .assign 1 "x" (.integer 4)]
    let s := (Environments.start .empty).run deeds
    s.handles.map (fun e => (e.lookup? s.heap "x", e.lookup? s.heap "y")) =
      [(some (.integer 4), some (.integer 3)), (some (.integer 4), some (.integer 2))] := by
  decide +kernel

end MessageMachine
