/-
# Heaps that hold the same at other places

A renaming says at which places of another heap the pairs and the strings of this one are
found. `Heap.Mirrors` says that it does so for everything the heap holds, and that it will do
so for whatever both heaps come to hold: what is allocated next in the one is found at what is
allocated next in the other. The other heap may hold more, at places in between. Where things
were written plays no part, and methods, classes and instances have the same places in both.

A heap is closed if it holds whatever its records refer to. Only that makes it possible to go
on with another renaming: it need agree with the first on what is held and nowhere else.

Each change to a heap has one lemma. `Heap.Carries` says what comes of it: heaps that mirror
each other again, nothing lost, and nothing touched at the places in between.
-/

import Mathlib.Data.Fintype.Card
import MessageMachine.Proofs.Heap.Relocation
import MessageMachine.Proofs.Heap.Unfolding
import MessageMachine.Proofs.Image.Class

namespace MessageMachine

/-! ## Renaming -/

/-- Where pairs and strings of one heap are found in another, no two at one place. -/
structure Renaming where
  pair : Ref .pair → Ref .pair
  string : Ref .string → Ref .string
  pair_injective : Function.Injective pair
  string_injective : Function.Injective string

namespace Renaming

/-- Everything is found at its own place. -/
protected def id : Renaming :=
  ⟨id, id, Function.injective_id, Function.injective_id⟩

end Renaming

namespace Value

def rename (ρ : Renaming) : Value → Value
  | pair r => pair (ρ.pair r)
  | string r => string (ρ.string r)
  | v => v

variable (ρ : Renaming)

@[simp] theorem rename_id (v : Value) : v.rename .id = v := by
  cases v <;> rfl

@[simp] theorem rename_nil : nil.rename ρ = nil := rfl
@[simp] theorem rename_boolean (b : Bool) : (boolean b).rename ρ = boolean b := rfl
@[simp] theorem rename_integer (n : Int) : (integer n).rename ρ = integer n := rfl
@[simp] theorem rename_symbol (name : String) : (symbol name).rename ρ = symbol name := rfl
@[simp] theorem rename_callable (c : Callable) : (callable c).rename ρ = callable c := rfl
@[simp] theorem rename_pair (r : Ref .pair) : (pair r).rename ρ = pair (ρ.pair r) := rfl
@[simp] theorem rename_string (r : Ref .string) : (string r).rename ρ = string (ρ.string r) := rfl
@[simp] theorem rename_object (o : Ref .object) : (object o).rename ρ = object o := rfl

@[simp] theorem rename_classObject (c : Ref .classObject) :
    (classObject c).rename ρ = classObject c :=
  rfl

variable {ρ} in
theorem rename_injective : Function.Injective (rename ρ) := by
  intro v w same
  cases v with
  | pair r =>
    cases w with
    | pair s => exact congrArg pair (ρ.pair_injective (pair.inj same))
    | _ => cases same
  | string r =>
    cases w with
    | string s => exact congrArg string (ρ.string_injective (string.inj same))
    | _ => cases same
  | _ =>
    cases w with
    | pair s | string s => cases same
    | _ => exact same

@[simp] theorem identical_rename (v w : Value) :
    (v.rename ρ).identical (w.rename ρ) = v.identical w := by
  have stray : v.rename ρ = malformed .nan ↔ v = malformed .nan := by
    cases v <;> simp [rename]
  simp only [identical, rename_injective.eq_iff, ne_eq, stray]

variable (v : Value)

@[simp] theorem asInteger?_rename : (v.rename ρ).asInteger? = v.asInteger? := by
  cases v <;> rfl

@[simp] theorem asSymbol?_rename : (v.rename ρ).asSymbol? = v.asSymbol? := by
  cases v <;> rfl

@[simp] theorem asPair?_rename : (v.rename ρ).asPair? = v.asPair?.map ρ.pair := by
  cases v <;> rfl

@[simp] theorem asString?_rename : (v.rename ρ).asString? = v.asString?.map ρ.string := by
  cases v <;> rfl

@[simp] theorem asCallable?_rename : (v.rename ρ).asCallable? = v.asCallable? := by
  cases v <;> rfl

@[simp] theorem asClass?_rename : (v.rename ρ).asClass? = v.asClass? := by
  cases v <;> rfl

@[simp] theorem asObject?_rename : (v.rename ρ).asObject? = v.asObject? := by
  cases v <;> rfl

@[simp] theorem truthy_rename : (v.rename ρ).truthy = v.truthy := by
  cases v <;> rfl

end Value

namespace OrderedMap

variable {κ α β : Type}

def mapValues (f : α → β) (m : OrderedMap κ α) : OrderedMap κ β :=
  ⟨m.entries.map (Prod.map id f)⟩

theorem mapValues_congr {f g : α → β} {m : OrderedMap κ α}
    (same : ∀ entry ∈ m.entries, f entry.2 = g entry.2) : m.mapValues f = m.mapValues g := by
  have entries : m.entries.map (Prod.map id f) = m.entries.map (Prod.map id g) :=
    List.map_congr_left fun entry member => by rw [Prod.map, Prod.map, same entry member]
  exact congrArg mk entries

variable [DecidableEq κ]

theorem mem_of_get? {m : OrderedMap κ α} {key : κ} {value : α}
    (found : m.get? key = some value) : (key, value) ∈ m.entries := by
  obtain ⟨entries⟩ := m
  simp only [get?] at found ⊢
  induction entries with
  | nil => cases found
  | cons entry rest ih =>
    unfold find at found
    split at found
    next same =>
      cases found
      rw [← same]
      exact List.mem_cons_self
    · exact List.mem_cons_of_mem _ (ih found)

theorem mem_insert {m : OrderedMap κ α} {key : κ} {value : α} {entry : κ × α}
    (member : entry ∈ (m.insert key value).entries) : entry = (key, value) ∨ entry ∈ m.entries := by
  obtain ⟨entries⟩ := m
  simp only [insert] at member ⊢
  induction entries with
  | nil => exact .inl (List.mem_singleton.1 member)
  | cons first rest ih =>
    unfold write at member
    split at member
    next same =>
      rcases List.mem_cons.1 member with rfl | later
      · exact .inl (Prod.ext same rfl)
      · exact .inr (List.mem_cons_of_mem _ later)
    · rcases List.mem_cons.1 member with rfl | later
      · exact .inr List.mem_cons_self
      · exact (ih later).imp id (List.mem_cons_of_mem _)

@[simp] theorem get?_mapValues (f : α → β) (m : OrderedMap κ α) (key : κ) :
    (m.mapValues f).get? key = (m.get? key).map f := by
  unfold mapValues get?
  induction m.entries with
  | nil => rfl
  | cons entry rest ih =>
    rw [List.map_cons, find, find, ih]
    show (if entry.1 = key then some (f entry.2) else _) = _
    split <;> rfl

@[simp] theorem insert_mapValues (f : α → β) (m : OrderedMap κ α) (key : κ) (value : α) :
    (m.mapValues f).insert key (f value) = (m.insert key value).mapValues f := by
  unfold mapValues insert
  simp only [mk.injEq]
  induction m.entries with
  | nil => rfl
  | cons entry rest ih =>
    rw [List.map_cons, write, write, ih]
    show (if entry.1 = key then _ else _) = _
    split <;> rfl

end OrderedMap

def Object.rename (ρ : Renaming) (o : Object) : Object :=
  { o with slots := o.slots.mapValues (·.rename ρ) }

/-! ## Closed heaps -/

/-- The constants are the renamed ones, and but for the source nothing else differs. -/
structure Method.Mirrors (ρ : Renaming) (m m' : Method) : Prop where
  name : m'.name = m.name
  argCount : m'.argCount = m.argCount
  code : m'.code = m.code
  maxStack : m'.maxStack = m.maxStack
  constants : m'.constants = m.constants.map (·.rename ρ)

namespace Heap

/-- What a value refers to is there. Classes and instances are left out, which have the same
places in all heaps that are compared. -/
def Has (h : Heap) : Value → Prop
  | .pair r => r.index < h.pairs.size
  | .string r => r.index < h.strings.size
  | .callable (.method r) => r.index < h.methods.size
  | _ => True

instance (h : Heap) (v : Value) : Decidable (h.Has v) :=
  match v with
  | .pair _ | .string _ | .callable (.method _) => Nat.decLt _ _
  | .nil | .boolean _ | .strayBoolean _ | .integer _ | .char _ | .malformed _ | .symbol _
  | .callable (.primitive _) | .classObject _ | .object _ => .isTrue trivial

/-- Nothing has been taken away, and no primitive has been added. -/
structure Widens (h h' : Heap) : Prop where
  pairs : h.pairs.size ≤ h'.pairs.size
  strings : h.strings.size ≤ h'.strings.size
  methods : h.methods.size ≤ h'.methods.size
  primitives : h'.primitives = h.primitives

/-- What the records of a heap refer to is there. -/
structure Closed (h : Heap) : Prop where
  pairs : ∀ (r : Ref .pair) cell, h.pairs[r.index]? = some cell → h.Has cell.head ∧ h.Has cell.tail
  constants : ∀ (r : Ref .method) m, h.methods[r.index]? = some m → ∀ v ∈ m.constants, h.Has v
  handlers : ∀ c selector, ∀ callable ∈ h.handlersOn c selector, h.Has (.callable callable)
  slots : ∀ o ∈ h.objects, ∀ entry ∈ o.slots.entries, h.Has entry.2

/-- Whatever a heap holds is found in another. -/
structure FoundIn (ρ : Renaming) (h h' : Heap) : Prop where
  closed : h.Closed
  pairs : ∀ (r : Ref .pair) cell, h.pairs[r.index]? = some cell →
    ∃ cell', h'.pairs[(ρ.pair r).index]? = some cell' ∧
      cell'.head = cell.head.rename ρ ∧ cell'.tail = cell.tail.rename ρ
  strings : ∀ (r : Ref .string) text, h.strings[r.index]? = some text →
    h'.strings[(ρ.string r).index]? = some text
  methods : ∀ (r : Ref .method) m, h.methods[r.index]? = some m →
    ∃ m', h'.methods[r.index]? = some m' ∧ m.Mirrors ρ m'
  primitives : h'.primitives = h.primitives
  classes : h'.classes = h.classes
  objects : h'.objects = h.objects.map (·.rename ρ)

/-- It is found there, and so will be what both come to hold. -/
structure Mirrors (ρ : Renaming) (h h' : Heap) : Prop extends FoundIn ρ h h' where
  nextPair : ∀ more, ρ.pair ⟨h.pairs.size + more⟩ = ⟨h'.pairs.size + more⟩
  nextString : ∀ more, ρ.string ⟨h.strings.size + more⟩ = ⟨h'.strings.size + more⟩

/-- Nothing has happened at places where nothing of the other heap is found. -/
structure Spares (ρ : Renaming) (h h' : Heap) : Prop where
  pairs : ∀ (place : Nat) cell, h.pairs[place]? = some cell → (∀ r, (ρ.pair r).index ≠ place) →
    h'.pairs[place]? = some cell
  strings : ∀ (place : Nat) text, h.strings[place]? = some text → h'.strings[place]? = some text
  methods : h'.methods = h.methods

/-- A heap mirrors itself exactly if it is closed. -/
theorem Closed.mirrors_self {h : Heap} (closed : h.Closed) : h.Mirrors .id h where
  closed := closed
  pairs r cell held := ⟨cell, held, cell.head.rename_id.symm, cell.tail.rename_id.symm⟩
  strings r text held := held
  methods r m held := by
    refine ⟨m, held, rfl, rfl, rfl, rfl, ?_⟩
    simp only [Value.rename_id, Array.map_id']
  primitives := rfl
  classes := rfl
  objects := by
    have same (o : Object) : o.rename .id = o := by
      have slots : o.slots.mapValues (·.rename .id) = o.slots.mapValues id :=
        OrderedMap.mapValues_congr fun entry _ => entry.2.rename_id
      refine congrArg (Object.mk o.ofClass) (slots.trans ?_)
      exact congrArg OrderedMap.mk (List.map_id _)
    simp only [same, Array.map_id']
  nextPair more := rfl
  nextString more := rfl

/-- Two heaps, of which one mirrors the other, have been changed alike. -/
structure Carries (ρ : Renaming) (h h' h₁ h₁' : Heap) : Prop where
  mirrors : h₁.Mirrors ρ h₁'
  widens : h.Widens h₁
  spares : h'.Spares ρ h₁'

variable {ρ : Renaming} {h h' h₁ h₁' h₂ h₂' : Heap} {v : Value}

namespace Widens

theorem refl (h : Heap) : h.Widens h :=
  ⟨le_rfl, le_rfl, le_rfl, rfl⟩

theorem trans (first : h.Widens h₁) (second : h₁.Widens h₂) : h.Widens h₂ :=
  ⟨first.pairs.trans second.pairs, first.strings.trans second.strings,
    first.methods.trans second.methods, second.primitives.trans first.primitives⟩

end Widens

theorem Has.mono (has : h.Has v) (widens : h.Widens h') : h'.Has v := by
  unfold Has at has ⊢
  split at has
  · exact has.trans_le widens.pairs
  · exact has.trans_le widens.strings
  · exact has.trans_le widens.methods
  · trivial

namespace Spares

theorem refl (h : Heap) : Spares ρ h h :=
  ⟨fun _ _ held _ => held, fun _ _ held => held, rfl⟩

theorem trans (first : Spares ρ h h₁) (second : Spares ρ h₁ h₂) : Spares ρ h h₂ where
  pairs place cell held outside :=
    second.pairs place cell (first.pairs place cell held outside) outside
  strings place text held := second.strings place text (first.strings place text held)
  methods := second.methods.trans first.methods

end Spares

namespace Carries

theorem refl (mirrors : h.Mirrors ρ h') : Carries ρ h h' h h' :=
  ⟨mirrors, .refl h, .refl h'⟩

theorem trans (first : Carries ρ h h' h₁ h₁') (second : Carries ρ h₁ h₁' h₂ h₂') :
    Carries ρ h h' h₂ h₂' :=
  ⟨second.mirrors, first.widens.trans second.widens, first.spares.trans second.spares⟩

end Carries

/-! ## Reading -/

theorem exists_pair {r : Ref .pair} (has : h.Has (.pair r)) : ∃ cell,
    h.pairs[r.index]? = some cell ∧ h.head r = cell.head ∧ h.tail r = cell.tail :=
  have held := Array.getElem?_eq_getElem has
  ⟨_, held, pair_of_getElem? held⟩

namespace Closed

variable (closed : h.Closed)
include closed

theorem head {r : Ref .pair} (has : h.Has (.pair r)) : h.Has (h.head r) := by
  obtain ⟨cell, held, head, -⟩ := exists_pair has
  exact head ▸ (closed.pairs r cell held).1

theorem tail {r : Ref .pair} (has : h.Has (.pair r)) : h.Has (h.tail r) := by
  obtain ⟨cell, held, -, tail⟩ := exists_pair has
  exact tail ▸ (closed.pairs r cell held).2

theorem constant {r : Ref .method} (has : h.Has (.callable (.method r))) {index : Nat} {v : Value}
    (found : (h.method r).constants[index]? = some v) : h.Has v := by
  have held : h.methods[r.index]? = some (h.method r) := by
    rw [method, Array.getD_eq_getD_getElem?, Array.getElem?_eq_getElem has]
    rfl
  exact closed.constants r _ held v (Array.mem_of_getElem? found)

theorem object (r : Ref .object) : ∀ entry ∈ (h.object r).slots.entries, h.Has entry.2 := by
  unfold Heap.object
  rw [Array.getD_eq_getD_getElem?]
  cases held : h.objects[r.index]? with
  | none => exact fun entry inside => nomatch inside
  | some o => exact closed.slots o (Array.mem_of_getElem? held)

theorem slot (r : Ref .object) (slot : String) :
    h.Has (((h.object r).slots.get? slot).getD .nil) := by
  cases found : (h.object r).slots.get? slot with
  | none => trivial
  | some v => exact closed.object r _ (OrderedMap.mem_of_get? found)

end Closed

namespace Mirrors

variable (mirrors : h.Mirrors ρ h')
include mirrors

theorem cell {r : Ref .pair} (has : h.Has (.pair r)) :
    h'.head (ρ.pair r) = (h.head r).rename ρ ∧ h'.tail (ρ.pair r) = (h.tail r).rename ρ := by
  obtain ⟨cell, held, head, tail⟩ := exists_pair has
  obtain ⟨cell', held', head', tail'⟩ := mirrors.pairs r cell held
  obtain ⟨head'', tail''⟩ := pair_of_getElem? held'
  rw [head, tail, head'', tail'']
  exact ⟨head', tail'⟩

theorem head {r : Ref .pair} (has : h.Has (.pair r)) :
    h'.head (ρ.pair r) = (h.head r).rename ρ :=
  (mirrors.cell has).1

theorem tail {r : Ref .pair} (has : h.Has (.pair r)) :
    h'.tail (ρ.pair r) = (h.tail r).rename ρ :=
  (mirrors.cell has).2

theorem stringText {r : Ref .string} (has : h.Has (.string r)) :
    h'.stringText (ρ.string r) = h.stringText r := by
  have held := Array.getElem?_eq_getElem has
  rw [stringText_of_getElem? held, stringText_of_getElem? (mirrors.strings r _ held)]

theorem primitive (r : Ref .primitive) : h'.primitive r = h.primitive r := by
  unfold Heap.primitive
  rw [mirrors.primitives]

theorem method {r : Ref .method} (has : h.Has (.callable (.method r))) :
    (h.method r).Mirrors ρ (h'.method r) := by
  have held := Array.getElem?_eq_getElem has
  obtain ⟨m', held', same⟩ := mirrors.methods r _ held
  unfold Heap.method
  rw [Array.getD_eq_getD_getElem?, Array.getD_eq_getD_getElem?, held, held']
  exact same

theorem classAt (c : Ref .classObject) : h'.classAt c = h.classAt c := by
  unfold Heap.classAt
  rw [mirrors.classes]

theorem object (r : Ref .object) : h'.object r = (h.object r).rename ρ := by
  unfold Heap.object
  rw [mirrors.objects, Array.getD_eq_getD_getElem?, Array.getD_eq_getD_getElem?,
    Array.getElem?_map]
  cases h.objects[r.index]? <;> rfl

/-- Different pairs are found at different places, so there are places enough. -/
theorem size_le : h.pairs.size ≤ h'.pairs.size := by
  have found (place : Fin h.pairs.size) : (ρ.pair ⟨place⟩).index < h'.pairs.size := by
    obtain ⟨cell', held', -⟩ := mirrors.pairs ⟨place⟩ _ (Array.getElem?_eq_getElem place.isLt)
    exact (Array.getElem?_eq_some_iff.1 held').1
  have different : Function.Injective fun place : Fin h.pairs.size =>
      (⟨(ρ.pair ⟨place⟩).index, found place⟩ : Fin h'.pairs.size) := by
    intro place place' same
    have same := ρ.pair_injective (Ref.eq_of_index (Fin.mk.inj same))
    exact Fin.ext (Ref.mk.inj same)
  simpa using Fintype.card_le_of_injective _ different

/-- Of what comes to be held, the other heap has as much more. -/
theorem size_le_of_carries (carries : Carries ρ h h' h₁ h₁') :
    h'.pairs.size ≤ h₁'.pairs.size ∧ h'.strings.size ≤ h₁'.strings.size := by
  obtain ⟨pairs, morePairs⟩ := Nat.exists_eq_add_of_le carries.widens.pairs
  obtain ⟨strings, moreStrings⟩ := Nat.exists_eq_add_of_le carries.widens.strings
  have pairEnd := (mirrors.nextPair pairs).symm.trans (morePairs ▸ carries.mirrors.nextPair 0)
  have stringEnd :=
    (mirrors.nextString strings).symm.trans (moreStrings ▸ carries.mirrors.nextString 0)
  have pairEnd := congrArg Ref.index pairEnd
  have stringEnd := congrArg Ref.index stringEnd
  simp only at pairEnd stringEnd
  omega

theorem has_rename (has : h.Has v) : h'.Has (v.rename ρ) := by
  cases v with
  | pair r =>
    obtain ⟨cell, held, -⟩ := exists_pair has
    obtain ⟨cell', held', -⟩ := mirrors.pairs r cell held
    exact (Array.getElem?_eq_some_iff.1 held').1
  | string r =>
    have held := mirrors.strings r _ (Array.getElem?_eq_getElem has)
    exact (Array.getElem?_eq_some_iff.1 held).1
  | callable c =>
    cases c with
    | primitive p => trivial
    | method r =>
      obtain ⟨m', held, -⟩ := mirrors.methods r _ (Array.getElem?_eq_getElem has)
      exact (Array.getElem?_eq_some_iff.1 held).1
  | _ => trivial

end Mirrors

/-! ## Changing -/

/-- Where only pairs and strings are others, only the pairs need be looked at. -/
theorem Closed.of_pairs {pairs : Array Pair} {strings : Array String} (closed : h.Closed)
    (widens : h.Widens { h with pairs := pairs, strings := strings })
    (held : ∀ (r : Ref .pair) cell, pairs[r.index]? = some cell →
      Has { h with pairs := pairs, strings := strings } cell.head ∧
        Has { h with pairs := pairs, strings := strings } cell.tail) :
    Closed { h with pairs := pairs, strings := strings } where
  pairs := held
  constants r m held v member := (closed.constants r m held v member).mono widens
  handlers c selector callable member := (closed.handlers c selector callable member).mono widens
  slots o member entry inside := (closed.slots o member entry inside).mono widens

theorem widens_allocPair (h : Heap) (p : Pair) : h.Widens (h.allocPair p).1 where
  pairs := by
    simp only [Heap.allocPair, Array.size_push]
    exact Nat.le_succ _
  strings := le_rfl
  methods := le_rfl
  primitives := rfl

theorem widens_allocString (h : Heap) (text : String) : h.Widens (h.allocString text).1 where
  pairs := le_rfl
  strings := by
    simp only [Heap.allocString, Array.size_push]
    exact Nat.le_succ _
  methods := le_rfl
  primitives := rfl

theorem widens_allocMethod (h : Heap) (m : Method) : h.Widens (h.allocMethod m).1 where
  pairs := le_rfl
  strings := le_rfl
  methods := by
    simp only [Heap.allocMethod, Array.size_push]
    exact Nat.le_succ _
  primitives := rfl

theorem has_allocPair (h : Heap) (p : Pair) : (h.allocPair p).1.Has (.pair (h.allocPair p).2) :=
  Nat.lt_of_lt_of_eq (Nat.lt_succ_self _) (Array.size_push p).symm

theorem has_allocString (h : Heap) (text : String) :
    (h.allocString text).1.Has (h.allocString text).2 :=
  Nat.lt_of_lt_of_eq (Nat.lt_succ_self _) (Array.size_push text).symm

theorem has_allocMethod (h : Heap) (m : Method) :
    (h.allocMethod m).1.Has (.callable (.method (h.allocMethod m).2)) :=
  Nat.lt_of_lt_of_eq (Nat.lt_succ_self _) (Array.size_push m).symm

theorem widens_setPair (h : Heap) (r : Ref .pair) (p : Pair) : h.Widens (h.setPair r p) where
  pairs := by simp only [Heap.setPair, Array.size_setIfInBounds, le_refl]
  strings := le_rfl
  methods := le_rfl
  primitives := rfl

namespace Mirrors

variable (mirrors : h.Mirrors ρ h')
include mirrors

/-- The places of what is allocated next are places in between to nobody. -/
theorem pair_size : ρ.pair ⟨h.pairs.size⟩ = ⟨h'.pairs.size⟩ :=
  mirrors.nextPair 0

theorem allocPair {p p' : Pair} (head : h.Has p.head) (tail : h.Has p.tail)
    (heads : p'.head = p.head.rename ρ) (tails : p'.tail = p.tail.rename ρ) :
    Carries ρ h h' (h.allocPair p).1 (h'.allocPair p').1 where
  mirrors :=
    { mirrors with
      closed := by
        refine mirrors.closed.of_pairs (h.widens_allocPair p) fun r cell held => ?_
        rw [Array.getElem?_push] at held
        split at held
        · cases held
          exact ⟨head.mono (h.widens_allocPair p), tail.mono (h.widens_allocPair p)⟩
        · obtain ⟨head, tail⟩ := mirrors.closed.pairs r cell held
          exact ⟨head.mono (h.widens_allocPair p), tail.mono (h.widens_allocPair p)⟩
      pairs := by
        intro r cell held
        have held : (h.pairs.push p)[r.index]? = some cell := held
        rw [Array.getElem?_push] at held
        split at held
        next last =>
          cases held
          obtain rfl : r = ⟨h.pairs.size⟩ := congrArg Ref.mk last
          rw [mirrors.pair_size]
          exact ⟨p', Array.getElem?_push_size, heads, tails⟩
        next earlier =>
          obtain ⟨cell', held', same⟩ := mirrors.pairs r cell held
          exact ⟨cell', getElem?_push_of_some p' held', same⟩
      nextPair := by
        intro more
        have next := mirrors.nextPair (more + 1)
        simp only [Heap.allocPair, Array.size_push]
        rw [Nat.add_right_comm, Nat.add_assoc, next, Nat.add_right_comm, Nat.add_assoc] }
  widens := h.widens_allocPair p
  spares := ⟨fun _ _ held _ => getElem?_push_of_some p' held, fun _ _ held => held, rfl⟩

/-- A fresh pair is found where the other heap has its fresh pair. -/
theorem cons {w : Value} (head : h.Has v) (tail : h.Has w) :
    Carries ρ h h' (h.cons v w).1 (h'.cons (v.rename ρ) (w.rename ρ)).1 ∧
      (h'.cons (v.rename ρ) (w.rename ρ)).2 = ρ.pair (h.cons v w).2 ∧
      (h.cons v w).1.Has (.pair (h.cons v w).2) :=
  ⟨mirrors.allocPair head tail rfl rfl, mirrors.pair_size.symm, h.has_allocPair _⟩

theorem value_allocString (text : String) :
    (h.allocString text).2.rename ρ = (h'.allocString text).2 :=
  congrArg Value.string (mirrors.nextString 0)

theorem allocString (text : String) :
    Carries ρ h h' (h.allocString text).1 (h'.allocString text).1 where
  mirrors :=
    { mirrors with
      closed := by
        refine mirrors.closed.of_pairs (h.widens_allocString text) fun r cell held => ?_
        obtain ⟨head, tail⟩ := mirrors.closed.pairs r cell held
        exact ⟨head.mono (h.widens_allocString text), tail.mono (h.widens_allocString text)⟩
      strings := by
        intro r other held
        have held : (h.strings.push text)[r.index]? = some other := held
        rw [Array.getElem?_push] at held
        split at held
        next last =>
          cases held
          obtain rfl : r = ⟨h.strings.size⟩ := congrArg Ref.mk last
          rw [show ρ.string ⟨h.strings.size⟩ = ⟨h'.strings.size⟩ from mirrors.nextString 0]
          exact Array.getElem?_push_size
        next earlier => exact getElem?_push_of_some text (mirrors.strings r other held)
      nextString := by
        intro more
        have next := mirrors.nextString (more + 1)
        simp only [Heap.allocString, Array.size_push]
        rw [Nat.add_right_comm, Nat.add_assoc, next, Nat.add_right_comm, Nat.add_assoc] }
  widens := h.widens_allocString text
  spares := ⟨fun _ _ held _ => held, fun _ _ held => getElem?_push_of_some text held, rfl⟩

theorem setPair {r : Ref .pair} {p p' : Pair} (head : h.Has p.head)
    (tail : h.Has p.tail) (heads : p'.head = p.head.rename ρ)
    (tails : p'.tail = p.tail.rename ρ) :
    Carries ρ h h' (h.setPair r p) (h'.setPair (ρ.pair r) p') where
  mirrors :=
    { mirrors with
      closed := by
        refine mirrors.closed.of_pairs (h.widens_setPair r p) fun s cell held => ?_
        rw [Array.getElem?_setIfInBounds] at held
        split at held
        · split at held
          · cases held
            exact ⟨head.mono (h.widens_setPair r p), tail.mono (h.widens_setPair r p)⟩
          · cases held
        · obtain ⟨head, tail⟩ := mirrors.closed.pairs s cell held
          exact ⟨head.mono (h.widens_setPair r p), tail.mono (h.widens_setPair r p)⟩
      pairs := by
        intro s cell found
        have held : (h.pairs.setIfInBounds r.index p)[s.index]? = some cell := found
        clear found
        show ∃ cell', (h'.pairs.setIfInBounds (ρ.pair r).index p')[(ρ.pair s).index]? = _ ∧ _
        rw [Array.getElem?_setIfInBounds] at held ⊢
        split at held
        next same =>
          obtain rfl : r = s := Ref.eq_of_index same
          split at held
          next inside =>
            cases held
            obtain ⟨cell', held', -⟩ := mirrors.pairs r _ (Array.getElem?_eq_getElem inside)
            rw [if_pos rfl, if_pos (Array.getElem?_eq_some_iff.1 held').1]
            exact ⟨p', rfl, heads, tails⟩
          next => cases held
        next other =>
          have apart : (ρ.pair r).index ≠ (ρ.pair s).index := fun same =>
            other (congrArg Ref.index (ρ.pair_injective (Ref.eq_of_index same)))
          rw [if_neg apart]
          exact mirrors.pairs s cell held
      nextPair := by
        intro more
        simp only [Heap.setPair, Array.size_setIfInBounds]
        exact mirrors.nextPair more }
  widens := h.widens_setPair r p
  spares := by
    refine ⟨fun place cell held outside => ?_, fun _ _ held => held, rfl⟩
    show (h'.pairs.setIfInBounds (ρ.pair r).index p')[place]? = _
    rw [Array.getElem?_setIfInBounds, if_neg (outside r)]
    exact held

theorem setHead {r : Ref .pair} (has : h.Has (.pair r)) (value : h.Has v) :
    Carries ρ h h' (h.setHead r v) (h'.setHead (ρ.pair r) (v.rename ρ)) :=
  mirrors.setPair value (mirrors.closed.tail has) rfl (mirrors.tail has)

theorem setTail {r : Ref .pair} (has : h.Has (.pair r)) (value : h.Has v) :
    Carries ρ h h' (h.setTail r v) (h'.setTail (ρ.pair r) (v.rename ρ)) :=
  mirrors.setPair (mirrors.closed.head has) value (mirrors.head has) rfl

theorem allocObject {o : Object} (empty : o.slots = .empty) :
    Carries ρ h h' (h.allocObject o).1 (h'.allocObject o).1 where
  mirrors :=
    { mirrors with
      closed :=
        { mirrors.closed with
          slots := by
            intro o' member entry inside
            rcases Array.mem_push.1 member with before | rfl
            · exact mirrors.closed.slots o' before entry inside
            · rw [empty] at inside
              cases inside }
      objects := by
        have blank : o.rename ρ = o := by
          cases o
          cases empty
          rfl
        simp only [Heap.allocObject, mirrors.objects, Array.map_push, blank] }
  widens := ⟨le_rfl, le_rfl, le_rfl, rfl⟩
  spares := ⟨fun _ _ held _ => held, fun _ _ held => held, rfl⟩

theorem setSlot (r : Ref .object) (slot : String) (value : h.Has v) :
    Carries ρ h h' (h.setSlot r slot v) (h'.setSlot r slot (v.rename ρ)) where
  mirrors :=
    { mirrors with
      closed :=
        { mirrors.closed with
          slots := by
            intro o member entry inside
            rcases Array.mem_or_eq_of_mem_setIfInBounds member with before | rfl
            · exact mirrors.closed.slots o before entry inside
            · rcases OrderedMap.mem_insert inside with rfl | before
              · exact value
              · exact mirrors.closed.object r entry before }
      objects := by
        have made : ({ h'.object r with slots := (h'.object r).slots.insert slot (v.rename ρ) } :
            Object) =
            ({ h.object r with slots := (h.object r).slots.insert slot v } : Object).rename ρ := by
          rw [mirrors.object]
          simp only [Object.rename, OrderedMap.insert_mapValues]
        simp only [Heap.setSlot, made, mirrors.objects, Array.map_setIfInBounds] }
  widens := ⟨le_rfl, le_rfl, le_rfl, rfl⟩
  spares := ⟨fun _ _ held _ => held, fun _ _ held => held, rfl⟩

theorem install (c : Ref .classObject) (selector : String) {callable : Callable}
    (has : h.Has (.callable callable)) :
    Carries ρ h h' (h.install c selector callable) (h'.install c selector callable) where
  mirrors :=
    { mirrors with
      closed :=
        { mirrors.closed with
          handlers := by
            intro d other handler member
            by_cases held : c.index < h.classes.size
            · rw [handlersOn_install h c d selector other callable held] at member
              split at member
              · rcases List.mem_cons.1 member with rfl | older
                · exact has
                · exact mirrors.closed.handlers d other handler older
              · exact mirrors.closed.handlers d other handler member
            · have same : (h.install c selector callable).classAt d = h.classAt d := by
                rw [classAt_install, if_neg fun both => held both.2]
              unfold Heap.handlersOn at member
              rw [same] at member
              exact mirrors.closed.handlers d other handler member }
      classes := by
        unfold Heap.install Heap.setClass
        simp only [mirrors.classAt, mirrors.classes] }
  widens := ⟨le_rfl, le_rfl, le_rfl, rfl⟩
  spares := ⟨fun _ _ held _ => held, fun _ _ held => held, rfl⟩

theorem allocClass {c : Class} (empty : c.handlers = .empty) :
    Carries ρ h h' (h.allocClass c).1 (h'.allocClass c).1 where
  mirrors :=
    { mirrors with
      closed :=
        { mirrors.closed with
          handlers := by
            intro d selector handler member
            unfold Heap.handlersOn at member
            rw [classAt_allocClass] at member
            split at member
            · rw [empty, OrderedMap.get?_empty] at member
              cases member
            · exact mirrors.closed.handlers d selector handler member }
      classes := by
        simp only [Heap.allocClass, mirrors.classes] }
  widens := ⟨le_rfl, le_rfl, le_rfl, rfl⟩
  spares := ⟨fun _ _ held _ => held, fun _ _ held => held, rfl⟩

end Mirrors

end Heap

end MessageMachine
