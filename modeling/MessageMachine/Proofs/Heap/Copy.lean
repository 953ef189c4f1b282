/-
# One datum stored in two heaps

Storing looks at nothing that a heap holds. So a datum that is stored in an empty heap shows
what storing it adds to any other: the same pairs and strings, further on by as much as the other
heap held before. Two heaps in which one datum was stored therefore hold copies of one block, and
a renaming between them can be changed for one that leads from the one copy to the other, provided
that nothing was found at the place of the second copy so far.

`Copies` says of one value that another heap holds a copy of it, which is all that a compiler
needs to know. `exists_storesCopy` says that a datum has one where it was stored before, and
that the heap is mirrored there again by the renaming that leads to the copy.
-/

import MessageMachine.Proofs.Heap.Acyclic
import MessageMachine.Proofs.Heap.Renaming

namespace MessageMachine

open Reader (Datum Place)

namespace Heap

variable {ρ : Renaming} {h h' : Heap} {file file' : String} {d d' : Datum}

/-! ## Storing in mirrored heaps -/

/-- What came of storing the same in two heaps. -/
structure StoresAlike (ρ : Renaming) (h h' : Heap) (out out' : Heap × Value) : Prop where
  carries : Carries ρ h h' out.1 out'.1
  value : out'.2 = out.2.rename ρ
  has : out.1.Has out.2

/-- Heads that wait for a tail have the same values at the renamed places. -/
def HeadsMirror (ρ : Renaming) (h : Heap) (before before' : List (Value × Option Place)) : Prop :=
  List.Forall₂ (fun entry entry' => h.Has entry.1 ∧ entry'.1 = entry.1.rename ρ) before before'

theorem HeadsMirror.mono {before before' : List (Value × Option Place)}
    (heads : HeadsMirror ρ h before before') (widens : h.Widens h') :
    HeadsMirror ρ h' before before' :=
  heads.imp fun _ _ entry => ⟨entry.1.mono widens, entry.2⟩

theorem storePairs_mirrored {before before' : List (Value × Option Place)}
    (heads : HeadsMirror ρ h before before') (mirrors : h.Mirrors ρ h') {tail : Value}
    (has : h.Has tail) : StoresAlike ρ h h' (h.storePairs file tail before)
      (h'.storePairs file' (tail.rename ρ) before') := by
  induction before generalizing h h' tail before' with
  | nil =>
    cases heads
    exact ⟨.refl mirrors, rfl, has⟩
  | cons entry before ih =>
    obtain ⟨⟨head', source'⟩, before', ⟨headHas, rfl⟩, others, rfl⟩ :=
      List.forall₂_cons_left_iff.1 heads
    obtain ⟨head, source⟩ := entry
    have first : Carries ρ h h' (h.allocPair ⟨head, tail, source.map (·.inFile file)⟩).1
        (h'.allocPair ⟨head.rename ρ, tail.rename ρ, source'.map (·.inFile file')⟩).1 :=
      mirrors.allocPair headHas has rfl rfl
    have place : ρ.pair ⟨h.pairs.size⟩ = ⟨h'.pairs.size⟩ := mirrors.pair_size
    have rest : StoresAlike ρ _ _ ((h.allocPair _).1.storePairs file (.pair ⟨_⟩) before)
        ((h'.allocPair _).1.storePairs file' (.pair (ρ.pair ⟨_⟩)) before') :=
      ih (HeadsMirror.mono others first.widens) first.mirrors (h.has_allocPair _)
    rw [place] at rest
    exact ⟨first.trans rest.carries, rest.value, rest.has⟩

theorem storeBehind_mirrored {before before' : List (Value × Option Place)}
    (heads : HeadsMirror ρ h before before') (mirrors : h.Mirrors ρ h') (same : d.bare = d'.bare) :
    StoresAlike ρ h h' (h.storeBehind file before d) (h'.storeBehind file' before' d') := by
  induction d generalizing h h' before before' d' with
  | pair source head tail ihHead ihTail =>
    cases d' with
    | pair source' head' tail' =>
      obtain ⟨-, heads_, tails⟩ := Datum.pair.inj same
      have first := ihHead .nil mirrors heads_
      have ready : HeadsMirror ρ (h.storeBehind file [] head).1
          (((h.storeBehind file [] head).2, source) :: before)
          (((h'.storeBehind file' [] head').2, source') :: before') :=
        .cons ⟨first.has, first.value⟩ (heads.mono first.carries.widens)
      have second := ihTail ready first.carries.mirrors tails
      exact ⟨first.carries.trans second.carries, second.value, second.has⟩
    | _ => cases same
  | string text =>
    cases d' with
    | string text' =>
      cases same
      have first := mirrors.allocString text
      have rest : StoresAlike ρ _ _ ((h.allocString text).1.storePairs file _ before)
          ((h'.allocString text).1.storePairs file' _ before') :=
        storePairs_mirrored (heads.mono first.widens) first.mirrors (h.has_allocString text)
      rw [mirrors.value_allocString] at rest
      exact ⟨first.trans rest.carries, rest.value, rest.has⟩
    | _ => cases same
  | nil | boolean _ | integer _ | char _ | symbol _ =>
    cases d' <;> cases same
    exact storePairs_mirrored heads mirrors trivial

theorem store_mirrored (mirrors : h.Mirrors ρ h') (same : d.bare = d'.bare) :
    StoresAlike ρ h h' (h.store file d) (h'.store file' d') :=
  storeBehind_mirrored .nil mirrors same

/-! ## Blocks -/

/-- The heap with the pairs and the strings of another. -/
def withData (h k : Heap) : Heap :=
  { h with pairs := k.pairs, strings := k.strings }

theorem storePairs_withData (h k : Heap) (file : String) (tail : Value)
    (before : List (Value × Option Place)) :
    (h.withData k).storePairs file tail before =
      Prod.map h.withData id (k.storePairs file tail before) := by
  induction before generalizing k tail with
  | nil => rfl
  | cons entry before ih =>
    obtain ⟨head, source⟩ := entry
    exact ih (k.allocPair ⟨head, tail, source.map (·.inFile file)⟩).1 _

theorem storeBehind_withData (h k : Heap) (file : String) (before : List (Value × Option Place))
    (d : Datum) : (h.withData k).storeBehind file before d =
      Prod.map h.withData id (k.storeBehind file before d) := by
  induction d generalizing k before with
  | pair source head tail ihHead ihTail =>
    unfold storeBehind
    rw [ihHead]
    exact ihTail _ _
  | string text =>
    exact storePairs_withData h (k.allocString text).1 file _ before
  | nil | boolean b | integer n | char c | symbol name =>
    exact storePairs_withData h k file _ before

/-- Storing changes pairs and strings and looks at nothing else. -/
theorem store_withData (h k : Heap) (file : String) (d : Datum) :
    (h.withData k).store file d = Prod.map h.withData id (k.store file d) :=
  storeBehind_withData h k file [] d

/-- What storing a datum adds. -/
def block (d : Datum) : Heap × Value :=
  empty.store "" d

end Heap

/-- Everything is found as far behind what a heap holds. -/
def Renaming.behind (h : Heap) : Renaming where
  pair r := ⟨h.pairs.size + r.index⟩
  string r := ⟨h.strings.size + r.index⟩
  pair_injective _ _ same := Ref.eq_of_index (Nat.add_left_cancel (Ref.mk.inj same))
  string_injective _ _ same := Ref.eq_of_index (Nat.add_left_cancel (Ref.mk.inj same))

namespace Heap

variable {ρ : Renaming} {h w u limit : Heap} {file : String} {d d' : Datum}

theorem mirrors_empty (h : Heap) : empty.Mirrors (.behind h) (empty.withData h) where
  closed :=
    { pairs := fun r cell held => by cases held
      constants := fun r m held => by cases held
      handlers := fun c selector callable member => by cases member
      slots := fun o member => absurd member (Array.not_mem_empty o) }
  pairs r cell held := by cases held
  strings r text held := by cases held
  methods r m held := by cases held
  primitives := rfl
  classes := rfl
  objects := Array.map_empty.symm
  nextPair more := congrArg (fun n => Ref.mk (h.pairs.size + n)) (Nat.zero_add more)
  nextString more := congrArg (fun n => Ref.mk (h.strings.size + n)) (Nat.zero_add more)

theorem block_mirrored (h : Heap) (file : String) (same : d.bare = d'.bare) :
    (block d).1.Mirrors (.behind h) (empty.withData (h.store file d').1) ∧
      (h.store file d').2 = (block d).2.rename (.behind h) ∧ (block d).1.Has (block d).2 := by
  have stored : StoresAlike (.behind h) empty (empty.withData h) (empty.store "" d)
      ((empty.withData h).store file d') := store_mirrored (mirrors_empty h) same
  rw [store_withData] at stored
  exact ⟨stored.carries.mirrors, stored.value, stored.has⟩

end Heap

/-! ## Another renaming -/

/-- What is held is found where it was, a block behind it at a given place, and all else from
some place on. -/
def splice {kind : Record} (f : Ref kind → Ref kind) (held size place top : Nat) (r : Ref kind) :
    Ref kind :=
  if r.index < held then f r
  else if r.index < held + size then ⟨place + (r.index - held)⟩
  else ⟨top + (r.index - (held + size))⟩

section

variable {kind : Record} {f : Ref kind → Ref kind} {held size place top : Nat}

theorem splice_injective (injective : Function.Injective f)
    (inside : ∀ r : Ref kind, r.index < held → (f r).index < top)
    (avoids : ∀ r : Ref kind, r.index < held → (f r).index < place ∨ place + size ≤ (f r).index)
    (room : place + size ≤ top) : Function.Injective (splice f held size place top) := by
  intro r s same
  have first := inside r
  have second := inside s
  have firstAvoids := avoids r
  have secondAvoids := avoids s
  have index := congrArg Ref.index same
  by_cases both : r.index < held ∧ s.index < held
  · rw [splice, splice, if_pos both.1, if_pos both.2] at same
    exact injective same
  · -- The three stretches lie apart, and two of them are moved as a whole.
    refine Ref.eq_of_index ?_
    unfold splice at index
    grind

end

/-- Nothing is found from where the first heap ends to where the second does. -/
structure Renaming.Avoids (ρ : Renaming) (w limit : Heap) : Prop where
  pair : ∀ r, (ρ.pair r).index < w.pairs.size ∨ limit.pairs.size ≤ (ρ.pair r).index
  string : ∀ r, (ρ.string r).index < w.strings.size ∨ limit.strings.size ≤ (ρ.string r).index

/-- The second renaming leads from what a heap holds to where the first does, and from a block
behind that to the same block behind another. -/
structure Renaming.Splices (ρ ρ' : Renaming) (h w u b : Heap) : Prop where
  agrees : ∀ v, h.Has v → v.rename ρ' = v.rename ρ
  block : ∀ v, b.Has v → (v.rename (.behind h)).rename ρ' = v.rename (.behind w)
  nextPair : ∀ more, ρ'.pair ⟨h.pairs.size + b.pairs.size + more⟩ = ⟨u.pairs.size + more⟩
  nextString : ∀ more, ρ'.string ⟨h.strings.size + b.strings.size + more⟩ = ⟨u.strings.size + more⟩

namespace Renaming

open Heap

variable {ρ ρ' : Renaming} {h w u b limit : Heap}

/-- Where there is room, the block is found at its new place. -/
theorem exists_splices (inside : ∀ v, h.Has v → u.Has (v.rename ρ))
    (pairAvoids : ∀ r : Ref .pair, r.index < h.pairs.size →
      (ρ.pair r).index < w.pairs.size ∨ limit.pairs.size ≤ (ρ.pair r).index)
    (stringAvoids : ∀ r : Ref .string, r.index < h.strings.size →
      (ρ.string r).index < w.strings.size ∨ limit.strings.size ≤ (ρ.string r).index)
    (pairs : w.pairs.size + b.pairs.size ≤ limit.pairs.size)
    (strings : w.strings.size + b.strings.size ≤ limit.strings.size)
    (pairRoom : limit.pairs.size ≤ u.pairs.size)
    (stringRoom : limit.strings.size ≤ u.strings.size) :
    ∃ ρ', ρ.Splices ρ' h w u b ∧
      ∀ w' : Heap, w'.pairs.size = w.pairs.size + b.pairs.size →
        w'.strings.size = w.strings.size + b.strings.size → ρ'.Avoids w' limit := by
  have pairInside (r : Ref .pair) (held : r.index < h.pairs.size) :
      (ρ.pair r).index < u.pairs.size := inside (.pair r) held
  have stringInside (r : Ref .string) (held : r.index < h.strings.size) :
      (ρ.string r).index < u.strings.size := inside (.string r) held
  let ρ' : Renaming :=
    { pair := splice ρ.pair h.pairs.size b.pairs.size w.pairs.size u.pairs.size
      string := splice ρ.string h.strings.size b.strings.size w.strings.size u.strings.size
      pair_injective := splice_injective ρ.pair_injective pairInside
        (fun r held => (pairAvoids r held).imp_right pairs.trans) (pairs.trans pairRoom)
      string_injective := splice_injective ρ.string_injective stringInside
        (fun r held => (stringAvoids r held).imp_right strings.trans) (strings.trans stringRoom) }
  refine ⟨ρ', ⟨?_, ?_, ?_, ?_⟩, ?_⟩
  case refine_1 =>
    intro v has
    cases v with
    | pair r => exact congrArg Value.pair (if_pos has)
    | string r => exact congrArg Value.string (if_pos has)
    | _ => rfl
  case refine_2 =>
    intro v has
    cases v with
    | pair r =>
      have small : r.index < b.pairs.size := has
      refine congrArg Value.pair (Ref.eq_of_index ?_)
      simp only [ρ', splice, behind]
      grind
    | string r =>
      have small : r.index < b.strings.size := has
      refine congrArg Value.string (Ref.eq_of_index ?_)
      simp only [ρ', splice, behind]
      grind
    | _ => rfl
  case refine_3 =>
    intro more
    refine Ref.eq_of_index ?_
    simp only [ρ', splice]
    grind
  case refine_4 =>
    intro more
    refine Ref.eq_of_index ?_
    simp only [ρ', splice]
    grind
  case refine_5 =>
    intro w' pairSize stringSize
    refine ⟨fun r => ?_, fun r => ?_⟩
    · have before := pairAvoids r
      simp only [ρ', splice]
      grind
    · have before := stringAvoids r
      simp only [ρ', splice]
      grind

end Renaming

/-! ## Copies -/

namespace Heap

/-- A value without a cycle of which another heap holds a copy, at the renamed places. -/
inductive Copies (ρ : Renaming) (h k : Heap) : Value → Prop
  | atom {v : Value} : v.asPair? = none → h.Has v → Copies ρ h k v
  | pair {r : Ref .pair} {cell cell' : Pair} : h.pairs[r.index]? = some cell →
      k.pairs[(ρ.pair r).index]? = some cell' → cell'.head = cell.head.rename ρ →
      cell'.tail = cell.tail.rename ρ → Copies ρ h k cell.head → Copies ρ h k cell.tail →
      Copies ρ h k (.pair r)

variable {ρ ρ' : Renaming} {h hs w ws u b k : Heap} {v : Value}

theorem Copies.acyclic (copies : Copies ρ h k v) : h.Acyclic v := by
  induction copies with
  | atom apart _ => exact .atom apart
  | pair held _ _ _ _ _ head tail => exact .pair held head tail

theorem Copies.acyclic_rename (copies : Copies ρ h k v) : k.Acyclic (v.rename ρ) := by
  induction copies with
  | atom apart _ => exact .atom (by rw [Value.asPair?_rename, apart]; rfl)
  | pair _ held heads tails _ _ head tail => exact .pair held (heads ▸ head) (tails ▸ tail)

theorem Copies.has (copies : Copies ρ h k v) : h.Has v := by
  cases copies with
  | atom _ has => exact has
  | pair held _ _ _ _ _ => exact (Array.getElem?_eq_some_iff.1 held).1

theorem Unfolds.acyclic {notes : Option Place → Option Location → Prop} {d : Datum}
    (unfolds : h.Unfolds notes v d) : h.Acyclic v := by
  induction unfolds with
  | pair held _ _ _ head tail => exact .pair held head tail
  | _ => exact .atom rfl

theorem Unfolds.has {notes : Option Place → Option Location → Prop} {d : Datum}
    (unfolds : h.Unfolds notes v d) : h.Has v := by
  cases unfolds with
  | pair held _ _ _ => exact (Array.getElem?_eq_some_iff.1 held).1
  | string held => exact (Array.getElem?_eq_some_iff.1 held).1
  | _ => trivial

/-- What has no cycle is a copy of itself. -/
theorem Acyclic.copies (acyclic : h.Acyclic v) (closed : h.Closed) (has : h.Has v) :
    Copies .id h h v := by
  induction acyclic with
  | atom apart => exact .atom apart has
  | @pair r cell held _ _ head tail =>
    obtain ⟨headHas, tailHas⟩ := closed.pairs r cell held
    exact .pair held held (cell.head.rename_id).symm (cell.tail.rename_id).symm (head headHas)
      (tail tailHas)

theorem has_of_withData (has : (empty.withData h).Has v) : h.Has v := by
  cases v with
  | callable c =>
    cases c with
    | primitive r => trivial
    | method r => exact absurd has (Nat.not_lt_zero _)
  | _ => exact has

/-- Of a block that was stored in two heaps, the one holds a copy of what is in the other. -/
theorem copies_of_splices (splices : ρ.Splices ρ' h w u b)
    (first : b.Mirrors (.behind h) (empty.withData hs))
    (second : b.Mirrors (.behind w) (empty.withData ws)) (keeps : ws.Keeps k)
    (acyclic : b.Acyclic v) (has : b.Has v) : Copies ρ' hs k (v.rename (.behind h)) := by
  induction acyclic with
  | @atom v apart =>
    refine .atom ?_ (has_of_withData (first.has_rename has))
    rw [Value.asPair?_rename, apart]
    rfl
  | @pair r cell held _ _ head tail =>
    obtain ⟨headHas, tailHas⟩ := first.closed.pairs r cell held
    obtain ⟨cell₁, held₁, heads₁, tails₁⟩ := first.pairs r cell held
    obtain ⟨cell₂, held₂, heads₂, tails₂⟩ := second.pairs r cell held
    have place := Value.pair.inj (splices.block (.pair r) has)
    refine .pair held₁ (place ▸ keeps.pairs held₂) ?_ ?_ (heads₁ ▸ head headHas)
      (tails₁ ▸ tail tailHas)
    · rw [heads₂, heads₁, splices.block _ headHas]
    · rw [tails₂, tails₁, splices.block _ tailHas]

/-! ## Heaps that have been added to -/

/-- Nothing has been changed, and nothing but pairs, strings and methods has been added. -/
structure Extends (h h' : Heap) : Prop where
  keeps : h.Keeps h'
  methods : ∀ {place : Nat} {m : Method}, h.methods[place]? = some m →
    h'.methods[place]? = some m
  primitives : h'.primitives = h.primitives
  classes : h'.classes = h.classes
  objects : h'.objects = h.objects

theorem size_le_of_kept {α : Type} {xs ys : Array α}
    (kept : ∀ {place : Nat} {x : α}, xs[place]? = some x → ys[place]? = some x) :
    xs.size ≤ ys.size := by
  by_contra fewer
  have last := kept (Array.getElem?_eq_getElem (Nat.lt_of_not_le fewer))
  rw [Array.getElem?_eq_none le_rfl] at last
  cases last

namespace Extends

variable {h h₁ h₂ : Heap}

theorem refl (h : Heap) : h.Extends h :=
  ⟨.refl h, id, rfl, rfl, rfl⟩

theorem trans (first : h.Extends h₁) (second : h₁.Extends h₂) : h.Extends h₂ where
  keeps := first.keeps.trans second.keeps
  methods held := second.methods (first.methods held)
  primitives := second.primitives.trans first.primitives
  classes := second.classes.trans first.classes
  objects := second.objects.trans first.objects

theorem widens (extends_ : h.Extends h₁) : h.Widens h₁ where
  pairs := size_le_of_kept extends_.keeps.pairs
  strings := size_le_of_kept extends_.keeps.strings
  methods := size_le_of_kept extends_.methods
  primitives := extends_.primitives

/-- What is held is found where it was. -/
theorem foundIn (extends_ : h.Extends h₁) (closed : h.Closed) : h.FoundIn .id h₁ :=
  have mirrors := closed.mirrors_self
  { closed := closed
    pairs := fun r cell held =>
      ⟨cell, extends_.keeps.pairs held, cell.head.rename_id.symm, cell.tail.rename_id.symm⟩
    strings := fun r text held => extends_.keeps.strings held
    methods := fun r m held => by
      obtain ⟨m', held', alike⟩ := mirrors.methods r m held
      exact ⟨m', extends_.methods held', alike⟩
    primitives := extends_.primitives
    classes := extends_.classes
    objects := extends_.objects.trans mirrors.objects }

end Extends

/-- Storing adds pairs and strings. -/
theorem store_eq_withData (h : Heap) (file : String) (d : Datum) :
    (h.store file d).1 = h.withData (h.store file d).1 :=
  congrArg Prod.fst (h.store_withData h file d)

theorem extends_store (h : Heap) (file : String) (d : Datum) : h.Extends (h.store file d).1 := by
  have keeps := (h.adds_store file d).1
  have same := h.store_eq_withData file d
  generalize (h.store file d).1 = stored at keeps same
  rw [same]
  exact ⟨⟨keeps.pairs, keeps.strings⟩, id, rfl, rfl, rfl⟩

/-! ## Heaps with copies -/

/-- At the places behind what a first heap holds, a third holds what a second does. -/
structure HoldsBehind (w ws u : Heap) : Prop where
  pairs : ∀ {place : Nat} {cell : Pair}, w.pairs.size ≤ place → ws.pairs[place]? = some cell →
    u.pairs[place]? = some cell
  strings : ∀ {place : Nat} {text : String}, w.strings.size ≤ place →
    ws.strings[place]? = some text → u.strings[place]? = some text

theorem sizes_of_mirrors_behind (first : b.Mirrors (.behind h) (empty.withData hs)) :
    hs.pairs.size = h.pairs.size + b.pairs.size ∧
      hs.strings.size = h.strings.size + b.strings.size :=
  ⟨(congrArg Ref.index (first.nextPair 0)).symm, (congrArg Ref.index (first.nextString 0)).symm⟩

/-- A heap in which a datum was stored is mirrored by one that holds a copy of it already. -/
theorem mirrors_of_splices (splices : ρ.Splices ρ' h w u b) (found : h.FoundIn ρ u)
    (first : b.Mirrors (.behind h) (empty.withData hs))
    (second : b.Mirrors (.behind w) (empty.withData ws)) (same : hs = h.withData hs)
    (keeps : h.Keeps hs) (closed : hs.Closed) (pending : w.HoldsBehind ws u) :
    hs.Mirrors ρ' u := by
  obtain ⟨pairSize, stringSize⟩ := sizes_of_mirrors_behind first
  have methods : hs.methods = (h.withData hs).methods := congrArg Heap.methods same
  have objects : hs.objects = (h.withData hs).objects := congrArg Heap.objects same
  have primitives : hs.primitives = (h.withData hs).primitives := congrArg Heap.primitives same
  have classes : hs.classes = (h.withData hs).classes := congrArg Heap.classes same
  refine
    { closed := closed
      pairs := ?_
      strings := ?_
      methods := ?_
      primitives := found.primitives.trans primitives.symm
      classes := found.classes.trans classes.symm
      objects := ?_
      nextPair := fun more => pairSize ▸ splices.nextPair more
      nextString := fun more => stringSize ▸ splices.nextString more }
  case refine_1 =>
    intro r cell held
    by_cases old : r.index < h.pairs.size
    · have held' := Array.getElem?_eq_getElem old
      cases held.symm.trans (keeps.pairs held')
      obtain ⟨cell', there, heads, tails⟩ := found.pairs r _ held'
      obtain ⟨headHas, tailHas⟩ := found.closed.pairs r _ held'
      have place := Value.pair.inj (splices.agrees (.pair r) old)
      refine ⟨cell', place ▸ there, ?_, ?_⟩
      · rw [heads, splices.agrees _ headHas]
      · rw [tails, splices.agrees _ tailHas]
    · obtain ⟨more, later⟩ := Nat.exists_eq_add_of_le (Nat.le_of_not_lt old)
      have inside : more < b.pairs.size := by
        have := (Array.getElem?_eq_some_iff.1 held).1
        omega
      obtain rfl : r = (Renaming.behind h).pair ⟨more⟩ := Ref.eq_of_index later
      have held' := Array.getElem?_eq_getElem inside
      obtain ⟨headHas, tailHas⟩ := first.closed.pairs ⟨more⟩ _ held'
      obtain ⟨cell₁, held₁, heads₁, tails₁⟩ := first.pairs ⟨more⟩ _ held'
      obtain ⟨cell₂, held₂, heads₂, tails₂⟩ := second.pairs ⟨more⟩ _ held'
      cases held.symm.trans held₁
      have place := Value.pair.inj (splices.block (.pair ⟨more⟩) inside)
      refine ⟨cell₂, place ▸ pending.pairs (Nat.le_add_right _ _) held₂, ?_, ?_⟩
      · rw [heads₂, heads₁, splices.block _ headHas]
      · rw [tails₂, tails₁, splices.block _ tailHas]
  case refine_2 =>
    intro r text held
    by_cases old : r.index < h.strings.size
    · have held' := Array.getElem?_eq_getElem old
      cases held.symm.trans (keeps.strings held')
      have place := Value.string.inj (splices.agrees (.string r) old)
      exact place ▸ found.strings r _ held'
    · obtain ⟨more, later⟩ := Nat.exists_eq_add_of_le (Nat.le_of_not_lt old)
      have inside : more < b.strings.size := by
        have := (Array.getElem?_eq_some_iff.1 held).1
        omega
      obtain rfl : r = (Renaming.behind h).string ⟨more⟩ := Ref.eq_of_index later
      have held' := Array.getElem?_eq_getElem inside
      cases held.symm.trans (first.strings ⟨more⟩ _ held')
      have place := Value.string.inj (splices.block (.string ⟨more⟩) inside)
      exact place ▸ pending.strings (Nat.le_add_right _ _) (second.strings ⟨more⟩ _ held')
  case refine_3 =>
    intro r m held
    rw [methods] at held
    obtain ⟨m', there, alike⟩ := found.methods r m held
    refine ⟨m', there, { alike with constants := alike.constants.trans ?_ }⟩
    refine Array.map_congr_left fun v member => ?_
    exact (splices.agrees v (found.closed.constants r m held v member)).symm
  case refine_4 =>
    rw [found.objects, objects]
    refine Array.map_congr_left fun o member => ?_
    have slots : o.slots.mapValues (·.rename ρ) = o.slots.mapValues (·.rename ρ') :=
      OrderedMap.mapValues_congr fun entry inside =>
        (splices.agrees _ (found.closed.slots o member entry inside)).symm
    exact congrArg (Object.mk o.ofClass) slots

theorem acyclic_block (d : Datum) : (block d).1.Acyclic (block d).2 :=
  (empty.adds_store "" d).2.acyclic

theorem closed_store (closed : h.Closed) (file : String) (d : Datum) :
    (h.store file d).1.Closed :=
  have stored : StoresAlike .id h h (h.store file d) (h.store file d) :=
    store_mirrored closed.mirrors_self (.refl d.bare)
  stored.carries.mirrors.closed

/-- A datum has been stored of which another heap holds a copy, and there the second renaming
finds it. -/
structure StoresCopy (ρ ρ' : Renaming) (h u k : Heap) (out out' : Heap × Value) : Prop where
  mirrors : out.1.Mirrors ρ' u
  copies : Copies ρ' out.1 k out.2
  value : out.2.rename ρ' = out'.2
  agrees : ∀ v, h.Has v → v.rename ρ' = v.rename ρ
  avoids : ρ'.Avoids out'.1 k

theorem exists_storesCopy {file file' : String} {d d' : Datum} (mirrors : h.Mirrors ρ u)
    (avoids : ρ.Avoids w k) (same : d.bare = d'.bare) (keeps : (w.store file' d').1.Keeps k)
    (pending : w.HoldsBehind k u) (pairRoom : k.pairs.size ≤ u.pairs.size)
    (stringRoom : k.strings.size ≤ u.strings.size) :
    ∃ ρ', StoresCopy ρ ρ' h u k (h.store file d) (w.store file' d') := by
  obtain ⟨first, value, has⟩ := block_mirrored h file (.refl d.bare)
  obtain ⟨second, value', -⟩ := block_mirrored w file' same
  obtain ⟨pairs, strings⟩ := sizes_of_mirrors_behind second
  obtain ⟨ρ', splices, apart⟩ := Renaming.exists_splices (fun v => mirrors.has_rename)
    (fun r _ => avoids.pair r) (fun r _ => avoids.string r)
    (pairs ▸ size_le_of_kept keeps.pairs) (strings ▸ size_le_of_kept keeps.strings)
    pairRoom stringRoom
  refine ⟨ρ', ?_, ?_, ?_, splices.agrees, apart _ pairs strings⟩
  · refine mirrors_of_splices splices mirrors.toFoundIn first second (h.store_eq_withData file d)
      (h.adds_store file d).1 (closed_store mirrors.closed file d) ?_
    exact ⟨fun beyond held => pending.pairs beyond (keeps.pairs held),
      fun beyond held => pending.strings beyond (keeps.strings held)⟩
  · rw [value]
    exact copies_of_splices splices first second keeps (acyclic_block d) has
  · rw [value, value', splices.block _ has]

/-- A heap is mirrored by what has come of it by adding, at the places where everything was. -/
theorem exists_mirrors_of_extends (closed : h.Closed) (larger : h.Extends u)
    (pairs : h.pairs.size ≤ k.pairs.size) (strings : h.strings.size ≤ k.strings.size)
    (pairRoom : k.pairs.size ≤ u.pairs.size) (stringRoom : k.strings.size ≤ u.strings.size) :
    ∃ ρ, h.Mirrors ρ u ∧ (∀ v, h.Has v → v.rename ρ = v) ∧ ρ.Avoids h k := by
  have nothing := mirrors_empty h
  have inside : ∀ v, h.Has v → u.Has (v.rename .id) := fun v has => by
    rw [v.rename_id]
    exact has.mono larger.widens
  obtain ⟨ρ, splices, apart⟩ : ∃ ρ, Renaming.Splices .id ρ h h u empty ∧ ∀ w' : Heap,
      w'.pairs.size = h.pairs.size + empty.pairs.size →
      w'.strings.size = h.strings.size + empty.strings.size → ρ.Avoids w' k :=
    Renaming.exists_splices inside (fun r held => .inl held) (fun r held => .inl held) pairs strings
      pairRoom stringRoom
  refine ⟨ρ, ?_, fun v has => (splices.agrees v has).trans v.rename_id, apart h rfl rfl⟩
  refine mirrors_of_splices splices (larger.foundIn closed) nothing nothing rfl (.refl h)
    closed ⟨fun beyond held => ?_, fun beyond held => ?_⟩
  · rw [Array.getElem?_eq_none beyond] at held
    cases held
  · rw [Array.getElem?_eq_none beyond] at held
    cases held

end Heap

end MessageMachine
