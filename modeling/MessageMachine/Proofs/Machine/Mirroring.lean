/-
# Machines on mirrored heaps

Two machines that have the same frames, over heaps of which one mirrors the other and with
values that are the renamed ones. What a primitive does on the one, it does on the other: it
answers the renamed value, asks for the renamed request or gives up for the same reason, and
it leaves heaps that mirror each other by the same renaming. `Tandem` is what two such
continuations have in common. Reports may differ in their places, which no machine ever reads.

As elsewhere, the behaviours that a host adds are left out.
-/

import MessageMachine.Machine.Step
import MessageMachine.Proofs.Compiler.Primitive
import MessageMachine.Proofs.Heap.Mirroring

namespace MessageMachine

/-- The report without its place. -/
def Diagnostic.unplaced (d : Diagnostic) : Diagnostic :=
  { d with location := none }

namespace Machine

/-! ## What is about to be done -/

def Request.rename (ρ : Renaming) : Request → Request
  | execute program => execute program
  | send receiver selector args => send (receiver.rename ρ) selector (args.map (·.rename ρ))
  | invoke callable args => invoke callable (args.map (·.rename ρ))

def Activity.rename (ρ : Renaming) : Activity → Activity
  | reply v => reply (v.rename ρ)
  | request r => request (r.rename ρ)
  | a => a

/-- What a request refers to is there. -/
def Request.Known (h : Heap) : Request → Prop
  | execute program => h.Has (.callable (.method program))
  | send receiver _ args => h.Has receiver ∧ ∀ v ∈ args, h.Has v
  | invoke callable args => h.Has (.callable callable) ∧ ∀ v ∈ args, h.Has v

def Activity.Known (h : Heap) : Activity → Prop
  | reply v => h.Has v
  | request r => r.Known h
  | _ => True

/-! ## Machines -/

/-- The slots that hold something hold the renamed values. -/
structure SegmentMirrors (ρ : Renaming) (h : Heap) (s s' : Array (Option Value)) : Prop where
  found : ∀ slot : Nat, (s'[slot]?).join = ((s[slot]?).join).map (·.rename ρ)
  has : ∀ (slot : Nat) v, (s[slot]?).join = some v → h.Has v

/-- The second machine is as the first, with everything at its place in the other heap. -/
structure Mirrors (ρ : Renaming) (m n : Machine) : Prop where
  heap : m.heap.Mirrors ρ n.heap
  standard : m.heap.Standard
  image : n.image = m.image
  scope : m.heap.Has (.pair m.image.globals.scope)
  fixed : ρ.pair m.image.globals.scope = m.image.globals.scope
  settings : n.settings = m.settings
  frames : n.frames = m.frames
  methods : ∀ frame ∈ m.frames.toList, m.heap.Has (.callable (.method frame.method))
  segment : SegmentMirrors ρ m.heap m.segment n.segment
  entries : n.entries = m.entries
  log : n.log.map Diagnostic.unplaced = m.log.map Diagnostic.unplaced

/-- Two machines on heaps that came from given ones go on with the same. -/
structure Tandem (ρ : Renaming) (h h' : Heap) (next next' : Activity × Machine) : Prop where
  activity : next'.1 = next.1.rename ρ
  known : next.1.Known next.2.heap
  mirrors : next.2.Mirrors ρ next'.2
  carries : Heap.Carries ρ h h' next.2.heap next'.2.heap

open Heap (Carries)

variable {ρ : Renaming} {h h' k k' : Heap} {m n : Machine} {v : Value}

namespace SegmentMirrors

variable {s s' : Array (Option Value)}

theorem mono (segment : SegmentMirrors ρ h s s') (widens : h.Widens k) : SegmentMirrors ρ k s s' :=
  ⟨segment.found, fun slot v held => (segment.has slot v held).mono widens⟩

theorem writeSlot (segment : SegmentMirrors ρ h s s') (slot : Nat) (has : h.Has v) :
    SegmentMirrors ρ h (writeSlot s slot v) (Machine.writeSlot s' slot (v.rename ρ)) where
  found other := by
    rw [slot_writeSlot, slot_writeSlot, segment.found]
    split <;> rfl
  has other w held := by
    rw [slot_writeSlot] at held
    split at held
    · cases held
      exact has
    · exact segment.has other w held

theorem resize (segment : SegmentMirrors ρ h s s') (size : Nat) :
    SegmentMirrors ρ h (resize s size) (Machine.resize s' size) where
  found slot := by
    rw [slot_resize, slot_resize, segment.found]
    split <;> rfl
  has slot v held := by
    rw [slot_resize] at held
    split at held
    · exact segment.has slot v held
    · cases held

theorem writeArgs (segment : SegmentMirrors ρ h s s') (start : Nat) {args : List Value}
    (known : ∀ v ∈ args, h.Has v) :
    SegmentMirrors ρ h (writeArgs s start args)
      (Machine.writeArgs s' start (args.map (·.rename ρ))) := by
  induction args generalizing s s' start with
  | nil => exact segment
  | cons v rest ih =>
    have first := segment.writeSlot start (known v List.mem_cons_self)
    exact ih first _ fun w member => known w (List.mem_cons_of_mem _ member)

end SegmentMirrors

/-! ## Changing both -/

namespace Mirrors

variable (mirrors : m.Mirrors ρ n)
include mirrors

theorem setHeap (carries : Carries ρ m.heap n.heap h h') :
    ({ m with heap := h } : Machine).Mirrors ρ { n with heap := h' } :=
  { mirrors with
    heap := carries.mirrors
    standard := mirrors.standard.congr carries.widens.primitives
    scope := mirrors.scope.mono carries.widens
    methods := fun frame member => (mirrors.methods frame member).mono carries.widens
    segment := mirrors.segment.mono carries.widens }

theorem setImage {image : Image} (globals : image.globals = m.image.globals) :
    ({ m with image := image } : Machine).Mirrors ρ { n with image := image } :=
  { mirrors with
    image := rfl
    scope := globals ▸ mirrors.scope
    fixed := globals ▸ mirrors.fixed }

theorem setFrames {frames : FrameStack}
    (methods : ∀ frame ∈ frames.toList, m.heap.Has (.callable (.method frame.method))) :
    ({ m with frames := frames } : Machine).Mirrors ρ { n with frames := frames } :=
  { mirrors with frames := rfl, methods := methods }

theorem setSegment {s s' : Array (Option Value)} (segment : SegmentMirrors ρ m.heap s s') :
    ({ m with segment := s } : Machine).Mirrors ρ { n with segment := s' } :=
  { mirrors with segment := segment }

theorem setEntries (entries : List Nat) :
    ({ m with entries := entries } : Machine).Mirrors ρ { n with entries := entries } :=
  { mirrors with entries := rfl }

theorem note (kind : Diagnostic.Kind) (message : String) (location location' : Option Location) :
    (m.note ⟨kind, message, location⟩).Mirrors ρ (n.note ⟨kind, message, location'⟩) :=
  { mirrors with
    log := by simp only [Machine.note, Array.map_push, mirrors.log, Diagnostic.unplaced] }

theorem report (kind : Diagnostic.Kind) (message : String) (location location' : Option Location) :
    (m.report kind message location).Mirrors ρ (n.report kind message location') :=
  mirrors.note _ _ _ _

theorem truncate (size : Nat) : (m.truncate size).Mirrors ρ (n.truncate size) :=
  mirrors.setSegment (mirrors.segment.resize size)

theorem slot? (slot : Nat) : n.slot? slot = (m.slot? slot).map (·.rename ρ) :=
  mirrors.segment.found slot

end Mirrors

namespace Tandem

/-- What is done on heaps that were made before. -/
theorem after {next next' : Activity × Machine} (tandem : Tandem ρ k k' next next')
    (carries : Carries ρ h h' k k') : Tandem ρ h h' next next' :=
  { tandem with carries := carries.trans tandem.carries }

section

variable (mirrors : m.Mirrors ρ n)
include mirrors

theorem same {a : Activity} (known : a.Known m.heap) :
    Tandem ρ m.heap n.heap (a, m) (a.rename ρ, n) :=
  ⟨rfl, known, mirrors, .refl mirrors.heap⟩

theorem answer (has : m.heap.Has v) : Tandem ρ m.heap n.heap (m.answer v) (n.answer (v.rename ρ)) :=
  same mirrors (a := .reply v) has

theorem store (carries : Carries ρ m.heap n.heap h h') (has : h.Has v) :
    Tandem ρ m.heap n.heap (.reply v, { m with heap := h })
      (.reply (v.rename ρ), { n with heap := h' }) :=
  ⟨rfl, has, mirrors.setHeap carries, carries⟩

theorem decline (name message : String) :
    Tandem ρ m.heap n.heap (m.decline name message) (n.decline name message) :=
  same (mirrors.report .primitiveFailed _ none none) (a := .reply .nil) trivial

theorem answerNumber (x : Binary64) :
    Tandem ρ m.heap n.heap (m.answerNumber x) (n.answerNumber x) := by
  unfold Machine.answerNumber Value.ofNumber
  cases Value.inRange? x with
  | some number => exact answer mirrors (v := .integer number) trivial
  | none => exact same mirrors (a := .abandon _) trivial

theorem answerString (text : String) :
    Tandem ρ m.heap n.heap (m.answerString text) (n.answerString text) := by
  have stored := store mirrors (mirrors.heap.allocString text) (m.heap.has_allocString text)
  rw [mirrors.heap.value_allocString] at stored
  unfold Machine.answerString
  split
  · exact stored
  · exact same mirrors (a := .fault _) trivial

theorem answerFrom {α : Type} (result : Except HostFault α) {f : α → Value}
    (plain : ∀ a, m.heap.Has (f a) ∧ (f a).rename ρ = f a) :
    Tandem ρ m.heap n.heap (m.answerFrom (result.map f)) (n.answerFrom (result.map f)) := by
  cases result with
  | ok a =>
    obtain ⟨has, unchanged⟩ := plain a
    have answered := answer mirrors has
    rw [unchanged] at answered
    exact answered
  | error f => exact same mirrors (a := .fault f) trivial

theorem withIntegers (name : String) {x y : Value} (first : m.heap.Has x) (second : m.heap.Has y)
    {go go' : Int → Int → Activity × Machine}
    (each : ∀ a b, Tandem ρ m.heap n.heap (go a b) (go' a b)) :
    Tandem ρ m.heap n.heap (m.withIntegers name x y go)
      (n.withIntegers name (x.rename ρ) (y.rename ρ) go') := by
  unfold Machine.withIntegers unexpected
  rw [Value.asInteger?_rename, Value.asInteger?_rename, mirrors.heap.print first,
    mirrors.heap.print second]
  cases x.asInteger? with
  | none => exact decline mirrors _ _
  | some a =>
    cases y.asInteger? with
    | none => exact decline mirrors _ _
    | some b => exact each a b

theorem apply (name : String) {args : List Value} (known : ∀ v ∈ args, m.heap.Has v) :
    Tandem ρ m.heap n.heap (m.apply name args) (n.apply name (args.map (·.rename ρ))) := by
  unfold Machine.apply
  cases args with
  | nil => exact same mirrors (a := .fault .missing) trivial
  | cons f rest =>
    have function := known f List.mem_cons_self
    rw [List.map_cons]
    simp only [Value.asCallable?_rename, mirrors.heap.print function]
    cases callable : f.asCallable? with
    | none => exact decline mirrors _ _
    | some c =>
      cases rest with
      | nil => exact decline mirrors _ _
      | cons receiver others =>
        have has : m.heap.Has (.callable c) := by
          cases f <;> cases callable
          exact function
        exact same mirrors (a := .request (.invoke c (receiver :: others)))
          ⟨has, fun v member => known v (List.mem_cons_of_mem _ member)⟩

end

end Tandem

/-! ## Behaviours -/

/-- Every standard behaviour does the same. -/
theorem Mirrors.perform (mirrors : m.Mirrors ρ n) {behaviour : Behaviour}
    (standard : ∀ added, behaviour ≠ .host added) (name : String) {args : List Value}
    (known : ∀ v ∈ args, m.heap.Has v) :
    Tandem ρ m.heap n.heap (m.perform behaviour name args)
      (n.perform behaviour name (args.map (·.rename ρ))) := by
  have argument (index : Nat) : (args.map (·.rename ρ)).getD index .nil =
      (args.getD index .nil).rename ρ := by
    rw [List.getD_eq_getElem?_getD, List.getD_eq_getElem?_getD, List.getElem?_map]
    cases args[index]? <;> rfl
  have has (index : Nat) : m.heap.Has (args.getD index .nil) := by
    rw [List.getD_eq_getElem?_getD]
    cases found : args[index]? with
    | none => trivial
    | some v => exact known v (List.mem_of_getElem? found)
  have receiverHas := has 0
  have firstHas := has 1
  have secondHas := has 2
  unfold Machine.perform
  simp only [argument]
  generalize args.getD 0 .nil = receiver at receiverHas ⊢
  generalize args.getD 1 .nil = first at firstHas ⊢
  generalize args.getD 2 .nil = second at secondHas ⊢
  have heap := mirrors.heap
  cases behaviour with
  | identical =>
    rw [Value.identical_rename]
    exact .answer mirrors (v := .boolean _) trivial
  | equal =>
    rw [heap.equal receiverHas firstHas]
    exact .answer mirrors (v := .boolean _) trivial
  | printed =>
    rw [heap.print receiverHas]
    exact .answerString mirrors _
  | classOf =>
    rw [mirrors.image, Image.classOf_mirrored heap]
    exact .answer mirrors (v := .classObject _) trivial
  | isNil =>
    have same : receiver.rename ρ = .nil ↔ receiver = .nil :=
      Value.rename_injective.eq_iff (b := .nil)
    simp only [same]
    exact .answer mirrors (v := .boolean _) trivial
  | always b => exact .answer mirrors (v := .boolean _) trivial
  | negation =>
    have same : receiver.rename ρ ≠ .boolean true ↔ receiver ≠ .boolean true :=
      Value.rename_injective.ne_iff (y := .boolean true)
    simp only [same]
    exact .answer mirrors (v := .boolean _) trivial
  | cons =>
    obtain ⟨carries, place, made⟩ := heap.cons receiverHas firstHas
    have stored := Tandem.store mirrors carries made
    rw [Value.rename_pair, ← place] at stored
    exact stored
  | respondsTo =>
    simp only [Machine.respondsTo, Value.asSymbol?_rename, unexpected, mirrors.image,
      Image.respondsTo_mirrored heap, heap.print firstHas]
    split
    · exact .decline mirrors _ _
    · exact .answerFrom mirrors _ fun b => ⟨trivial, rfl⟩
  | getSlot =>
    simp only [Machine.getSlot, Value.asObject?_rename, Value.asSymbol?_rename]
    split
    next r slot _ _ =>
      have held : ((n.heap.object r).slots.get? slot).getD .nil =
          (((m.heap.object r).slots.get? slot).getD .nil).rename ρ := by
        rw [heap.object, Object.rename, OrderedMap.get?_mapValues]
        cases (m.heap.object r).slots.get? slot <;> rfl
      rw [held]
      exact .answer mirrors (heap.closed.slot r slot)
    · exact .decline mirrors _ _
  | setSlot =>
    simp only [Machine.setSlot, Value.asObject?_rename, Value.asSymbol?_rename]
    split
    next r slot _ _ =>
      have carries := heap.setSlot r slot secondHas
      exact .store mirrors carries (secondHas.mono carries.widens)
    · exact .decline mirrors _ _
  | arithmetic op =>
    exact .withIntegers mirrors _ receiverHas firstHas fun _ _ => .answerNumber mirrors _
  | division op =>
    refine .withIntegers mirrors _ receiverHas firstHas fun _ _ => ?_
    split
    · exact .decline mirrors _ _
    · exact .answerNumber mirrors _
  | comparison op =>
    exact .withIntegers mirrors _ receiverHas firstHas fun _ _ =>
      .answer mirrors (v := .boolean _) trivial
  | charCode =>
    cases receiver with
    | char code => exact .answerNumber mirrors _
    | _ => exact .answer mirrors (v := .nil) trivial
  | symbolName =>
    simp only [Machine.symbolName, Value.asSymbol?_rename]
    split
    · exact .answerString mirrors _
    · exact .answer mirrors (v := .nil) trivial
  | stringLength =>
    cases receiver with
    | string r =>
      simp only [Machine.stringLength, Value.rename_string, Value.asString?,
        heap.stringText receiverHas]
      exact .answerNumber mirrors _
    | _ => exact .answer mirrors (v := .nil) trivial
  | concat =>
    simp only [Machine.concat, Value.asString?_rename, unexpected, heap.print firstHas]
    cases receiver with
    | string r =>
      cases first with
      | string s =>
        simp only [Value.asString?, Option.map_some, heap.stringText receiverHas,
          heap.stringText firstHas]
        exact .answerString mirrors _
      | _ => exact .decline mirrors _ _
    | _ => exact .decline mirrors _ _
  | intern =>
    cases receiver with
    | string r =>
      simp only [Machine.intern, Value.rename_string, Value.asString?,
        heap.stringText receiverHas]
      exact .answer mirrors (v := .symbol _) trivial
    | _ => exact .answer mirrors (v := .nil) trivial
  | head =>
    cases receiver with
    | pair r =>
      simp only [Machine.head, Value.rename_pair, Value.asPair?, Option.map_some, Option.getD_some,
        heap.head receiverHas]
      exact .answer mirrors (heap.closed.head receiverHas)
    | _ => exact .answer mirrors (v := .nil) trivial
  | tail =>
    cases receiver with
    | pair r =>
      simp only [Machine.tail, Value.rename_pair, Value.asPair?, Option.map_some, Option.getD_some,
        heap.tail receiverHas]
      exact .answer mirrors (heap.closed.tail receiverHas)
    | _ => exact .answer mirrors (v := .nil) trivial
  | setHead =>
    cases receiver with
    | pair r =>
      have carries := heap.setHead receiverHas firstHas
      exact .store mirrors carries (firstHas.mono carries.widens)
    | _ => exact .answer mirrors firstHas
  | setTail =>
    cases receiver with
    | pair r =>
      have carries := heap.setTail receiverHas firstHas
      exact .store mirrors carries (firstHas.mono carries.widens)
    | _ => exact .answer mirrors firstHas
  | apply => exact .apply mirrors _ known
  | newInstance =>
    simp only [Machine.newInstance, Value.asClass?_rename, heap.classAt]
    split
    · exact .answer mirrors (v := .nil) trivial
    · split
      next c _ _ =>
        have place : n.heap.objects.size = m.heap.objects.size := by
          rw [heap.objects, Array.size_map]
        have stored := Tandem.store mirrors (heap.allocObject (o := ⟨c, .empty⟩) rfl)
          (v := .object ⟨m.heap.objects.size⟩) trivial
        simp only [Heap.allocObject, place] at stored ⊢
        exact stored
      · exact .decline mirrors _ _
  | subclass =>
    simp only [Machine.subclass, Value.asClass?_rename, Value.asSymbol?_rename, unexpected,
      heap.print firstHas]
    split
    next base symbol _ _ =>
      obtain ⟨carries, same⟩ := m.image.defineClass_mirrored heap mirrors.scope mirrors.fixed
        symbol (some base) .«instance»
      have globals : (m.image.defineClass m.heap symbol (some base) .«instance»).2.1.globals =
          m.image.globals := rfl
      rw [mirrors.image]
      generalize m.image.defineClass m.heap symbol (some base) .«instance» = made
        at carries same globals ⊢
      generalize m.image.defineClass n.heap symbol (some base) .«instance» = made'
        at carries same ⊢
      obtain ⟨h, image, c⟩ := made
      obtain ⟨h', image', c'⟩ := made'
      cases same
      exact ⟨rfl, trivial, (mirrors.setHeap carries).setImage globals, carries⟩
    · exact .decline mirrors _ _
  | installMethod =>
    simp only [Machine.installMethod, Value.asClass?_rename, Value.asSymbol?_rename,
      Value.asCallable?_rename]
    split
    next target symbol callable _ _ function =>
      have has : m.heap.Has (.callable callable) := by
        cases second <;> cases function
        exact secondHas
      exact .store mirrors (heap.install target symbol has) (v := .symbol symbol) trivial
    · exact .decline mirrors _ _
  | className =>
    simp only [Machine.className, Value.asClass?_rename, heap.classAt]
    split
    · exact .answerString mirrors _
    · exact .answer mirrors (v := .nil) trivial
  | baseClass =>
    simp only [Machine.baseClass, Value.asClass?_rename, mirrors.image, Image.base?_mirrored heap]
    split
    · refine .answerFrom mirrors _ fun base => ?_
      cases base with
      | none => exact ⟨trivial, rfl⟩
      | some c => exact ⟨trivial, rfl⟩
    · exact .answer mirrors (v := .nil) trivial
  | host added => exact absurd rfl (standard added)

end Machine

end MessageMachine
