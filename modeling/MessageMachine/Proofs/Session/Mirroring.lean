/-
# Sessions on mirrored heaps

Of two sessions of which one has everything at other places of its heap, a program lets others
notice the same: it is listed alike, it reports the same somewhere else, and it answers the
value that is found at the other places. Afterwards the one session still mirrors the other.

Every reachable session mirrors itself (`Reachable.mirrors_self`), which says no more and no
less than that its heap refers to nothing that it does not hold.
-/

import MessageMachine.Proofs.Compiler.Renaming
import MessageMachine.Proofs.Machine.Tandem
import MessageMachine.Proofs.Session.Dialogue

namespace MessageMachine

namespace Session

open Machine

/-! ## What comes of a program -/

theorem events_runProgram (s : Session) (fuel : Nat) (program : Ref .method) :
    (s.runProgram fuel program).events = ((Machine.idle s.heap s.image s.settings).serve fuel
      (.execute program)).2.log.toList.map Event.reported := by
  unfold runProgram
  simp only
  split <;> rfl

/-- What a completion is to whoever runs a program. -/
def resultOf : Option Completion → Except Failure Value
  | some (.answer v) => .ok v
  | some (.fault f) => .error (.host f)
  | none => .error .unfinished

theorem result_runProgram (s : Session) (fuel : Nat) (program : Ref .method) :
    (s.runProgram fuel program).result = resultOf
      ((Machine.idle s.heap s.image s.settings).serve fuel (.execute program)).1 := by
  unfold runProgram
  simp only
  split
  next answered => rw [answered, resultOf]
  next failed => rw [failed, resultOf]
  next stopped => rw [stopped, resultOf]

theorem resultOf_rename (ρ : Renaming) (completion : Option Completion) :
    resultOf (completion.map (·.rename ρ)) = (resultOf completion).map (·.rename ρ) := by
  match completion with
  | none | some (.answer _) | some (.fault _) => rfl

theorem eq_answer_of_resultOf {completion : Option Completion} {v : Value}
    (result : resultOf completion = .ok v) : completion = some (.answer v) := by
  match completion with
  | some (.answer _) => exact congrArg (some ∘ Completion.answer) (Except.ok.inj result)
  | none | some (.fault _) => cases result

/-! ## Running in tandem -/

/-- The event without the place that it is reported at. -/
def Event.unplaced : Event → Event
  | reported d => reported d.unplaced
  | wrote text => wrote text

/-- The second session is as the first, with everything at its place in the other heap. -/
structure Mirrors (ρ : Renaming) (s t : Session) : Prop where
  heap : s.heap.Mirrors ρ t.heap
  standard : s.heap.Standard
  image : t.image = s.image
  scope : s.heap.Has (.pair s.image.globals.scope)
  fixed : ρ.pair s.image.globals.scope = s.image.globals.scope
  settings : t.settings = s.settings
  listsPrograms : t.listsPrograms = s.listsPrograms

/-- A program was run in two sessions, and the same came of it. -/
structure RunsAlike (ρ : Renaming) (s t : Session) (out out' : Outcome Value) : Prop where
  session : out.session.Mirrors ρ out'.session
  carries : Heap.Carries ρ s.heap t.heap out.session.heap out'.session.heap
  events : out'.events.map Event.unplaced = out.events.map Event.unplaced
  result : out'.result = out.result.map (·.rename ρ)
  has : ∀ v, out.result = .ok v → out.session.heap.Has v

variable {ρ : Renaming} {s t : Session} {program : Ref .method}

namespace Mirrors

variable (mirrors : s.Mirrors ρ t)
include mirrors

theorem idle : (Machine.idle s.heap s.image s.settings).Mirrors ρ
    (Machine.idle t.heap t.image t.settings) where
  heap := mirrors.heap
  standard := mirrors.standard
  image := mirrors.image
  scope := mirrors.scope
  fixed := mirrors.fixed
  settings := mirrors.settings
  frames := rfl
  methods := fun frame member => absurd member List.not_mem_nil
  segment := ⟨fun _ => rfl, fun slot v held => by cases held⟩
  entries := rfl
  log := rfl

theorem listProgram (has : s.heap.Has (.callable (.method program))) :
    t.listProgram program = s.listProgram program := by
  unfold Session.listProgram
  rw [mirrors.listsPrograms, mirrors.heap.listing has]

theorem runProgram (has : s.heap.Has (.callable (.method program))) (fuel : Nat) :
    RunsAlike ρ s t (s.runProgram fuel program) (t.runProgram fuel program) := by
  obtain ⟨ended, machines, carries, known⟩ :=
    mirrors.idle.run (a := .request (.execute program)) has fuel
  have left : (s.runProgram fuel program).session.Mirrors ρ
      (t.runProgram fuel program).session := by
    rw [session_runProgram, session_runProgram]
    exact ⟨machines.heap, machines.standard, machines.image, machines.scope, machines.fixed,
      mirrors.settings, mirrors.listsPrograms⟩
  have changed : Heap.Carries ρ s.heap t.heap (s.runProgram fuel program).session.heap
      (t.runProgram fuel program).session.heap := by
    rw [session_runProgram, session_runProgram]
    exact carries
  refine ⟨left, changed, ?_, ?_, ?_⟩
  · rw [events_runProgram, events_runProgram, List.map_map, List.map_map]
    have logs := congrArg (fun log => log.toList.map Event.reported) machines.log
    simp only [Array.toList_map, List.map_map] at logs
    exact logs
  · rw [result_runProgram, result_runProgram, ← resultOf_rename]
    exact congrArg resultOf ended
  · rw [result_runProgram, session_runProgram]
    exact fun v result => known v (eq_answer_of_resultOf result)

end Mirrors

end Session

/-! ## Loading keeps a heap closed -/

namespace Heap

variable {h h' : Heap} {file : String}

/-- A closed heap has come of another by adding to it. -/
def ExtendsClosed (h h' : Heap) : Prop :=
  h'.Closed ∧ h.Extends h'

theorem ExtendsClosed.trans {h'' : Heap} (first : h.ExtendsClosed h')
    (second : h'.ExtendsClosed h'') : h.ExtendsClosed h'' :=
  ⟨second.1, first.2.trans second.2⟩

theorem extendsClosed_store (closed : h.Closed) (file : String) (d : Reader.Datum) :
    h.ExtendsClosed (h.store file d).1 :=
  ⟨closed_store closed file d, h.extends_store file d⟩

theorem extendsClosed_storeForms (closed : h.Closed) (file : String) (forms : List Reader.Form) :
    h.ExtendsClosed (h.storeForms file forms).1 := by
  suffices ∀ done : Heap × Array Stored, done.1.Closed →
      done.1.ExtendsClosed (forms.foldl (storeForm file) done).1 from
    this (h, #[]) closed
  induction forms with
  | nil => exact fun done closed => ⟨closed, .refl _⟩
  | cons form rest ih =>
    intro done closed
    have first := extendsClosed_store closed file form.datum
    exact first.trans (ih _ first.1)

/-- Compiling neither adds data nor changes any. -/
theorem data_of_compile {v : Value} {location : Option Location} {name : String}
    {program : Ref .method} (made : h.compile v location name = .ok (h', program)) :
    h'.pairs = h.pairs ∧ h'.strings = h.strings := by
  obtain ⟨_, _, _, makes, -⟩ := makes_of_compile made
  have pairs := congrArg Heap.pairs makes.data
  have strings := congrArg Heap.strings makes.data
  exact ⟨pairs, strings⟩

theorem extends_compile {v : Value} {location : Option Location} {name : String}
    {program : Ref .method} (made : h.compile v location name = .ok (h', program)) :
    h.Extends h' := by
  obtain ⟨_, _, _, makes, -⟩ := makes_of_compile made
  have data := makes.data
  have primitives := congrArg Heap.primitives data
  have classes := congrArg Heap.classes data
  have objects := congrArg Heap.objects data
  refine ⟨Session.keeps_of_compile made, fun {place m} held => ?_, primitives, classes, objects⟩
  rw [makes.kept place (Array.getElem?_eq_some_iff.1 held).1]
  exact held

/-- A value without a cycle is compiled to methods that refer to nothing else. -/
theorem extendsClosed_compile {v : Value} {location : Option Location} {name : String}
    {program : Ref .method} (closed : h.Closed) (acyclic : h.Acyclic v) (has : h.Has v)
    (made : h.compile v location name = .ok (h', program)) : h.ExtendsClosed h' := by
  have both := compile_copied (acyclic.copies closed has) rfl location location name
  rw [Value.rename_id, made] at both
  cases both with
  | ok alike => exact ⟨alike.makes.closed closed, extends_compile made⟩

end Heap

namespace Session

theorem Compiles.extendsClosed {file : String} {h h' : Heap} {forms : List Reader.Form}
    {programs : List (Ref .method)} (compiles : Compiles file h forms h' programs)
    (closed : h.Closed) : h.ExtendsClosed h' := by
  induction compiles with
  | nil => exact ⟨closed, .refl _⟩
  | cons unfolds made _ ih =>
    have first := Heap.extendsClosed_compile closed unfolds.acyclic unfolds.has made
    exact first.trans (ih first.1)

theorem extendsClosed_load {h heap : Heap} {source file : String} {programs : List (Ref .method)}
    (closed : h.Closed) (loaded : load h source file = .ok (heap, programs)) :
    h.ExtendsClosed heap := by
  obtain ⟨forms, -, compiles⟩ := compiles_of_load loaded
  have stored := Heap.extendsClosed_storeForms closed file forms
  exact stored.trans (compiles.extendsClosed stored.1)

/-! ## Reachable sessions -/

variable {s : Session}

theorem mirrors_self_runAll {fuel : Nat} {programs : List (Ref .method)} (mirrors : s.Mirrors .id s)
    (inside : ∀ program ∈ programs, program.index < s.heap.methods.size) :
    (s.runAll fuel programs).session.Mirrors .id (s.runAll fuel programs).session := by
  induction programs generalizing s with
  | nil => exact mirrors
  | cons program rest ih =>
    have first := (mirrors.runProgram (inside program List.mem_cons_self) fuel).session
    rcases runAll_cons_cases s fuel program rest with
      ⟨_, -, ran⟩ | ⟨_, -, ⟨_, -, ran⟩ | ⟨_, _, -, rfl, ran⟩⟩
    · rw [ran]
      exact mirrors
    · rw [ran]
      exact first
    · rw [ran]
      refine ih first fun other member => ?_
      rw [methods_runProgram]
      exact inside other (List.mem_cons_of_mem _ member)

/-- The heap of a new standard image is closed. -/
theorem closed_create : (Image.create .empty none false).1.Closed where
  pairs := by
    have all : ∀ cell ∈ (Image.create .empty none false).1.pairs,
        (Image.create .empty none false).1.Has cell.head ∧
          (Image.create .empty none false).1.Has cell.tail := by
      decide +kernel
    exact fun r cell held => all cell (Array.mem_of_getElem? held)
  constants := by
    intro r m held
    have none_ : (Image.create .empty none false).1.methods.size = 0 := Heap.compiled_create.size
    have inside := (Array.getElem?_eq_some_iff.1 held).1
    omega
  handlers := by
    have all : ∀ c ∈ (Image.create .empty none false).1.classes, ∀ entry ∈ c.handlers.entries,
        ∀ callable ∈ entry.2, (Image.create .empty none false).1.Has (.callable callable) := by
      decide +kernel
    intro c selector callable member
    unfold Heap.handlersOn Heap.classAt at member
    rw [Array.getD_eq_getD_getElem?] at member
    cases held : (Image.create .empty none false).1.classes[c.index]? with
    | none =>
      rw [held] at member
      cases member
    | some found =>
      rw [held, Option.getD_some] at member
      cases own : found.handlers.get? selector with
      | none =>
        rw [own] at member
        cases member
      | some callables =>
        rw [own] at member
        exact all found (Array.mem_of_getElem? held) _ (OrderedMap.mem_of_get? own) callable member
  slots := by
    have none_ : (Image.create .empty none false).1.objects.size = 0 := by decide +kernel
    intro o member
    rw [Array.eq_empty_of_size_eq_zero none_] at member
    exact absurd member (Array.not_mem_empty o)

theorem mirrors_self_create (settings : Settings) (listsPrograms : Bool) :
    (create settings listsPrograms).Mirrors .id (create settings listsPrograms) where
  heap := closed_create.mirrors_self
  standard := Heap.compiled_create.standard
  image := rfl
  scope := by
    show (Image.create .empty none false).2.globals.scope.index <
      (Image.create .empty none false).1.pairs.size
    decide +kernel
  fixed := rfl
  settings := rfl
  listsPrograms := rfl

/-- In a reachable session nothing refers to what is not there. -/
theorem Reachable.mirrors_self (reachable : s.Reachable) : s.Mirrors .id s := by
  induction reachable with
  | create settings listsPrograms => exact mirrors_self_create settings listsPrograms
  | @evaluate s fuel source file reachable ih =>
    obtain ⟨library, workspace⟩ := reachable.workspace
    cases loaded : load s.heap source file with
    | error failure =>
      rw [evaluate_of_load loaded]
      exact ih
    | ok done =>
      obtain ⟨heap, programs⟩ := done
      rw [evaluate_eq_runAll loaded]
      obtain ⟨⟨library', workspace'⟩, inside⟩ := workspace_of_load workspace loaded
      obtain ⟨closed, larger⟩ := extendsClosed_load ih.heap.closed loaded
      have here : Mirrors .id { s with heap := heap } { s with heap := heap } :=
        { ih with
          heap := closed.mirrors_self
          standard := workspace'.compiled.standard
          scope := ih.scope.mono larger.widens }
      exact mirrors_self_runAll here inside

end Session

end MessageMachine
