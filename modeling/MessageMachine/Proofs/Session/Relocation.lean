/-
# Texts of other names

The name of a text is part of every place in it. If a session and the text that it evaluates
have other names for all that was ever read, everything goes the same, under the other
names: the same values, the same written text, the same reports of other places, the same
failures, and a session that is the same apart from the names.

This holds for all names. Different texts may get one name, so that it cannot matter
which of them something came from, or names may be exchanged.
-/

import MessageMachine.Proofs.Compiler.Relocation
import MessageMachine.Proofs.Machine.Parallel
import MessageMachine.Proofs.Session.Reachable

namespace MessageMachine

/-- The same place in a file of another name. -/
def Location.renamed (name : String → String) (l : Location) : Location :=
  { l with file := name l.file }

/-! ## Storing -/

namespace Heap

variable (name : String → String) (h : Heap) (file : String)

theorem storePairs_renamed (tail : Value) (before : List (Value × Option Reader.Place)) :
    (h.relocate (.renamed name)).storePairs (name file) tail before =
      Prod.map (·.relocate (.renamed name)) id (h.storePairs file tail before) := by
  induction before generalizing h tail with
  | nil => rfl
  | cons entry before ih =>
    obtain ⟨head, source⟩ := entry
    have here : source.map (·.inFile (name file)) =
        (source.map (·.inFile file)).map (.renamed name) := by
      rw [Option.map_map]
      rfl
    have cell := h.allocPair_relocate (.renamed name) ⟨head, tail, source.map (·.inFile file)⟩
    unfold storePairs
    rw [here]
    simp only [Pair.relocate] at cell
    rw [cell]
    exact ih _ _

theorem storeBehind_renamed (d : Reader.Datum) (before : List (Value × Option Reader.Place)) :
    (h.relocate (.renamed name)).storeBehind (name file) before d =
      Prod.map (·.relocate (.renamed name)) id (h.storeBehind file before d) := by
  induction d generalizing h before with
  | pair source head tail ihHead ihTail =>
    unfold storeBehind
    rw [ihHead]
    exact ihTail _ _
  | string text =>
    unfold storeBehind
    simp only [allocString_relocate]
    exact storePairs_renamed _ _ _ _ _
  | nil | boolean b | integer n | char c | symbol name => exact storePairs_renamed _ _ _ _ _

def Stored.relocate (place : Location → Location) (stored : Stored) : Stored :=
  { stored with location := place stored.location }

theorem storeForms_renamed (forms : List Reader.Form) :
    (h.relocate (.renamed name)).storeForms (name file) forms =
      Prod.map (·.relocate (.renamed name)) (List.map (·.relocate (.renamed name)))
        (h.storeForms file forms) := by
  let move : Heap × Array Stored → Heap × Array Stored :=
    Prod.map (·.relocate (.renamed name)) (Array.map (·.relocate (.renamed name)))
  have each (done : Heap × Array Stored) (form : Reader.Form) :
      storeForm (name file) (move done) form = move (storeForm file done form) := by
    obtain ⟨h, values⟩ := done
    simp only [move, storeForm, store, Prod.map, storeBehind_renamed, Array.map_push]
    rfl
  have start : move (h, #[]) = (h.relocate (.renamed name), #[]) := by
    simp only [move, Prod.map, Array.map_empty]
  have all : forms.foldl (storeForm (name file)) (move (h, #[])) =
      move (forms.foldl (storeForm file) (h, #[])) := List.foldl_hom move each
  rw [start] at all
  simp only [storeForms, all, move, Prod.map, Array.toList_map]

end Heap

/-! ## Loading -/

namespace Session

def Failure.renamed (name : String → String) : Failure → Failure
  | unreadable fault file => unreadable fault (name file)
  | uncompiled failure => uncompiled (failure.relocate (.renamed name))
  | unlisted fault => unlisted fault
  | host fault => host fault
  | unfinished => unfinished

theorem compileNext_relocate (place : Location → Location) (done : Heap × Array (Ref .method))
    (stored : Heap.Stored) :
    compileNext (Prod.map (·.relocate place) id done) (stored.relocate place) =
      bimap (.relocate place) (Prod.map (·.relocate place) id) (compileNext done stored) := by
  obtain ⟨h, programs⟩ := done
  have compiled := h.compile_relocate place stored.value (some stored.location) Heap.programName
  unfold compileNext
  simp only [Prod.map, id_eq, Heap.Stored.relocate]
  rw [Option.map_some] at compiled
  rw [compiled]
  cases h.compile stored.value (some stored.location) Heap.programName with
  | error failure => rfl
  | ok made => rfl

theorem compileAll_relocate (place : Location → Location) (h : Heap) (values : List Heap.Stored) :
    compileAll (h.relocate place) (values.map (·.relocate place)) =
      bimap (.relocate place) (Prod.map (·.relocate place) id) (compileAll h values) := by
  suffices ∀ done : Heap × Array (Ref .method),
      (values.map (·.relocate place)).foldlM compileNext (Prod.map (·.relocate place) id done) =
        bimap (.relocate place) (Prod.map (·.relocate place) id)
          (values.foldlM compileNext done) by
    unfold compileAll
    have all := this (h, #[])
    simp only [Prod.map, id_eq] at all
    rw [all]
    cases values.foldlM compileNext (h, #[]) with
    | error failure => rfl
    | ok loaded => rfl
  induction values with
  | nil => exact fun done => rfl
  | cons stored rest ih =>
    intro done
    rw [List.map_cons, List.foldlM_cons, List.foldlM_cons, compileNext_relocate]
    exact bimap_bind _ ih

theorem load_renamed (name : String → String) (h : Heap) (source file : String) :
    load (h.relocate (.renamed name)) source (name file) =
      bimap (.renamed name) (Prod.map (·.relocate (.renamed name)) id) (load h source file) := by
  unfold load
  cases Reader.forms source with
  | error fault => rfl
  | ok forms =>
    simp only [Heap.storeForms_renamed, Prod.map, compileAll_relocate]
    cases compileAll (h.storeForms file forms).1 (h.storeForms file forms).2 with
    | error failure => rfl
    | ok loaded => rfl

end Session

/-! ## Running -/

def Diagnostic.relocate (place : Location → Location) (d : Diagnostic) : Diagnostic :=
  { d with location := d.location.map place }

namespace Machine

/-- A machine with nothing on it, and one that has the same data at other places. -/
def Footing.elsewhere (place : Location → Location) (h : Heap) (image : Image)
    (settings : Settings) : Footing :=
  ⟨idle (h.relocate place) image settings, settings, [], place, rfl, .inr rfl, .inl rfl⟩

variable (place : Location → Location) {h : Heap} (image : Image) (settings : Settings)

variable {place image settings} in
theorem Footing.Moves.eq_relocate {d d' : Diagnostic}
    (moves : (Footing.elsewhere place h image settings).Moves d d') : d.relocate place = d' := by
  obtain ⟨kind, message, location⟩ := d
  obtain ⟨kind', message', location'⟩ := d'
  obtain ⟨rfl, rfl, located⟩ := moves
  rcases located with moved | ⟨none_, nowhere⟩
  · simp only at moved
    rw [moved]
    rfl
  · -- Nothing is executing below.
    simp only at none_ nowhere
    rw [none_, nowhere]
    rfl

/-- A request is served in the same way where everything was written somewhere else. -/
theorem serve_relocate (standard : h.Standard) (fuel : Nat) (r : Request) :
    ∃ completion m m', (idle h image settings).serve fuel r = (completion, m) ∧
      (idle (h.relocate place) image settings).serve fuel r = (completion, m') ∧
      m'.heap = m.heap.relocate place ∧ m'.image = m.image ∧
      m'.log.toList = m.log.toList.map (·.relocate place) := by
  let g := Footing.elsewhere place h image settings
  have parallel : Parallel g (.request r) (idle h image settings) g.base :=
    .of_level (.start g h rfl rfl) (.start _ _ _ _) standard ⟨rfl, rfl⟩
  obtain ⟨same, atop⟩ := parallel.run_eq rfl rfl fuel
  obtain ⟨reports, log, moved⟩ := atop.log
  have all := List.forall₂_map_left_iff.2 (moved.imp fun _ _ => Footing.Moves.eq_relocate)
  rw [List.forall₂_eq_eq_eq] at all
  exact ⟨_, _, (run fuel (.request r) g.base).2, rfl, Prod.ext same rfl, atop.heap, atop.image,
    log.trans all.symm⟩

end Machine

namespace Session

def Event.renamed (name : String → String) : Event → Event
  | reported d => reported (d.relocate (.renamed name))
  | wrote text => wrote text

/-- The session with other names for everything that was read. -/
def renamed (name : String → String) (s : Session) : Session :=
  { s with heap := s.heap.relocate (.renamed name) }

def Outcome.renamed {α : Type} (name : String → String) (outcome : Outcome α) : Outcome α where
  session := outcome.session.renamed name
  events := outcome.events.map (.renamed name)
  result := bimap (.renamed name) id outcome.result

variable (name : String → String) {s : Session} {library : List Function}

theorem listProgram_renamed (program : Ref .method) :
    (s.renamed name).listProgram program =
      bimap (.renamed name) (List.map (.renamed name)) (s.listProgram program) := by
  unfold listProgram renamed
  simp only [Heap.listing_relocate]
  cases s.listsPrograms with
  | false => rfl
  | true =>
    cases s.heap.listing program with
    | error fault => rfl
    | ok text => rfl

theorem runProgram_renamed (workspace : Workspace s.heap s.image library) (fuel : Nat)
    (program : Ref .method) :
    (s.renamed name).runProgram fuel program = (s.runProgram fuel program).renamed name := by
  obtain ⟨completion, m, m', ran, ran', heap, image, log⟩ :=
    Machine.serve_relocate (.renamed name) s.image s.settings workspace.compiled.standard fuel
      (.execute program)
  have events : m'.log.toList.map Event.reported =
      (m.log.toList.map Event.reported).map (.renamed name) := by
    rw [log, List.map_map, List.map_map]
    rfl
  unfold runProgram renamed
  simp only [ran, ran', heap, image, events]
  cases completion with
  | none => rfl
  | some completion =>
    cases completion with
    | answer v => rfl
    | fault f => rfl

theorem runAll_renamed (workspace : Workspace s.heap s.image library) (fuel : Nat)
    (programs : List (Ref .method)) :
    (s.renamed name).runAll fuel programs = (s.runAll fuel programs).renamed name := by
  induction programs generalizing s with
  | nil => rfl
  | cons program rest ih =>
    have others := ih (workspace_runProgram workspace fuel program)
    rw [runAll_cons, runAll_cons, listProgram_renamed, runProgram_renamed name workspace]
    cases s.listProgram program with
    | error failure => rfl
    | ok listed =>
      simp only [bimap, Outcome.renamed] at others ⊢
      cases (s.runProgram fuel program).result with
      | error failure => simp
      | ok v =>
        simp only [id_eq, others, List.map_append]
        cases ((s.runProgram fuel program).session.runAll fuel rest).result with
        | error failure => rfl
        | ok values => rfl

/-! ## Evaluations -/

theorem Reachable.evaluate_renamed (reachable : s.Reachable) (fuel : Nat) (source file : String) :
    (s.renamed name).evaluate fuel source (name file) =
      (s.evaluate fuel source file).renamed name := by
  obtain ⟨library, workspace⟩ := reachable.workspace
  have loads := load_renamed name s.heap source file
  unfold Session.evaluate renamed
  simp only [loads]
  cases loaded : load s.heap source file with
  | error failure => rfl
  | ok done =>
    obtain ⟨heap, programs⟩ := done
    obtain ⟨⟨library', workspace'⟩, -⟩ := workspace_of_load workspace loaded
    exact runAll_renamed (s := { s with heap := heap }) name workspace' fuel programs

theorem Reachable.evaluateAndPrint_renamed (reachable : s.Reachable) (fuel : Nat)
    (source file : String) :
    (s.renamed name).evaluateAndPrint fuel source (name file) =
      (s.evaluateAndPrint fuel source file).renamed name := by
  unfold evaluateAndPrint
  rw [reachable.evaluate_renamed]
  simp only [Outcome.renamed]
  cases (s.evaluate fuel source file).result with
  | error failure => rfl
  | ok values =>
    simp only [bimap, id_eq, renamed, Heap.print_relocate, List.map_append, List.map_map]
    rfl

end Session

end MessageMachine
