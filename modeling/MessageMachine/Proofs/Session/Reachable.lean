/-
# Reachable sessions

A session begins with a new standard image and goes on by evaluating texts, whatever is
in them and however far each evaluation gets. All that this ever does to the heap and
the image is to store what was read, to compile it, and to run what was compiled. So
every reachable session is a workspace, and so it is at every moment of an evaluation.
-/

import MessageMachine.Proofs.Compiler.Workspace
import MessageMachine.Session

namespace MessageMachine

/-! ## Storing -/

namespace Heap

theorem Stores.refl (h : Heap) : h.Stores h :=
  ⟨rfl, rfl, rfl⟩

theorem stores_storePairs (h : Heap) (file : String) (tail : Value)
    (before : List (Value × Option Reader.Place)) :
    h.Stores (h.storePairs file tail before).1 := by
  induction before generalizing h tail with
  | nil => exact .refl h
  | cons entry before ih =>
    obtain ⟨head, source⟩ := entry
    have first : h.Stores (h.allocPair ⟨head, tail, source.map (·.inFile file)⟩).1 :=
      ⟨rfl, rfl, rfl⟩
    exact first.trans (ih _ _)

theorem stores_storeBehind (h : Heap) (file : String) (d : Reader.Datum)
    (before : List (Value × Option Reader.Place)) :
    h.Stores (h.storeBehind file before d).1 := by
  induction d generalizing h before with
  | pair source head tail ihHead ihTail => exact (ihHead h []).trans (ihTail _ _)
  | string text =>
    have first : h.Stores (h.allocString text).1 := ⟨rfl, rfl, rfl⟩
    exact first.trans (stores_storePairs _ _ _ _)
  | nil | boolean b | integer n | char c | symbol name => exact stores_storePairs _ _ _ _

/-- Forms that are stored are nothing but data. -/
theorem stores_storeForms (h : Heap) (file : String) (forms : List Reader.Form) :
    h.Stores (h.storeForms file forms).1 := by
  suffices ∀ done : Heap × Array Stored, done.1.Stores (forms.foldl (storeForm file) done).1 from
    this (h, #[])
  induction forms with
  | nil => exact fun done => .refl _
  | cons form rest ih =>
    intro done
    have first : done.1.Stores (storeForm file done form).1 := stores_storeBehind _ _ _ _
    exact first.trans (ih _)

end Heap

/-! ## Loading -/

namespace Session

open Machine

/-- Programs that were compiled one after the other are there, and nothing but them and
what is inside them was made. -/
theorem workspace_of_foldlM {image : Image} (values : List Heap.Stored)
    {done loaded : Heap × Array (Ref .method)} {library : List Function}
    (workspace : Workspace done.1 image library)
    (inside : ∀ program ∈ done.2, program.index < done.1.methods.size)
    (compiled : values.foldlM compileNext done = .ok loaded) :
    (∃ library', Workspace loaded.1 image library') ∧
      ∀ program ∈ loaded.2, program.index < loaded.1.methods.size := by
  induction values generalizing done library with
  | nil =>
    cases compiled
    exact ⟨⟨library, workspace⟩, inside⟩
  | cons v rest ih =>
    obtain ⟨h, programs⟩ := done
    rw [List.foldlM_cons] at compiled
    obtain ⟨next, first, others⟩ := exists_of_bind_eq_ok compiled
    unfold compileNext at first
    simp only at first
    split at first
    · cases first
    next h' program made =>
      cases first
      obtain ⟨form, functions, reads, makes, index⟩ := makes_of_compile made
      refine ih (workspace.compile made reads) ?_ others
      have size := makes.size
      intro other member
      rcases Array.mem_push.1 member with before | rfl
      · exact Nat.lt_of_lt_of_le (inside other before) (size ▸ Nat.le_add_right _ _)
      · rw [index, size, List.length_append]
        exact Nat.lt_succ_self _

/-- A text that was loaded was read, its forms were stored, and then they were compiled in
order. -/
theorem exists_foldlM_of_load {h heap : Heap} {source file : String} {programs : List (Ref .method)}
    (loaded : load h source file = .ok (heap, programs)) :
    ∃ forms compiled, Reader.forms source = .ok forms ∧
      (h.storeForms file forms).2.foldlM compileNext ((h.storeForms file forms).1, #[]) =
        .ok (heap, compiled) ∧ compiled.toList = programs := by
  unfold load at loaded
  split at loaded
  · cases loaded
  next forms read =>
    simp only at loaded
    split at loaded
    · cases loaded
    next all =>
      cases loaded
      unfold compileAll at all
      cases compiled : (h.storeForms file forms).2.foldlM compileNext
          ((h.storeForms file forms).1, #[]) with
      | error failure =>
        rw [compiled] at all
        cases all
      | ok result =>
        rw [compiled] at all
        cases all
        exact ⟨forms, result.2, read, compiled, rfl⟩

theorem workspace_of_load {h heap : Heap} {image : Image} {library : List Function}
    {source file : String} {programs : List (Ref .method)} (workspace : Workspace h image library)
    (loaded : load h source file = .ok (heap, programs)) :
    (∃ library', Workspace heap image library') ∧
      ∀ program ∈ programs, program.index < heap.methods.size := by
  obtain ⟨forms, all, -, compiled, rfl⟩ := exists_foldlM_of_load loaded
  have stored := workspace.data (Heap.stores_storeForms h file forms)
  obtain ⟨made, inside⟩ := workspace_of_foldlM _ stored (fun program none_ => by simp at none_)
    compiled
  exact ⟨made, fun program member => inside program (Array.mem_toList_iff.1 member)⟩

/-! ## Running -/

variable {s : Session} {library : List Function}

/-- Whatever a run comes to, the session goes on with the heap and the image that it left. -/
theorem session_runProgram (s : Session) (fuel : Nat) (program : Ref .method) :
    (s.runProgram fuel program).session =
      { s with
        heap := ((idle s.heap s.image s.settings).serve fuel (.execute program)).2.heap
        image := ((idle s.heap s.image s.settings).serve fuel (.execute program)).2.image } := by
  unfold runProgram
  simp only
  split <;> rfl

theorem workspace_runProgram (workspace : Workspace s.heap s.image library) (fuel : Nat)
    (program : Ref .method) :
    Workspace (s.runProgram fuel program).session.heap (s.runProgram fuel program).session.image
      library := by
  rw [session_runProgram]
  exact workspace.run rfl

theorem settings_runProgram (s : Session) (fuel : Nat) (program : Ref .method) :
    (s.runProgram fuel program).session.settings = s.settings := by
  rw [session_runProgram]

/-- Running makes and takes away no method. -/
theorem methods_runProgram (s : Session) (fuel : Nat) (program : Ref .method) :
    (s.runProgram fuel program).session.heap.methods = s.heap.methods := by
  rw [session_runProgram]
  have same := sameCode_of_run fuel
    (m := idle s.heap s.image s.settings) (a := .request (.execute program)) rfl
  exact same.methods

/-- How running several programs begins: the first cannot be listed, it has no answer, or
the others run after it. -/
theorem runAll_cons_cases (s : Session) (fuel : Nat) (program : Ref .method)
    (rest : List (Ref .method)) :
    (∃ failure, s.listProgram program = .error failure ∧
      s.runAll fuel (program :: rest) = ⟨s, [], .error failure⟩) ∨
    ∃ listed, s.listProgram program = .ok listed ∧
      ((∃ failure, (s.runProgram fuel program).result = .error failure ∧
        s.runAll fuel (program :: rest) = ⟨(s.runProgram fuel program).session,
          listed ++ (s.runProgram fuel program).events, .error failure⟩) ∨
      ∃ v others, (s.runProgram fuel program).result = .ok v ∧
        (s.runProgram fuel program).session.runAll fuel rest = others ∧
        s.runAll fuel (program :: rest) = ⟨others.session,
          listed ++ (s.runProgram fuel program).events ++ others.events,
          others.result.map (v :: ·)⟩) := by
  rw [runAll_cons]
  cases s.listProgram program with
  | error failure => exact .inl ⟨failure, rfl, rfl⟩
  | ok listed =>
    refine .inr ⟨listed, rfl, ?_⟩
    simp only
    cases (s.runProgram fuel program).result with
    | error failure => exact .inl ⟨failure, rfl, rfl⟩
    | ok v => exact .inr ⟨v, _, rfl, rfl, rfl⟩

/-- What each program leaves as it was, all of them leave as it was. -/
theorem kept_runAll {P : Session → Prop} {fuel : Nat}
    (kept : ∀ s program, P s → P (s.runProgram fuel program).session)
    (programs : List (Ref .method)) (before : P s) : P (s.runAll fuel programs).session := by
  induction programs generalizing s with
  | nil => exact before
  | cons program rest ih =>
    have first := kept s program before
    rcases runAll_cons_cases s fuel program rest with
      ⟨_, -, ran⟩ | ⟨_, -, ⟨_, -, ran⟩ | ⟨_, _, -, rfl, ran⟩⟩
    · rw [ran]
      exact before
    · rw [ran]
      exact first
    · rw [ran]
      exact ih first

theorem workspace_runAll (workspace : Workspace s.heap s.image library) (fuel : Nat)
    (programs : List (Ref .method)) :
    Workspace (s.runAll fuel programs).session.heap (s.runAll fuel programs).session.image
      library :=
  kept_runAll (P := fun t => Workspace t.heap t.image library)
    (fun _ program before => workspace_runProgram before fuel program) programs workspace

/-- The settings of a session never change. -/
theorem settings_runAll (s : Session) (fuel : Nat) (programs : List (Ref .method)) :
    (s.runAll fuel programs).session.settings = s.settings :=
  kept_runAll (P := fun t => t.settings = s.settings)
    (fun t program before => (settings_runProgram t fuel program).trans before) programs rfl

theorem methods_runAll (s : Session) (fuel : Nat) (programs : List (Ref .method)) :
    (s.runAll fuel programs).session.heap.methods = s.heap.methods :=
  kept_runAll (P := fun t => t.heap.methods = s.heap.methods)
    (fun t program before => (methods_runProgram t fuel program).trans before) programs rfl

/-! ## Evaluating -/

theorem evaluate_eq_runAll {fuel : Nat} {source file : String} {heap : Heap}
    {programs : List (Ref .method)} (loaded : load s.heap source file = .ok (heap, programs)) :
    s.evaluate fuel source file = { s with heap := heap }.runAll fuel programs := by
  unfold Session.evaluate
  rw [loaded]

theorem evaluate_of_load {fuel : Nat} {source file : String} {failure : Failure}
    (failed : load s.heap source file = .error failure) :
    s.evaluate fuel source file = ⟨s, [], .error failure⟩ := by
  unfold Session.evaluate
  rw [failed]

/-! ## Reachable sessions -/

/-- The sessions that there are: a new one, and what becomes of a session that evaluates
a text. -/
inductive Reachable : Session → Prop
  | create (settings : Settings) (listsPrograms : Bool) : Reachable (create settings listsPrograms)
  | evaluate {s : Session} (fuel : Nat) (source file : String) :
      Reachable s → Reachable (s.evaluate fuel source file).session

theorem Reachable.workspace (reachable : s.Reachable) :
    ∃ library, Workspace s.heap s.image library := by
  induction reachable with
  | create settings listsPrograms => exact ⟨[], .fresh⟩
  | @evaluate s fuel source file _ ih =>
    obtain ⟨library, workspace⟩ := ih
    unfold Session.evaluate
    cases loaded : load s.heap source file with
    | error failure => exact ⟨library, workspace⟩
    | ok done =>
      obtain ⟨heap, programs⟩ := done
      obtain ⟨⟨library', workspace'⟩, -⟩ := workspace_of_load workspace loaded
      exact ⟨library', workspace_runAll (s := { s with heap := heap }) workspace' fuel programs⟩

/-! ## Moments of an evaluation -/

/-- While a session evaluates a text, its machine passes through a state. One program
after the other is run on an idle machine, if all before it have answered. -/
inductive Passes (s : Session) (fuel : Nat) (source file : String) :
    Machine.Activity → Machine → Prop
  | intro {heap : Heap} {before rest : List (Ref .method)} {program : Ref .method}
      {values : List Value} {now : Session} {a : Machine.Activity} {m : Machine} :
      load s.heap source file = .ok (heap, before ++ program :: rest) →
      ({ s with heap := heap }.runAll fuel before).result = .ok values →
      ({ s with heap := heap }.runAll fuel before).session = now →
      Machine.Leads (.request (.execute program))
        (Machine.idle now.heap now.image now.settings) a m →
      Passes s fuel source file a m

end Session

end MessageMachine
