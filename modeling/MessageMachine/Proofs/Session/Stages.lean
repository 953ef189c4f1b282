/-
# A text and its forms in turn

The forms of a text may also be evaluated as texts of their own, one after the other. What is
different then is where the data are: all forms of a text are stored and compiled before the
first of them runs, while in turn each is stored behind what those before it have left. So the
whole text runs in a heap that holds, among what its programs make, the data of forms that are
yet to come, and nothing touches these before their time.

The two ways are compared one form after the other (`Underway`). When the next form is loaded in
turn, its data are a copy of what the other heap has been holding all along, and the renaming is
changed for one that finds them there.
-/

import MessageMachine.Proofs.Session.Mirroring
import MessageMachine.Proofs.Session.Termination

namespace MessageMachine

/-! ## Storing and compiling form by form -/

namespace Heap

theorem foldl_storeForm (file : String) (forms : List Reader.Form) (done : Heap × Array Stored) :
    forms.foldl (storeForm file) done = ((done.1.storeForms file forms).1,
      done.2 ++ (done.1.storeForms file forms).2.toArray) := by
  induction forms generalizing done with
  | nil => simp [storeForms]
  | cons form rest ih =>
    unfold storeForms
    rw [List.foldl_cons, List.foldl_cons, ih (storeForm file done form),
      ih (storeForm file (done.1, #[]) form)]
    simp [storeForm]

theorem storeForms_cons (h : Heap) (file : String) (form : Reader.Form)
    (rest : List Reader.Form) : h.storeForms file (form :: rest) =
      (((h.store file form.datum).1.storeForms file rest).1,
        ⟨(h.store file form.datum).2, form.place.inFile file⟩ ::
          ((h.store file form.datum).1.storeForms file rest).2) := by
  rw [storeForms, List.foldl_cons, foldl_storeForm]
  simp [storeForm]

end Heap

namespace Session

/-- The forms of a text are compiled in order. The first heap is the one in which those before
them were stored, the second the one in which all are stored and those before them compiled. -/
inductive Loads (file : String) :
    Heap → Heap → List Reader.Form → Heap → List (Ref .method) → Prop
  | nil {w k : Heap} : Loads file w k [] k []
  | cons {w k k' heap : Heap} {form : Reader.Form} {rest : List Reader.Form}
      {program : Ref .method} {programs : List (Ref .method)} :
      (w.store file form.datum).1.Keeps k →
      k.compile (w.store file form.datum).2 (some (form.place.inFile file)) Heap.programName =
        .ok (k', program) →
      Loads file (w.store file form.datum).1 k' rest heap programs →
      Loads file w k (form :: rest) heap (program :: programs)

theorem Loads.extends_ {file : String} {w k heap : Heap} {forms : List Reader.Form}
    {programs : List (Ref .method)} (loads : Loads file w k forms heap programs) :
    k.Extends heap := by
  induction loads with
  | nil => exact .refl _
  | cons _ made _ ih => exact (Heap.extends_compile made).trans ih

theorem loads_of_foldlM {file : String} {forms : List Reader.Form} {w : Heap}
    {done loaded : Heap × Array (Ref .method)} (keeps : (w.storeForms file forms).1.Keeps done.1)
    (compiled : (w.storeForms file forms).2.foldlM compileNext done = .ok loaded) :
    ∃ programs, loaded.2.toList = done.2.toList ++ programs ∧
      Loads file w done.1 forms loaded.1 programs := by
  induction forms generalizing w done with
  | nil =>
    cases compiled
    exact ⟨[], (List.append_nil _).symm, .nil⟩
  | cons form rest ih =>
    obtain ⟨k, before⟩ := done
    rw [Heap.storeForms_cons] at keeps compiled
    rw [List.foldlM_cons] at compiled
    obtain ⟨next, first, others⟩ := exists_of_bind_eq_ok compiled
    unfold compileNext at first
    simp only at first
    split at first
    · cases first
    next k' program made =>
      cases first
      obtain ⟨programs, all, loads⟩ := ih (keeps.trans (keeps_of_compile made)) others
      rw [Array.toList_push, List.append_assoc] at all
      refine ⟨program :: programs, all, .cons (.trans ?_ keeps) made loads⟩
      exact ((w.store file form.datum).1.holds_storeForms file rest).1

theorem loads_of_load {h heap : Heap} {source file : String} {forms : List Reader.Form}
    {programs : List (Ref .method)} (read : Reader.forms source = .ok forms)
    (loaded : load h source file = .ok (heap, programs)) :
    Loads file h (h.storeForms file forms).1 forms heap programs := by
  obtain ⟨forms', all, read', compiled, rfl⟩ := exists_foldlM_of_load loaded
  cases read.symm.trans read'
  obtain ⟨programs, same, loads⟩ := loads_of_foldlM (.refl _) compiled
  rw [same]
  exact loads

/-- A text of one form is loaded by storing it and compiling it. -/
theorem load_of_compile {h heap : Heap} {source file : String} {form : Reader.Form}
    {program : Ref .method} (read : Reader.forms source = .ok [form])
    (made : (h.store file form.datum).1.compile (h.store file form.datum).2
      (some (form.place.inFile file)) Heap.programName = .ok (heap, program)) :
    load h source file = .ok (heap, [program]) := by
  have next : compileNext ((h.store file form.datum).1, #[])
      ⟨(h.store file form.datum).2, form.place.inFile file⟩ = .ok (heap, #[program]) := by
    unfold compileNext
    simp only [made]
    rfl
  have all : compileAll (h.store file form.datum).1
      [⟨(h.store file form.datum).2, form.place.inFile file⟩] = .ok (heap, [program]) := by
    unfold compileAll
    rw [List.foldlM_cons, next]
    rfl
  have stored : h.storeForms file [form] = ((h.store file form.datum).1,
      [⟨(h.store file form.datum).2, form.place.inFile file⟩]) := rfl
  unfold load
  rw [read]
  simp only [stored, all]

/-! ## Form by form -/

/-- What the evaluation of one form comes to. -/
structure Stage where
  /-- The listing of the program and what was reported. -/
  events : List Event
  value : Value
  session : Session

/-- The line that shows a value. -/
def line (s : Session) (v : Value) : Event :=
  .wrote (s.heap.print v)

/-- Texts, each with the name of its file, are evaluated one after the other. Each has one
value, and the line that shows it is written right away. -/
inductive InTurn (fuel : Nat) : Session → List (String × String) → List Stage → Prop
  | nil {s : Session} : InTurn fuel s [] []
  | cons {s : Session} {text : String × String} {texts : List (String × String)} {x : Stage}
      {stages : List Stage} :
      s.evaluate fuel text.1 text.2 = ⟨x.session, x.events, .ok [x.value]⟩ →
      s.evaluateAndPrint fuel text.1 text.2 =
        ⟨x.session, x.events ++ [x.session.line x.value], .ok ()⟩ →
      InTurn fuel x.session texts stages → InTurn fuel s (text :: texts) (x :: stages)

/-- The session that is left in the end. -/
def ending (s : Session) : List Stage → Session
  | [] => s
  | x :: stages => x.session.ending stages

/-- A text has one form, which is the given one but for the places in it. -/
def ReadsAs (text : String × String) (form : Reader.Form) : Prop :=
  ∃ own, Reader.forms text.1 = .ok [own] ∧ own.datum.bare = form.datum.bare

theorem evaluateAndPrint_of_evaluate {s : Session} {fuel : Nat} {source file : String}
    {values : List Value} (result : (s.evaluate fuel source file).result = .ok values) :
    s.evaluateAndPrint fuel source file = ⟨(s.evaluate fuel source file).session,
      (s.evaluate fuel source file).events ++
        values.map (s.evaluate fuel source file).session.line, .ok ()⟩ := by
  unfold evaluateAndPrint
  simp only [result]
  rfl

/-! ## Both ways at once -/

open Heap (size_le_of_kept)

/-- The forms up to some point have been evaluated, in turn by the first session and as part of
the whole text by the second. For the whole text they were stored in `w`, and `k` is the heap
in which all forms were stored and they were compiled, `heap` the one that was loaded. -/
structure Underway (ρ : Renaming) (t u : Session) (w k heap : Heap) : Prop where
  mirrors : t.Mirrors ρ u
  reachable : t.Reachable
  size : t.heap.methods.size = k.methods.size
  methods : u.heap.methods = heap.methods
  /-- The data of the forms to come are where they were stored. -/
  pending : w.HoldsBehind k u.heap
  /-- Nothing that a program has made is there. -/
  avoids : ρ.Avoids w k
  pairRoom : k.pairs.size ≤ u.heap.pairs.size
  stringRoom : k.strings.size ≤ u.heap.strings.size

/-- The next form has been loaded in turn, and another renaming leads to its data. -/
structure Ready (ρ ρ' : Renaming) (t u : Session) (w k k' h : Heap) (program : Ref .method) :
    Prop where
  mirrors : Mirrors ρ' { t with heap := h } u
  has : h.Has (.callable (.method program))
  size : h.methods.size = k'.methods.size
  widens : t.heap.Widens h
  agrees : ∀ v, t.heap.Has v → v.rename ρ' = v.rename ρ
  avoids : ρ'.Avoids w k

variable {ρ ρ' : Renaming} {s t u : Session} {w k k' heap h : Heap} {form : Reader.Form}
  {program : Ref .method} {file : String} {text : String × String}

theorem Underway.exists_ready (underway : Underway ρ t u w k heap) (reads : ReadsAs text form)
    (keeps : (w.store file form.datum).1.Keeps k)
    (made : k.compile (w.store file form.datum).2 (some (form.place.inFile file))
      Heap.programName = .ok (k', program)) (later : k'.Extends heap) :
    ∃ ρ' h, load t.heap text.1 text.2 = .ok (h, [program]) ∧
      Ready ρ ρ' t u (w.store file form.datum).1 k k' h program := by
  obtain ⟨own, read, bare⟩ := reads
  obtain ⟨ρ', stored⟩ : ∃ ρ', Heap.StoresCopy ρ ρ' t.heap u.heap k
      (t.heap.store text.2 own.datum) (w.store file form.datum) :=
    Heap.exists_storesCopy underway.mirrors.heap underway.avoids bare keeps underway.pending
      underway.pairRoom underway.stringRoom
  have same := congrArg Heap.methods (t.heap.store_eq_withData text.2 own.datum)
  have size : (t.heap.store text.2 own.datum).1.methods.size = k.methods.size :=
    (congrArg Array.size same).trans underway.size
  have both := Heap.compile_copied stored.copies size (some (own.place.inFile text.2))
    (some (form.place.inFile file)) Heap.programName
  rw [stored.value, made] at both
  cases compiled : (t.heap.store text.2 own.datum).1.compile (t.heap.store text.2 own.datum).2
      (some (own.place.inFile text.2)) Heap.programName with
  | error e =>
    rw [compiled] at both
    cases both
  | ok result =>
    obtain ⟨h, program'⟩ := result
    rw [compiled] at both
    cases both with
    | ok alike =>
      obtain rfl : program = program' := alike.program
      have widens := (t.heap.extends_store text.2 own.datum).widens.trans alike.makes.widens
      have scope := underway.mirrors.scope
      refine ⟨ρ', h, load_of_compile read compiled, ?_⟩
      exact
        { mirrors :=
            { underway.mirrors with
              heap := alike.makes.mirrors stored.mirrors fun held => by
                rw [underway.methods]
                exact later.methods held
              standard := underway.mirrors.standard.congr widens.primitives
              scope := scope.mono widens
              fixed :=
                (Value.pair.inj (stored.agrees (.pair _) scope)).trans underway.mirrors.fixed }
          has := alike.has
          size := alike.makes.size
          widens := widens
          agrees := stored.agrees
          avoids := stored.avoids }

/-- The next form has been evaluated both ways. -/
structure Steps (ρ ρ' : Renaming) (fuel : Nat) (t u : Session) (program : Ref .method)
    (text : String × String) (listed : List Event) (x : Stage) : Prop where
  evaluated : t.evaluate fuel text.1 text.2 = ⟨x.session, x.events, .ok [x.value]⟩
  listing : u.listProgram program = .ok listed
  events : (listed ++ (u.runProgram fuel program).events).map Event.unplaced =
    x.events.map Event.unplaced
  result : (u.runProgram fuel program).result = .ok (x.value.rename ρ')
  has : x.session.heap.Has x.value
  widens : t.heap.Widens x.session.heap
  agrees : ∀ v, t.heap.Has v → v.rename ρ' = v.rename ρ
  settings : x.session.settings = t.settings

/-- The form that was loaded in turn runs as it does in the whole text. -/
theorem Underway.exists_steps {fuel : Nat} {rest : List (Ref .method)} (underway : Underway ρ t u w k heap)
    (reads : ReadsAs text form) (keeps : (w.store file form.datum).1.Keeps k)
    (made : k.compile (w.store file form.datum).2 (some (form.place.inFile file))
      Heap.programName = .ok (k', program)) (later : k'.Extends heap)
    (enough : t.settings.allowance < fuel)
    (fits : (u.runAll fuel (program :: rest)).result ≠ .error .overlong) :
    ∃ ρ' listed x, Steps ρ ρ' fuel t u program text listed x ∧
      Underway ρ' x.session (u.runProgram fuel program).session (w.store file form.datum).1 k'
        heap := by
  obtain ⟨ρ', h, loaded, ready⟩ := underway.exists_ready reads keeps made later
  have alike := ready.mirrors.runProgram ready.has fuel
  obtain ⟨library, workspace⟩ := underway.reachable.workspace
  obtain ⟨⟨library', workspace'⟩, -⟩ := workspace_of_load workspace loaded
  obtain ⟨listed, listing⟩ := exists_listProgram (s := { t with heap := h }) workspace'.compiled
    program
  have listing' := (ready.mirrors.listProgram ready.has).trans listing
  obtain ⟨v, answered⟩ : ∃ v, (runProgram { t with heap := h } fuel program).result = .ok v := by
    refine (ends_runProgram (s := { t with heap := h }) workspace' ready.has enough).1.resolve_right
      fun failed => fits ?_
    have failed' : (u.runProgram fuel program).result = .error .overlong := by
      rw [alike.result, failed]
      rfl
    rw [runAll_cons, listing']
    simp only [failed']
  have evaluated : t.evaluate fuel text.1 text.2 =
      ⟨(runProgram { t with heap := h } fuel program).session,
        listed ++ (runProgram { t with heap := h } fuel program).events, .ok [v]⟩ := by
    rw [evaluate_eq_runAll loaded, runAll_cons, listing]
    simp only [answered, runAll_nil, List.append_nil]
    rfl
  refine ⟨ρ', listed, ⟨listed ++ (runProgram { t with heap := h } fuel program).events, v,
    (runProgram { t with heap := h } fuel program).session⟩, ?_, ?_⟩
  · exact
      { evaluated := evaluated
        listing := listing'
        events := by rw [List.map_append, List.map_append, alike.events]
        result := by rw [alike.result, answered]; rfl
        has := alike.has v answered
        widens := ready.widens.trans alike.carries.widens
        agrees := ready.agrees
        settings := settings_runProgram _ _ _ }
  · obtain ⟨pairs, strings⟩ := Heap.data_of_compile made
    obtain ⟨morePairs, moreStrings⟩ := ready.mirrors.heap.size_le_of_carries alike.carries
    have before := (w.extends_store file form.datum).widens
    exact
      { mirrors := alike.session
        reachable := by
          have reachable := underway.reachable.evaluate fuel text.1 text.2
          rw [evaluated] at reachable
          exact reachable
        size := by
          show (runProgram { t with heap := h } fuel program).session.heap.methods.size = _
          rw [methods_runProgram]
          exact ready.size
        methods := by rw [methods_runProgram, underway.methods]
        pending := by
          refine ⟨fun {place cell} beyond held => ?_, fun {place text} beyond held => ?_⟩
          · rw [pairs] at held
            refine alike.carries.spares.pairs place cell
              (underway.pending.pairs (before.pairs.trans beyond) held) fun r same => ?_
            -- What is at this place has not been found by anything that ran.
            have inside := (Array.getElem?_eq_some_iff.1 held).1
            have apart := ready.avoids.pair r
            omega
          · rw [strings] at held
            exact alike.carries.spares.strings place text
              (underway.pending.strings (before.strings.trans beyond) held)
        avoids := by
          refine ⟨fun r => ?_, fun r => ?_⟩
          · rw [pairs]
            exact ready.avoids.pair r
          · rw [strings]
            exact ready.avoids.string r
        pairRoom := by
          rw [pairs]
          exact underway.pairRoom.trans morePairs
        stringRoom := by
          rw [strings]
          exact underway.stringRoom.trans moreStrings }

/-- All forms have been evaluated both ways. -/
structure EndsAlike (ρ ρ' : Renaming) (t : Session) (stages : List Stage)
    (whole : Outcome (List Value)) : Prop where
  mirrors : (t.ending stages).Mirrors ρ' whole.session
  events : whole.events.map Event.unplaced =
    (stages.flatMap Stage.events).map Event.unplaced
  result : whole.result = .ok (stages.map fun x => x.value.rename ρ')
  has : ∀ x ∈ stages, (t.ending stages).heap.Has x.value
  widens : t.heap.Widens (t.ending stages).heap
  agrees : ∀ v, t.heap.Has v → v.rename ρ' = v.rename ρ

/-- One form after the other goes both ways. -/
theorem Underway.exists_endsAlike {fuel : Nat} {forms : List Reader.Form}
    {programs : List (Ref .method)} {texts : List (String × String)}
    (underway : Underway ρ t u w k heap) (loads : Loads file w k forms heap programs)
    (reads : List.Forall₂ ReadsAs texts forms) (enough : t.settings.allowance < fuel)
    (fits : (u.runAll fuel programs).result ≠ .error .overlong) :
    ∃ ρ' stages, InTurn fuel t texts stages ∧
      EndsAlike ρ ρ' t stages (u.runAll fuel programs) := by
  induction loads generalizing ρ t u texts with
  | nil =>
    cases reads
    refine ⟨ρ, [], .nil, underway.mirrors, rfl, rfl, fun x member => ?_, .refl _, fun v _ => rfl⟩
    exact absurd member List.not_mem_nil
  | @cons w k k' heap form rest program programs keeps made loads ih =>
    obtain ⟨text, texts, first, others, rfl⟩ := List.forall₂_cons_right_iff.1 reads
    obtain ⟨ρ₁, listed, x, steps, next⟩ :=
      underway.exists_steps first keeps made loads.extends_ enough fits
    have fits' : ((u.runProgram fuel program).session.runAll fuel programs).result ≠
        .error .overlong := by
      intro failed
      refine fits ?_
      rw [runAll_cons, steps.listing]
      simp only [steps.result, failed]
      rfl
    obtain ⟨ρ', stages, turns, ends⟩ :=
      ih next others (by rw [steps.settings]; exact enough) fits'
    refine ⟨ρ', x :: stages, .cons steps.evaluated ?_ turns, ?_⟩
    · rw [evaluateAndPrint_of_evaluate (congrArg Outcome.result steps.evaluated), steps.evaluated]
      rfl
    · rw [runAll_cons, steps.listing]
      simp only [steps.result]
      exact
        { mirrors := ends.mirrors
          events := by
            rw [List.map_append, steps.events, ends.events, List.flatMap_cons, List.map_append]
          result := by
            rw [ends.result, ← ends.agrees x.value steps.has]
            rfl
          has := List.forall_mem_cons.2 ⟨steps.has.mono ends.widens, ends.has⟩
          widens := steps.widens.trans ends.widens
          agrees := fun v has =>
            (ends.agrees v (has.mono steps.widens)).trans (steps.agrees v has) }

/-- Before the first form. -/
theorem Reachable.exists_underway (reachable : s.Reachable) {forms : List Reader.Form}
    {programs : List (Ref .method)}
    (loads : Loads file s.heap (s.heap.storeForms file forms).1 forms heap programs) :
    ∃ ρ, Underway ρ s { s with heap := heap } s.heap (s.heap.storeForms file forms).1 heap := by
  have self := reachable.mirrors_self
  have stored := (Heap.extendsClosed_storeForms self.heap.closed file forms).2
  have compiled := loads.extends_
  obtain ⟨ρ, mirrors, same, avoids⟩ := Heap.exists_mirrors_of_extends self.heap.closed
    (stored.trans compiled) stored.widens.pairs stored.widens.strings compiled.widens.pairs
    compiled.widens.strings
  refine ⟨ρ, ?_⟩
  exact
    { mirrors :=
        { self with
          heap := mirrors
          fixed := Value.pair.inj (same (.pair _) self.scope) }
      reachable := reachable
      size := congrArg Array.size (Heap.stores_storeForms s.heap file forms).methods.symm
      methods := rfl
      pending :=
        ⟨fun _ held => compiled.keeps.pairs held, fun _ held => compiled.keeps.strings held⟩
      avoids := avoids
      pairRoom := compiled.widens.pairs
      stringRoom := compiled.widens.strings }

/-! ## The whole text -/

/-- A text is evaluated as its forms are in turn, and the values are shown afterwards. -/
structure ShowsAfterwards (s : Session) (fuel : Nat) (source file : String)
    (texts : List (String × String)) (stages : List Stage) : Prop where
  /-- In turn, each form has one value, which is shown as it is when the form has finished. -/
  turns : InTurn fuel s texts stages
  result : (s.evaluateAndPrint fuel source file).result = .ok ()
  /-- As a whole, all that is listed and reported comes first, and then all values are shown as
  they are when the last form has finished. -/
  events : (s.evaluateAndPrint fuel source file).events.map Event.unplaced =
    (stages.flatMap Stage.events).map Event.unplaced ++
      stages.map fun x => (s.ending stages).line x.value

/-- The forms of a text that can be read and compiled do in turn what they do as a whole, as
long as no string gets too long. Only the lines of values come at another time, and so they
show what later forms have changed. -/
theorem Reachable.exists_showsAfterwards (reachable : s.Reachable) {fuel : Nat}
    {source file : String} {forms : List Reader.Form} {texts : List (String × String)}
    {programs : List (Ref .method)} (read : Reader.forms source = .ok forms)
    (loaded : load s.heap source file = .ok (heap, programs))
    (reads : List.Forall₂ ReadsAs texts forms) (enough : s.settings.allowance < fuel)
    (fits : (s.evaluate fuel source file).result ≠ .error .overlong) :
    ∃ stages, s.ShowsAfterwards fuel source file texts stages := by
  have loads := loads_of_load read loaded
  obtain ⟨ρ, underway⟩ := reachable.exists_underway loads
  have evaluated : s.evaluate fuel source file = _ := evaluate_eq_runAll loaded
  rw [evaluated] at fits
  obtain ⟨ρ', stages, turns, ends⟩ := underway.exists_endsAlike loads reads enough fits
  rw [← evaluated] at ends
  have printed := evaluateAndPrint_of_evaluate ends.result
  have lines (x : Stage) (member : x ∈ stages) :
      Event.unplaced ((s.evaluate fuel source file).session.line (x.value.rename ρ')) =
        (s.ending stages).line x.value :=
    congrArg Event.wrote (ends.mirrors.heap.print (ends.has x member))
  refine ⟨stages, turns, congrArg Outcome.result printed, ?_⟩
  rw [printed, List.map_append, ends.events, List.map_map, List.map_map]
  exact congrArg _ (List.map_congr_left lines)

/-- The form `(define p (cons 1 2))`, at the beginning of a text. -/
def definingForm : Reader.Form where
  datum := .pair (some ⟨1, 1⟩) (.symbol "define") (.pair none (.symbol "p") (.pair none
    (.pair (some ⟨1, 11⟩) (.symbol "cons") (.pair none (.integer 1) (.pair none (.integer 2) .nil)))
    .nil))
  place := ⟨1, 1⟩

/-- The form `(setHead p 9)`, in the first line of a text. -/
def changingForm (column : Nat) : Reader.Form where
  datum := .pair (some ⟨1, column⟩) (.symbol "setHead")
    (.pair none (.symbol "p") (.pair none (.integer 9) .nil))
  place := ⟨1, column⟩

theorem showsAfterwards_setHead : ∃ stages,
    (create .standard false).ShowsAfterwards ((create .standard false).settings.allowance + 1)
      "(define p (cons 1 2)) (setHead p 9)" "all"
      [("(define p (cons 1 2))", "first"), ("(setHead p 9)", "second")] stages := by
  have read : Reader.forms "(define p (cons 1 2)) (setHead p 9)" =
      .ok [definingForm, changingForm 23] := by
    decide +kernel
  have first : ReadsAs ("(define p (cons 1 2))", "first") definingForm :=
    ⟨definingForm, by decide +kernel, rfl⟩
  have second : ReadsAs ("(setHead p 9)", "second") (changingForm 23) :=
    ⟨changingForm 1, by decide +kernel, rfl⟩
  have loads : (load (create .standard false).heap
      "(define p (cons 1 2)) (setHead p 9)" "all").toBool = true := by
    decide +kernel
  cases loaded : load (create .standard false).heap "(define p (cons 1 2)) (setHead p 9)" "all" with
  | error failure =>
    rw [loaded] at loads
    cases loads
  | ok done =>
    exact Reachable.exists_showsAfterwards (.create _ _) read loaded
      (.cons first (.cons second .nil)) (Nat.lt_add_one _) (by decide +kernel)

/-- As a whole the text shows the pair with the head that its second form gives it. In turn the
pair is shown before that. -/
theorem setHead_shownOtherwise :
    let s := create .standard false
    let whole := s.evaluateAndPrint 1000 "(define p (cons 1 2)) (setHead p 9)" "all"
    let first := s.evaluateAndPrint 1000 "(define p (cons 1 2))" "first"
    let second := first.session.evaluateAndPrint 1000 "(setHead p 9)" "second"
    s.Reachable ∧ (whole.result = .ok () ∧ first.result = .ok () ∧ second.result = .ok ()) ∧
      whole.events = [.wrote "(9 . 2)", .wrote "9"] ∧
      first.events ++ second.events = [.wrote "(1 . 2)", .wrote "9"] ∧
      whole.events ≠ first.events ++ second.events :=
  ⟨.create _ _, by decide +kernel, by decide +kernel, by decide +kernel, by decide +kernel⟩

end Session

end MessageMachine
