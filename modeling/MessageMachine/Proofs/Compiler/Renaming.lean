/-
# Compiling a copy

A value is taken apart when it is compiled, and what is left of it in the program are constants.
So a copy of the value in another heap compiles to the same instructions with the copies of the
constants, or it is refused where the value is refused. Where the one and the other were written
plays no part: it goes into errors and sources, and no instruction depends on either.

Methods get the places that are next. In heaps with equally many methods these are the same, and
what is made in the one heap then mirrors what is made in the other (`Heap.compile_copied`).
-/

import Mathlib.Data.List.Forall2
import MessageMachine.Expr.Code
import MessageMachine.Proofs.Compiler.Reading
import MessageMachine.Proofs.Heap.Copy

namespace MessageMachine

/-! ## Two computations -/

/-- Both computations fail, or both give results that are related. -/
inductive Both {ε δ α β : Type} (related : α → β → Prop) : Except ε α → Except δ β → Prop
  | ok {a : α} {b : β} : related a b → Both related (.ok a) (.ok b)
  | error (e : ε) (d : δ) : Both related (.error e) (.error d)

namespace Both

variable {ε δ α α' β β' γ : Type} {R : α → β → Prop} {S : α' → β' → Prop}

theorem bind {x : Except ε α} {y : Except δ β} {f : α → Except ε α'} {g : β → Except δ β'}
    (first : Both R x y) (second : ∀ a b, R a b → Both S (f a) (g b)) :
    Both S (x >>= f) (y >>= g) := by
  cases first with
  | ok related => exact second _ _ related
  | error e d => exact .error e d

/-- Results are computed one after the other, in both computations. -/
theorem mapM {f : γ → Except ε α} {g : β' → Except δ β} {vs : List γ} {ws : List β'}
    (each : List.Forall₂ (fun v w => Both R (f v) (g w)) vs ws) :
    Both (List.Forall₂ R) (vs.mapM f) (ws.mapM g) := by
  induction each with
  | nil => exact .ok .nil
  | cons first _ ih =>
    rw [List.mapM_cons, List.mapM_cons]
    exact first.bind fun a b one => ih.bind fun as bs others => .ok (.cons one others)

end Both

/-! ## Lists -/

namespace Heap

variable {ρ : Renaming} {h k : Heap} {v : Value} {xs ys : List Value}

/-- Of a list, the elements have been copied too, and they make up the copy. -/
theorem ListOf.copied (listed : h.ListOf v xs) (copies : Copies ρ h k v) :
    k.ListOf (v.rename ρ) (xs.map (·.rename ρ)) ∧ ∀ x ∈ xs, Copies ρ h k x := by
  induction listed with
  | nil => exact ⟨.nil, fun x member => absurd member List.not_mem_nil⟩
  | cons held _ ih =>
    cases copies with
    | atom apart _ => cases apart
    | pair held₁ held₂ heads tails head tail =>
      cases held.symm.trans held₁
      obtain ⟨listed, each⟩ := ih tail
      rw [← tails] at listed
      rw [List.map_cons, ← heads]
      exact ⟨.cons held₂ listed, List.forall_mem_cons.2 ⟨head, each⟩⟩

/-- Only of a list is the copy a list. -/
theorem Copies.listOf (copies : Copies ρ h k v) (listed : k.ListOf (v.rename ρ) ys) :
    ∃ xs, h.ListOf v xs := by
  induction copies generalizing ys with
  | @atom v apart _ =>
    generalize same : v.rename ρ = w at listed
    cases listed with
    | nil =>
      cases v with
      | nil => exact ⟨[], .nil⟩
      | _ => cases same
    | cons _ _ =>
      have := congrArg Value.asPair? same
      rw [Value.asPair?_rename, apart] at this
      cases this
  | pair held₁ held₂ _ tails _ _ _ ih =>
    cases listed with
    | cons held rest =>
      cases held₂.symm.trans held
      obtain ⟨xs, listed⟩ := ih (tails ▸ rest)
      exact ⟨_, .cons held₁ listed⟩

theorem Copies.elements? (copies : Copies ρ h k v) :
    k.elements? (v.rename ρ) = (h.elements? v).map (List.map (·.rename ρ)) := by
  have within := copies.acyclic.within
  have within' := copies.acyclic_rename.within
  cases found : h.elements? v with
  | some xs =>
    have listed := (elements?_eq_some_iff within).1 found
    exact (elements?_eq_some_iff within').2 (listed.copied copies).1
  | none =>
    cases found' : k.elements? (v.rename ρ) with
    | none => rfl
    | some ys =>
      obtain ⟨xs, listed⟩ := copies.listOf ((elements?_eq_some_iff within').1 found')
      cases found.symm.trans ((elements?_eq_some_iff within).2 listed)

end Heap

/-! ## Expressions -/

namespace Expr

mutual

/-- An expression with renamed constants, and with any sources. The constants are known to a
heap. -/
inductive Mirrors (ρ : Renaming) (h : Heap) : Expr → Expr → Prop
  | constant {v : Value} : h.Has v → Mirrors ρ h (.constant v) (.constant (v.rename ρ))
  | argument (index : Nat) : Mirrors ρ h (.argument index) (.argument index)
  | global (name : String) : Mirrors ρ h (.global name) (.global name)
  | conditional {test test' yes yes' no no' : Expr} : Mirrors ρ h test test' →
      Mirrors ρ h yes yes' → Mirrors ρ h no no' →
      Mirrors ρ h (.conditional test yes no) (.conditional test' yes' no')
  | sequence {first first' second second' : Expr} : Mirrors ρ h first first' →
      Mirrors ρ h second second' → Mirrors ρ h (.sequence first second) (.sequence first' second')
  | define (name : String) {value value' : Expr} : Mirrors ρ h value value' →
      Mirrors ρ h (.define name value) (.define name value')
  | send (selector : String) {operands operands' : List Expr} : MirrorsAll ρ h operands operands' →
      Mirrors ρ h (.send selector operands) (.send selector operands')
  | perform {receiver receiver' selector selector' : Expr} {args args' : List Expr} :
      Mirrors ρ h receiver receiver' → MirrorsAll ρ h args args' →
      Mirrors ρ h selector selector' →
      Mirrors ρ h (.perform receiver args selector) (.perform receiver' args' selector')
  | method (name : String) (argCount : Nat) {body body' : Expr} (source source' : Option Location) :
      Mirrors ρ h body body' →
      Mirrors ρ h (.method name argCount body source) (.method name argCount body' source')

inductive MirrorsAll (ρ : Renaming) (h : Heap) : List Expr → List Expr → Prop
  | nil : MirrorsAll ρ h [] []
  | cons {e e' : Expr} {es es' : List Expr} : Mirrors ρ h e e' → MirrorsAll ρ h es es' →
      MirrorsAll ρ h (e :: es) (e' :: es')

end

variable {ρ : Renaming} {h k : Heap}

theorem MirrorsAll.of_forall₂ {es es' : List Expr}
    (each : List.Forall₂ (Mirrors ρ h) es es') : MirrorsAll ρ h es es' := by
  induction each with
  | nil => exact .nil
  | cons first _ ih => exact .cons first ih

theorem MirrorsAll.length_eq {es es' : List Expr} (mirrors : MirrorsAll ρ h es es') :
    es'.length = es.length := by
  match mirrors with
  | .nil => rfl
  | .cons _ others => exact congrArg Nat.succ others.length_eq

theorem mirrors_inSequence {es es' : List Expr} (each : List.Forall₂ (Mirrors ρ h) es es') :
    Mirrors ρ h (inSequence es) (inSequence es') := by
  induction each with
  | nil => exact .constant trivial
  | cons first others ih =>
    cases others with
    | nil => exact first
    | cons _ _ =>
      rw [inSequence_cons_cons, inSequence_cons_cons]
      exact .sequence first ih

theorem mirrors_ofSymbol (params : List String) (name : String) :
    Mirrors ρ h (ofSymbol params name) (ofSymbol params name) := by
  unfold ofSymbol
  split
  · exact .argument _
  · exact .global name

theorem mirrors_classDefinition (name base : String) :
    Mirrors ρ h (classDefinition name base) (classDefinition name base) :=
  .send _ (.cons (.global base) (.cons (.constant (v := .symbol name) trivial) .nil))

theorem mirrors_methodDefinition (className selector : String) (argCount : Nat)
    {body body' : Expr} (source source' : Option Location) (mirrors : Mirrors ρ h body body') :
    Mirrors ρ h (methodDefinition className selector argCount body source)
      (methodDefinition className selector argCount body' source') :=
  .send _ (.cons (.global className) (.cons (.constant (v := .symbol selector) trivial)
    (.cons (.method _ argCount source source' mirrors) .nil)))

/-! ### Forms -/

theorem both_mapM {compile compile' : Value → Except Error Expr} {vs : List Value}
    (each : ∀ x ∈ vs, Both (Mirrors ρ h) (compile x) (compile' (x.rename ρ))) :
    Both (List.Forall₂ (Mirrors ρ h)) (vs.mapM compile) ((vs.map (·.rename ρ)).mapM compile') :=
  .mapM (List.forall₂_map_right_iff.2 (List.forall₂_same.2 each))

/-- A form that is not a method definition is copied if its operands are. -/
theorem both_ofForm {compile compile' : Value → Except Error Expr}
    {location location' : Option Location} {operands : List Value} (head : Head)
    (each : ∀ x ∈ operands, h.Has x ∧ Both (Mirrors ρ h) (compile x) (compile' (x.rename ρ))) :
    Both (Mirrors ρ h) (ofForm head operands compile fun flaw => .error ⟨flaw, location⟩)
      (ofForm head (operands.map (·.rename ρ)) compile' fun flaw => .error ⟨flaw, location'⟩) := by
  cases head with
  | quote =>
    match operands with
    | [datum] => exact .ok (.constant (each datum (by simp)).1)
    | [] | _ :: _ :: _ => exact .error _ _
  | conditional =>
    match operands with
    | [test, yes] =>
      exact (each test (by simp)).2.bind fun _ _ tests =>
        (each yes (by simp)).2.bind fun _ _ takes =>
        .ok (.conditional tests takes (.constant (v := .nil) trivial))
    | [test, yes, no] =>
      exact (each test (by simp)).2.bind fun _ _ tests =>
        (each yes (by simp)).2.bind fun _ _ takes =>
        (each no (by simp)).2.bind fun _ _ skips => .ok (.conditional tests takes skips)
    | [] | [_] | _ :: _ :: _ :: _ :: _ => exact .error _ _
  | sequence => 
    exact (both_mapM fun x member => (each x member).2).bind fun _ _ bodies =>
      .ok (mirrors_inSequence bodies)
  | define =>
    match operands with
    | [defined, value] =>
      cases defined with
      | symbol name =>
        exact (each value (by simp)).2.bind fun _ _ values => .ok (.define name values)
      | _ => exact .error _ _
    | [] => exact .error _ _
    | [x] | x :: _ :: _ :: _ => cases x <;> exact .error _ _
  | perform =>
    match operands with
    | receiver :: selector :: args =>
      have others := both_mapM fun x (member : x ∈ args) => (each x (by simp [member])).2
      exact (each receiver (by simp)).2.bind fun _ _ receives => others.bind fun _ _ all =>
        (each selector (by simp)).2.bind fun _ _ selects =>
          .ok (.perform receives (.of_forall₂ all) selects)
    | [] | [_] => exact .error _ _
  | defineClass =>
    match operands with
    | [defined] =>
      cases defined with
      | symbol name => exact .ok (mirrors_classDefinition name _)
      | _ => exact .error _ _
    | [defined, base] =>
      cases defined with
      | symbol name =>
        cases base with
        | symbol base => exact .ok (mirrors_classDefinition name base)
        | _ => exact .error _ _
      | _ => exact .error _ _
    | [] => exact .error _ _
    | x :: y :: _ :: _ => cases x <;> cases y <;> exact .error _ _
  | defineMethod => exact .error _ _
  | selector name =>
    cases operands with
    | nil => exact .ok (.send name (.cons (.constant (v := .nil) trivial) .nil))
    | cons x rest =>
      exact (both_mapM fun x member => (each x member).2).bind fun _ _ operands =>
        .ok (.send name (.of_forall₂ operands))

/-! ### Method definitions -/

theorem parameterNames_rename (ρ : Renaming) (seen : List String) (vs : List Value) :
    parameterNames seen (vs.map (·.rename ρ)) = parameterNames seen vs := by
  induction vs generalizing seen with
  | nil => rfl
  | cons v rest ih =>
    cases v with
    | symbol name =>
      rw [List.map_cons, Value.rename_symbol, parameterNames, parameterNames, ih]
    | _ => rfl

theorem signature_copied {v : Value} (copies : Heap.Copies ρ h k v) :
    signature k (v.rename ρ) = signature h v := by
  unfold signature
  rw [copies.elements?]
  match h.elements? v with
  | none | some [] | some [_] => rfl
  | some (selector :: receiver :: others) =>
    have params := parameterNames_rename ρ [] (receiver :: others)
    simp only [Option.map_some, List.map_cons, Value.asSymbol?_rename] at params ⊢
    rw [params]

/-- The parts are the same, and the forms of the body are copied. -/
theorem methodParts_copied {operands : List Value}
    (each : ∀ x ∈ operands, Heap.Copies ρ h k x) :
    methodParts k (operands.map (·.rename ρ)) = (methodParts h operands).map
      fun parts => (parts.1, parts.2.1, parts.2.2.1, parts.2.2.2.map (·.rename ρ)) := by
  match operands with
  | [] | [_] => rfl
  | className :: sign :: body =>
    have signs := signature_copied (each sign (by simp))
    simp only [methodParts, List.map_cons, Value.asSymbol?_rename, signs]
    cases className.asSymbol? with
    | none => rfl
    | some className => cases signature h sign <;> rfl

/-! ### Values -/

/-- A copy is understood as the value is. -/
theorem both_ofValueWithin {v : Value} (fuel fuel' : Nat) (params : List String)
    (outer outer' : Option Location) (copies : Heap.Copies ρ h k v) (within : h.Within fuel v)
    (within' : k.Within fuel' (v.rename ρ)) :
    Both (Mirrors ρ h) (ofValueWithin h fuel params outer v)
      (ofValueWithin k fuel' params outer' (v.rename ρ)) := by
  induction fuel generalizing fuel' params outer outer' v with
  | zero =>
    cases v with
    | pair r =>
      cases within with
      | atom apart => cases apart
    | symbol name =>
      cases fuel' <;> exact .ok (mirrors_ofSymbol params name)
    | _ =>
      cases fuel' <;> exact .ok (.constant copies.has)
  | succ fuel ih =>
    cases v with
    | symbol name => cases fuel' <;> exact .ok (mirrors_ofSymbol params name)
    | pair r =>
      cases fuel' with
      | zero =>
        cases within' with
        | atom apart => cases apart
      | succ fuel' =>
        have found' := copies.elements?
        rw [Value.rename_pair] at found' ⊢
        unfold ofValueWithin
        rw [found']
        cases found : h.elements? (.pair r) with
        | none => exact .error _ _
        | some elements =>
          have listed := (Heap.elements?_eq_some_iff copies.acyclic.within).1 found
          obtain ⟨listed', copied⟩ := listed.copied copies
          have each (x : Value) (member : x ∈ elements) (params : List String)
              (outer outer' : Option Location) :
              Both (Mirrors ρ h) (ofValueWithin h fuel params outer x)
                (ofValueWithin k fuel' params outer' (x.rename ρ)) :=
            ih fuel' params outer outer' (copied x member) (listed.within within x member)
              (listed'.within within' _ (List.mem_map_of_mem member))
          cases elements with
          | nil => exact .error _ _
          | cons head operands =>
            simp only [Option.map_some, List.map_cons, Value.asSymbol?_rename]
            cases head.asSymbol?.map Head.ofName with
            | none => exact .error _ _
            | some kind =>
              cases kind with
              | defineMethod =>
                have parts := methodParts_copied fun x (member : x ∈ operands) =>
                  copied x (List.mem_cons_of_mem _ member)
                simp only [parts]
                cases taken : methodParts h operands with
                | error flaw => exact .error _ _
                | ok parts =>
                  obtain ⟨className, selector, params, body⟩ := parts
                  obtain ⟨sign, rfl, -⟩ := methodParts_spec taken
                  have bodies := both_mapM fun x (member : x ∈ body) =>
                    each x (by simp [member]) params ((h.pair r).source.or outer)
                      ((k.pair (ρ.pair r)).source.or outer')
                  exact bodies.bind fun _ _ bodies =>
                    .ok (mirrors_methodDefinition _ _ _ _ _ (mirrors_inSequence bodies))
              | _ =>
                refine both_ofForm _ fun x member => ?_
                have member := List.mem_cons_of_mem head member
                exact ⟨(copied x member).has, each x member _ _ _⟩
    | _ => cases fuel' <;> exact .ok (.constant copies.has)

theorem both_ofValue {v : Value} (location location' : Option Location)
    (copies : Heap.Copies ρ h k v) :
    Both (Mirrors ρ h) (ofValue h location v) (ofValue k location' (v.rename ρ)) :=
  both_ofValueWithin _ _ [] _ _ copies (copies.acyclic.within.mono (Nat.le_succ _))
    (copies.acyclic_rename.within.mono (Nat.le_succ _))

end Expr

/-! ## Methods that are made -/

/-- Both heaps have been given methods and nothing else. There are as many in the one as in the
other, and of the new ones the one heap's are mirrored by the other's. -/
structure Heap.MakesAlike (ρ : Renaming) (h k h' k' : Heap) : Prop where
  data : { h' with methods := h.methods } = h
  data' : { k' with methods := k.methods } = k
  older : ∀ {place : Nat} {m : Method}, h.methods[place]? = some m → h'.methods[place]? = some m
  older' : ∀ {place : Nat} {m : Method}, k.methods[place]? = some m → k'.methods[place]? = some m
  size : h'.methods.size = k'.methods.size
  grows : h.methods.size ≤ h'.methods.size
  newer : ∀ {place : Nat} {m : Method}, h.methods.size ≤ place → h'.methods[place]? = some m →
    ∃ m', k'.methods[place]? = some m' ∧ m.Mirrors ρ m' ∧ ∀ v ∈ m.constants, h'.Has v

namespace Heap.MakesAlike

variable {ρ : Renaming} {h h₁ h₂ k k₁ k₂ : Heap} {v : Value}

theorem widens (makes : MakesAlike ρ h k h₁ k₁) : h.Widens h₁ := by
  have pairs := congrArg Heap.pairs makes.data
  have strings := congrArg Heap.strings makes.data
  have primitives := congrArg Heap.primitives makes.data
  exact ⟨(congrArg Array.size pairs).ge, (congrArg Array.size strings).ge, makes.grows, primitives⟩

theorem nothing (size : h.methods.size = k.methods.size) : MakesAlike ρ h k h k where
  data := rfl
  data' := rfl
  older := id
  older' := id
  size := size
  grows := le_rfl
  newer beyond held := by
    rw [Array.getElem?_eq_none beyond] at held
    cases held

theorem trans (first : MakesAlike ρ h k h₁ k₁) (second : MakesAlike ρ h₁ k₁ h₂ k₂) :
    MakesAlike ρ h k h₂ k₂ where
  data := (congrArg (fun g : Heap => { g with methods := h.methods }) second.data).trans first.data
  data' :=
    (congrArg (fun g : Heap => { g with methods := k.methods }) second.data').trans first.data'
  older held := second.older (first.older held)
  older' held := second.older' (first.older' held)
  size := second.size
  grows := first.grows.trans second.grows
  newer := by
    intro place m beyond held
    by_cases early : place < h₁.methods.size
    · have same := second.older (Array.getElem?_eq_getElem early)
      cases held.symm.trans same
      obtain ⟨m', held', mirrors, known⟩ := first.newer beyond (Array.getElem?_eq_getElem early)
      exact ⟨m', second.older' held', mirrors, fun v member => (known v member).mono second.widens⟩
    · exact second.newer (Nat.le_of_not_lt early) held

theorem method {m m' : Method} (size : h.methods.size = k.methods.size) (mirrors : m.Mirrors ρ m')
    (known : ∀ v ∈ m.constants, h.Has v) :
    MakesAlike ρ h k (h.allocMethod m).1 (k.allocMethod m').1 where
  data := rfl
  data' := rfl
  older := getElem?_push_of_some m
  older' := getElem?_push_of_some m'
  size := by
    show (h.methods.push m).size = (k.methods.push m').size
    rw [Array.size_push, Array.size_push, size]
  grows := (h.widens_allocMethod m).methods
  newer := by
    intro place m₁ beyond held
    have held : (h.methods.push m)[place]? = some m₁ := held
    rw [Array.getElem?_push] at held
    split at held
    next last =>
      cases held
      refine ⟨m', ?_, mirrors, fun v member => (known v member).mono (h.widens_allocMethod m)⟩
      rw [last, size]
      exact Array.getElem?_push_size
    next =>
      rw [Array.getElem?_eq_none beyond] at held
      cases held

theorem exists_methods (makes : MakesAlike ρ h k h₁ k₁) :
    ∃ methods, h₁ = { h with methods := methods } :=
  ⟨h₁.methods, congrArg (fun g : Heap => { g with methods := h₁.methods }) makes.data⟩

theorem closed (makes : MakesAlike ρ h k h₁ k₁) (closed : h.Closed) : h₁.Closed := by
  have widens := makes.widens
  have constants : ∀ (r : Ref .method) m, h₁.methods[r.index]? = some m →
      ∀ v ∈ m.constants, h₁.Has v := by
    intro r m held v member
    by_cases old : r.index < h.methods.size
    · have held' := Array.getElem?_eq_getElem old
      cases held.symm.trans (makes.older held')
      exact (closed.constants r _ held' v member).mono widens
    · obtain ⟨-, -, -, known⟩ := makes.newer (Nat.le_of_not_lt old) held
      exact known v member
  obtain ⟨methods, rfl⟩ := makes.exists_methods
  exact
    { pairs := fun r cell held => (closed.pairs r cell held).imp (·.mono widens) (·.mono widens)
      constants := constants
      handlers := fun c selector callable member =>
        (closed.handlers c selector callable member).mono widens
      slots := fun o member entry inside => (closed.slots o member entry inside).mono widens }

/-- What was made is mirrored by a heap that mirrors what was before, and in which the others
were made. -/
theorem mirrors {u : Heap} (makes : MakesAlike ρ h k h₁ k₁) (mirrors : h.Mirrors ρ u)
    (made : ∀ {place : Nat} {m : Method}, k₁.methods[place]? = some m →
      u.methods[place]? = some m) : h₁.Mirrors ρ u := by
  have closed := makes.closed mirrors.closed
  have methods : ∀ (r : Ref .method) m, h₁.methods[r.index]? = some m →
      ∃ m', u.methods[r.index]? = some m' ∧ m.Mirrors ρ m' := by
    intro r m held
    by_cases old : r.index < h.methods.size
    · have held' := Array.getElem?_eq_getElem old
      cases held.symm.trans (makes.older held')
      exact mirrors.methods r _ held'
    · obtain ⟨m', held', alike, -⟩ := makes.newer (Nat.le_of_not_lt old) held
      exact ⟨m', made held', alike⟩
  obtain ⟨more, rfl⟩ := makes.exists_methods
  exact { mirrors with closed := closed, methods := methods }

end Heap.MakesAlike

/-! ## Assemblers -/

namespace Assembler

/-- The assembler of a method with renamed constants and another source. -/
def rename (ρ : Renaming) (source : Option Location) (a : Assembler) : Assembler :=
  { a with source := source, constants := a.constants.map (·.rename ρ) }

variable (ρ : Renaming) (source : Option Location) (a : Assembler)

/-- A constant is in the pool exactly if the renamed one is in the renamed pool. -/
theorem constant_rename (v : Value) :
    (a.rename ρ source).constant (v.rename ρ) = (a.constant v).rename ρ source := by
  have found : (a.constants.map (·.rename ρ)).findIdx? (·.identical (v.rename ρ)) =
      a.constants.findIdx? (·.identical v) := by
    rw [Array.findIdx?_map]
    exact congrArg (fun p => a.constants.findIdx? p) (funext fun w => Value.identical_rename ρ w v)
  unfold constant emitConstant addConstant
  simp only [rename, found]
  cases a.constants.findIdx? (·.identical v) with
  | some index => rfl
  | none => simp [emit, emitPart, Array.map_push]

/-- The layout has nothing to do with what the constants are. -/
theorem layout_rename : (a.rename ρ source).layout = a.layout := by
  have settled (rounds : Nat) (sizes : Array Nat) :
      (a.rename ρ source).settle rounds sizes = a.settle rounds sizes := by
    induction rounds generalizing sizes with
    | zero => rfl
    | succ rounds ih =>
      have grown : (a.rename ρ source).grow sizes = a.grow sizes := rfl
      unfold settle
      simp only [grown, ih]
  have sizes : (a.rename ρ source).sizes = a.sizes := settled _ _
  unfold layout
  simp only [sizes]
  rfl

theorem both_finish : Both (fun m m' => m.Mirrors ρ m' ∧ m.constants = a.constants) a.finish
    (a.rename ρ source).finish := by
  have size : (a.rename ρ source).constants.size = a.constants.size := Array.size_map
  have argCount : (a.rename ρ source).argCount = a.argCount := rfl
  unfold finish
  rw [layout_rename, size, argCount]
  cases a.layout with
  | error failure => exact .error _ _
  | ok code =>
    simp only
    cases StackDepth.maxStack code a.constants.size a.argCount with
    | error fault => exact .error _ _
    | ok maxStack => exact .ok ⟨⟨rfl, rfl, rfl, rfl, rfl⟩, rfl⟩

theorem mem_constants_constant {a : Assembler} {v w : Value}
    (member : w ∈ (a.constant v).constants) : w ∈ a.constants ∨ w = v := by
  unfold constant emitConstant addConstant at member
  cases found : a.constants.findIdx? (·.identical v) with
  | some index =>
    rw [found] at member
    exact .inl member
  | none =>
    rw [found] at member
    exact Array.mem_push.1 member

end Assembler

/-! ## Code -/

namespace Expr

open Assembler (Failure)

/-- What has become of two heaps and of the assemblers of two methods. -/
structure Emitted (ρ : Renaming) (h k : Heap) (out out' : Heap × Assembler) : Prop where
  makes : h.MakesAlike ρ k out.1 out'.1
  assembler : ∃ source, out'.2 = out.2.rename ρ source
  known : ∀ v ∈ out.2.constants, out.1.Has v

namespace Emitted

variable {ρ : Renaming} {g h k h₁ k₁ : Heap} {a a' : Assembler}

/-- Whatever is done to the assemblers that adds no constant. -/
theorem map (emitted : Emitted ρ h k (h₁, a) (k₁, a')) (f : Assembler → Assembler)
    (renamed : ∀ source, f (a.rename ρ source) = (f a).rename ρ source)
    (constants : (f a).constants = a.constants) : Emitted ρ h k (h₁, f a) (k₁, f a') where
  makes := emitted.makes
  assembler := by
    obtain ⟨source, rfl⟩ := emitted.assembler
    exact ⟨source, renamed source⟩
  known v member := emitted.known v (constants ▸ member)

theorem constant (emitted : Emitted ρ h k (h₁, a) (k₁, a')) {v : Value} (has : h₁.Has v) :
    Emitted ρ h k (h₁, a.constant v) (k₁, a'.constant (v.rename ρ)) where
  makes := emitted.makes
  assembler := by
    obtain ⟨source, rfl⟩ := emitted.assembler
    exact ⟨source, a.constant_rename ρ source v⟩
  known w member := by
    rcases Assembler.mem_constants_constant member with before | rfl
    · exact emitted.known w before
    · exact has

theorem emit (emitted : Emitted ρ h k (h₁, a) (k₁, a')) (operation : Operation) :
    Emitted ρ h k (h₁, a.emit operation) (k₁, a'.emit operation) :=
  emitted.map (·.emit operation) (fun _ => rfl) rfl

theorem emitPart (emitted : Emitted ρ h k (h₁, a) (k₁, a')) (part : Assembler.Part) :
    Emitted ρ h k (h₁, a.emitPart part) (k₁, a'.emitPart part) :=
  emitted.map (·.emitPart part) (fun _ => rfl) rfl

theorem bind (emitted : Emitted ρ h k (h₁, a) (k₁, a')) (label : Label) :
    Emitted ρ h k (h₁, a.bind label) (k₁, a'.bind label) :=
  emitted.map (·.bind label) (fun _ => rfl) rfl

theorem create (size : h.methods.size = k.methods.size) (name : String) (argCount : Int)
    (source source' : Option Location) :
    Emitted ρ h k (h, .create name argCount source) (k, .create name argCount source') where
  makes := .nothing size
  assembler :=
    ⟨source', congrArg (Assembler.mk name argCount source' #[] · {} 0) Array.map_empty.symm⟩
  known v member := absurd member (Array.not_mem_empty v)

/-- A finished method gets the next place in both heaps. -/
theorem finish (emitted : Emitted ρ h k (h₁, a) (k₁, a')) :
    Both (fun m m' => h.MakesAlike ρ k (h₁.allocMethod m).1 (k₁.allocMethod m').1 ∧
      (h₁.allocMethod m).1.Has (.callable (.method (h₁.allocMethod m).2)) ∧
      (k₁.allocMethod m').2 = (h₁.allocMethod m).2) a.finish a'.finish := by
  obtain ⟨source, same⟩ := emitted.assembler
  have same : a' = a.rename ρ source := same
  rw [same]
  have both := a.both_finish ρ source
  generalize a.finish = x, (a.rename ρ source).finish = y at both
  cases both with
  | error e d => exact .error e d
  | ok finished =>
    obtain ⟨mirrors, constants⟩ := finished
    have made := emitted.makes.trans
      (.method emitted.makes.size mirrors (constants ▸ emitted.known))
    exact .ok ⟨made, h₁.has_allocMethod _, congrArg Ref.mk emitted.makes.size.symm⟩

end Emitted

variable {ρ : Renaming} {g : Heap}

mutual

/-- Expressions that mirror each other have code that does. -/
theorem Mirrors.emit {e e' : Expr} {h k h₁ k₁ : Heap} {a a' : Assembler}
    (mirrors : Mirrors ρ g e e') (base : g.Widens h)
    (before : Emitted ρ h k (h₁, a) (k₁, a')) :
    Both (Emitted ρ h k) (e.emit h₁ a) (e'.emit k₁ a') := by
  match mirrors with
  | .constant has => exact .ok (before.constant ((has.mono base).mono before.makes.widens))
  | .argument index => exact .ok (before.emit _)
  | .global name => exact .ok ((before.constant (v := .symbol name) trivial).emit _)
  | .conditional tests takes skips =>
    have labelled : Emitted ρ h k (h₁, a.newLabel.1.newLabel.1) (k₁, a'.newLabel.1.newLabel.1) :=
      before.map (·.newLabel.1.newLabel.1) (fun _ => rfl) rfl
    have otherwise : a'.newLabel.2 = a.newLabel.2 := by
      obtain ⟨source, same⟩ := before.assembler
      cases same
      rfl
    have done : a'.newLabel.1.newLabel.2 = a.newLabel.1.newLabel.2 := by
      obtain ⟨source, same⟩ := before.assembler
      cases same
      rfl
    simp only [Expr.emit, otherwise, done]
    refine (tests.emit base labelled).bind fun out out' tested => ?_
    refine (takes.emit base (tested.emitPart _)).bind fun out out' taken => ?_
    refine (skips.emit base ((taken.emitPart _).bind _)).bind fun out out' skipped => ?_
    exact .ok (skipped.bind _)
  | .sequence firsts seconds =>
    simp only [Expr.emit]
    refine (firsts.emit base before).bind fun out out' first => ?_
    exact seconds.emit base (first.emit _)
  | .define name values =>
    simp only [Expr.emit]
    refine (values.emit base (before.constant (v := .symbol name) trivial)).bind
      fun out out' value => ?_
    exact .ok (value.emit _)
  | .send selector operands =>
    simp only [Expr.emit, operands.length_eq]
    refine (operands.emitAll base before).bind fun out out' given => ?_
    exact .ok ((given.constant (v := .symbol selector) trivial).emit _)
  | .perform receives args selects =>
    simp only [Expr.emit, args.length_eq]
    refine (receives.emit base before).bind fun out out' received => ?_
    refine (args.emitAll base received).bind fun out out' given => ?_
    refine (selects.emit base given).bind fun out out' selected => ?_
    exact .ok (selected.emit _)
  | .method name argCount source source' bodies =>
    simp only [Expr.emit]
    have start : Emitted ρ h₁ k₁ (h₁, .create name argCount source)
        (k₁, .create name argCount source') :=
      .create before.makes.size name argCount source source'
    refine (bodies.emit (base.trans before.makes.widens) start).bind fun out out' inner => ?_
    refine (inner.emit .leave).finish.bind fun m m' made => ?_
    obtain ⟨makes, has, same⟩ := made
    have outer : Emitted ρ h k ((out.1.allocMethod m).1, a) ((out'.1.allocMethod m').1, a') :=
      ⟨before.makes.trans makes, before.assembler,
        fun v member => (before.known v member).mono makes.widens⟩
    rw [same]
    exact .ok (outer.constant has)

theorem MirrorsAll.emitAll {es es' : List Expr} {h k h₁ k₁ : Heap} {a a' : Assembler}
    (mirrors : MirrorsAll ρ g es es') (base : g.Widens h)
    (before : Emitted ρ h k (h₁, a) (k₁, a')) :
    Both (Emitted ρ h k) (Expr.emitAll es h₁ a) (Expr.emitAll es' k₁ a') := by
  match mirrors with
  | .nil => exact .ok before
  | .cons first others =>
    simp only [Expr.emitAll]
    refine (first.emit base before).bind fun out out' given => ?_
    exact others.emitAll base given

end

end Expr

/-! ## Programs -/

namespace Heap

variable {ρ : Renaming} {h k : Heap} {v : Value}

/-- The same method has been added last to two heaps, with whatever methods belong to it. -/
structure CompilesAlike (ρ : Renaming) (h k : Heap) (out out' : Heap × Ref .method) : Prop where
  makes : h.MakesAlike ρ k out.1 out'.1
  program : out'.2 = out.2
  has : out.1.Has (.callable (.method out.2))

/-- A copy compiles to the program that the value compiles to, or neither has one. -/
theorem compile_copied (copies : Copies ρ h k v) (size : h.methods.size = k.methods.size)
    (location location' : Option Location) (name : String) :
    Both (CompilesAlike ρ h k) (h.compile v location name)
      (k.compile (v.rename ρ) location' name) := by
  have understood := Expr.both_ofValue location location' copies
  unfold compile
  generalize Expr.ofValue h location v = x, Expr.ofValue k location' (v.rename ρ) = y at understood
  cases understood with
  | error e d => exact .error _ _
  | @ok e e' mirrors =>
    have assembled : Both (CompilesAlike ρ h k) (e.program h name location)
        (e'.program k name location') := by
      refine (mirrors.emit (.refl h) (.create size name 0 location location')).bind
        fun out out' emitted => ?_
      refine (emitted.emit .leave).finish.bind fun m m' made => ?_
      obtain ⟨makes, has, same⟩ := made
      exact .ok ⟨makes, same, has⟩
    simp only
    generalize e.program h name location = x, e'.program k name location' = y at assembled
    cases assembled with
    | error f f' => exact .error _ _
    | ok compiled => exact .ok compiled

end Heap

end MessageMachine
