/-
# Compiling what was read elsewhere

The place of a form goes into errors about it and into the methods that it is compiled
to, and nothing else of it is used. So a form that was read from elsewhere compiles to the
same code with other sources, or is refused for the same reason somewhere else. This is
carried along the whole way: from the forms of a text over values and expressions to
the instructions of a method.
-/

import MessageMachine.Expr.Code
import MessageMachine.Proofs.Heap.Relocation

namespace MessageMachine

/-! ## Results and failures -/

/-- Change the failure or the result of a computation. -/
def bimap {ε δ α β : Type} (f : ε → δ) (g : α → β) : Except ε α → Except δ β
  | .error e => .error (f e)
  | .ok a => .ok (g a)

section

variable {ε δ α α' β β' : Type} {f : ε → δ} {g : α → α'} {k : β → β'}

theorem bimap_bind (x : Except ε α) {next : α → Except ε β} {next' : α' → Except δ β'}
    (each : ∀ a, next' (g a) = bimap f k (next a)) :
    (bimap f g x >>= next') = bimap f k (x >>= next) := by
  cases x with
  | error e => rfl
  | ok a => exact each a

theorem bimap_mapM {compile : β → Except ε α} {compile' : β → Except δ α'}
    (each : ∀ v, compile' v = bimap f g (compile v)) (list : List β) :
    list.mapM compile' = bimap f (List.map g) (list.mapM compile) := by
  induction list with
  | nil => rfl
  | cons v rest ih =>
    rw [List.mapM_cons, List.mapM_cons, each, ih]
    exact bimap_bind _ fun a => bimap_bind _ fun rest => rfl

end

/-! ## Expressions -/

namespace Expr

def Error.relocate (place : Location → Location) (e : Error) : Error :=
  { e with location := e.location.map place }

variable (place : Location → Location)

mutual

/-- The expression with the methods in it written somewhere else. -/
def relocate : Expr → Expr
  | constant v => constant v
  | argument index => argument index
  | global name => global name
  | conditional test yes no => conditional test.relocate yes.relocate no.relocate
  | sequence first second => sequence first.relocate second.relocate
  | define name value => define name value.relocate
  | send selector operands => send selector (relocateAll operands)
  | perform receiver args selector =>
    perform receiver.relocate (relocateAll args) selector.relocate
  | method name argCount body source =>
    method name argCount body.relocate (source.map place)

def relocateAll : List Expr → List Expr
  | [] => []
  | e :: rest => e.relocate :: relocateAll rest

end

theorem relocateAll_eq (es : List Expr) : relocateAll place es = es.map (·.relocate place) := by
  induction es with
  | nil => rfl
  | cons e rest ih => rw [relocateAll, ih, List.map_cons]

theorem length_relocateAll (es : List Expr) : (relocateAll place es).length = es.length := by
  rw [relocateAll_eq, List.length_map]

theorem relocate_inSequence (es : List Expr) :
    (inSequence es).relocate place = inSequence (es.map (·.relocate place)) := by
  induction es with
  | nil => rfl
  | cons first rest ih =>
    cases rest with
    | nil => rfl
    | cons second rest =>
      rw [inSequence_cons_cons, relocate, ih]
      exact (inSequence_cons_cons _ _ _).symm

variable {place}

/-- A form compiles alike if its operands do. -/
theorem ofForm_relocate {compile compile' : Value → Except Error Expr}
    {refuse refuse' : Flaw → Except Error Expr}
    (compiled : ∀ v, compile' v = bimap (.relocate place) (.relocate place) (compile v))
    (refused : ∀ flaw, refuse' flaw = bimap (.relocate place) (.relocate place) (refuse flaw))
    (head : Head) (operands : List Value) :
    ofForm head operands compile' refuse' =
      bimap (.relocate place) (.relocate place) (ofForm head operands compile refuse) := by
  have all := bimap_mapM compiled
  unfold ofForm
  split
  · rfl
  · exact refused _
  · simp only [compiled]
    exact bimap_bind _ fun test => bimap_bind _ fun yes => rfl
  · simp only [compiled]
    exact bimap_bind _ fun test => bimap_bind _ fun yes => bimap_bind _ fun no => rfl
  · exact refused _
  · rw [all]
    exact bimap_bind _ fun body => congrArg Except.ok (relocate_inSequence place body).symm
  · rw [compiled]
    exact bimap_bind _ fun value => rfl
  · exact refused _
  · exact refused _
  · rw [compiled, compiled, all]
    refine bimap_bind _ fun receiver => bimap_bind _ fun args => bimap_bind _ fun selector => ?_
    show _ = Except.ok (perform _ (relocateAll place args) _)
    rw [relocateAll_eq]
    rfl
  · exact refused _
  · rfl
  · rfl
  · exact refused _
  · exact refused _
  · exact refused _
  · rfl
  · rw [all]
    refine bimap_bind _ fun operands => ?_
    show _ = Except.ok (send _ (relocateAll place operands))
    rw [relocateAll_eq]
    rfl
  · exact refused _

variable (place) (h : Heap)

@[simp] theorem signature_relocate (v : Value) :
    signature (h.relocate place) v = signature h v := by
  simp only [signature, Heap.elements?_relocate]

@[simp] theorem methodParts_relocate (operands : List Value) :
    methodParts (h.relocate place) operands = methodParts h operands := by
  simp only [methodParts, signature_relocate]

theorem relocate_ofSymbol (params : List String) (name : String) :
    (ofSymbol params name).relocate place = ofSymbol params name := by
  unfold ofSymbol
  split
  · rfl
  · rfl

theorem ofValueWithin_relocate (fuel : Nat) (params : List String) (outer : Option Location)
    (v : Value) :
    ofValueWithin (h.relocate place) fuel params (outer.map place) v =
      bimap (.relocate place) (.relocate place) (ofValueWithin h fuel params outer v) := by
  induction fuel generalizing params outer v with
  | zero =>
    cases v with
    | symbol name => exact congrArg Except.ok (relocate_ofSymbol place params name).symm
    | _ => rfl
  | succ fuel ih =>
    cases v with
    | symbol name => exact congrArg Except.ok (relocate_ofSymbol place params name).symm
    | pair r =>
      have here : ((h.relocate place).pair r).source.or (outer.map place) =
          ((h.pair r).source.or outer).map place := by
        rw [Heap.pair_relocate]
        exact Option.map_or.symm
      unfold ofValueWithin
      simp only [here, Heap.elements?_relocate, methodParts_relocate]
      generalize (h.pair r).source.or outer = location
      cases h.elements? (.pair r) with
      | none => rfl
      | some elements =>
        cases elements with
        | nil => rfl
        | cons head operands =>
          simp only
          cases head.asSymbol?.map Head.ofName with
          | none => rfl
          | some kind =>
            cases kind with
            | defineMethod =>
              simp only
              cases methodParts h operands with
              | error flaw => rfl
              | ok parts =>
                obtain ⟨className, selector, params, body⟩ := parts
                simp only
                rw [bimap_mapM (ih params location)]
                refine bimap_bind _ fun body => congrArg Except.ok ?_
                rw [← relocate_inSequence]
                rfl
            | _ =>
              refine ofForm_relocate (ih params location) ?_ _ operands
              exact fun flaw => rfl
    | _ => rfl

/-- A value that was read elsewhere is an expression written elsewhere. -/
theorem ofValue_relocate (location : Option Location) (v : Value) :
    ofValue (h.relocate place) (location.map place) v =
      bimap (.relocate place) (.relocate place) (ofValue h location v) := by
  unfold ofValue
  rw [Heap.pairs_size_relocate]
  exact ofValueWithin_relocate place h _ _ _ _

end Expr

/-! ## Assemblers -/

namespace Assembler

/-- The assembler of a method that is written somewhere else. -/
def relocate (place : Location → Location) (a : Assembler) : Assembler :=
  { a with source := a.source.map place }

variable (place : Location → Location) (a : Assembler)

@[simp] theorem emitPart_relocate (part : Part) :
    (a.relocate place).emitPart part = (a.emitPart part).relocate place := rfl

@[simp] theorem emit_relocate (operation : Operation) :
    (a.relocate place).emit operation = (a.emit operation).relocate place := rfl

@[simp] theorem constant_relocate (v : Value) :
    (a.relocate place).constant v = (a.constant v).relocate place := by
  have here : (a.relocate place).constants = a.constants := rfl
  unfold constant emitConstant addConstant
  rw [here]
  cases a.constants.findIdx? (·.identical v) with
  | some index => rfl
  | none => rfl

@[simp] theorem loadGlobal_relocate (name : String) :
    (a.relocate place).loadGlobal name = (a.loadGlobal name).relocate place := by
  simp [loadGlobal]

@[simp] theorem send_relocate (selector : String) (count : Nat) :
    (a.relocate place).send selector count = (a.send selector count).relocate place := by
  simp [send]

@[simp] theorem newLabel_relocate :
    (a.relocate place).newLabel = (a.newLabel.1.relocate place, a.newLabel.2) := rfl

@[simp] theorem bind_relocate (label : Label) :
    (a.relocate place).bind label = (a.bind label).relocate place := rfl

theorem settle_relocate (rounds : Nat) (sizes : Array Nat) :
    (a.relocate place).settle rounds sizes = a.settle rounds sizes := by
  induction rounds generalizing sizes with
  | zero => rfl
  | succ rounds ih =>
    have grown : (a.relocate place).grow sizes = a.grow sizes := rfl
    unfold settle
    simp only [grown, ih]

/-- The layout of a method has nothing to do with its source. -/
theorem layout_relocate : (a.relocate place).layout = a.layout := by
  have sizes : (a.relocate place).sizes = a.sizes := settle_relocate place a _ _
  unfold layout
  simp only [sizes]
  rfl

theorem finish_relocate :
    (a.relocate place).finish = bimap id (·.relocate place) a.finish := by
  have constants : (a.relocate place).constants = a.constants := rfl
  have argCount : (a.relocate place).argCount = a.argCount := rfl
  unfold finish
  rw [layout_relocate, constants, argCount]
  cases a.layout with
  | error failure => rfl
  | ok code =>
    simp only
    cases StackDepth.maxStack code a.constants.size a.argCount with
    | error fault => rfl
    | ok maxStack => rfl

end Assembler

/-! ## Code -/

namespace Expr

open Assembler (Failure)

variable (place : Location → Location)

mutual

theorem emit_relocate (e : Expr) (h : Heap) (a : Assembler) :
    (e.relocate place).emit (h.relocate place) (a.relocate place) =
      bimap id (Prod.map (·.relocate place) (·.relocate place)) (e.emit h a) := by
  cases e with
  | constant v => simp [relocate, emit, bimap]
  | argument index => rfl
  | global name => simp [relocate, emit, bimap]
  | conditional test yes no =>
    simp only [relocate, emit, Assembler.newLabel_relocate]
    rw [emit_relocate test]
    refine bimap_bind _ fun (h, a) => ?_
    simp only [Prod.map, Assembler.emitPart_relocate]
    rw [emit_relocate yes]
    refine bimap_bind _ fun (h, a) => ?_
    simp only [Prod.map, Assembler.emitPart_relocate, Assembler.bind_relocate]
    rw [emit_relocate no]
    exact bimap_bind _ fun (h, a) => rfl
  | sequence first second =>
    simp only [relocate, emit]
    rw [emit_relocate first]
    refine bimap_bind _ fun (h, a) => ?_
    simp only [Prod.map, Assembler.emit_relocate]
    exact emit_relocate second _ _
  | define name value =>
    simp only [relocate, emit, Assembler.constant_relocate]
    rw [emit_relocate value]
    exact bimap_bind _ fun (h, a) => rfl
  | send selector operands =>
    simp only [relocate, emit]
    rw [emitAll_relocate operands]
    refine bimap_bind _ fun (h, a) => ?_
    simp only [Prod.map, length_relocateAll, Assembler.send_relocate]
    rfl
  | perform receiver args selector =>
    simp only [relocate, emit]
    rw [emit_relocate receiver]
    refine bimap_bind _ fun (h, a) => ?_
    simp only [Prod.map]
    rw [emitAll_relocate args]
    refine bimap_bind _ fun (h, a) => ?_
    simp only [Prod.map]
    rw [emit_relocate selector]
    refine bimap_bind _ fun (h, a) => ?_
    simp only [Prod.map, length_relocateAll, Assembler.emit_relocate]
    rfl
  | method name argCount body source =>
    simp only [relocate, emit]
    have start : Assembler.create name argCount (source.map place) =
        (Assembler.create name argCount source).relocate place := rfl
    rw [start, emit_relocate body]
    refine bimap_bind _ fun (h, inner) => ?_
    simp only [Prod.map, Assembler.emit_relocate, Assembler.finish_relocate]
    refine bimap_bind _ fun m => ?_
    simp only [Heap.allocMethod_relocate, Assembler.constant_relocate]
    rfl

theorem emitAll_relocate (es : List Expr) (h : Heap) (a : Assembler) :
    emitAll (relocateAll place es) (h.relocate place) (a.relocate place) =
      bimap id (Prod.map (·.relocate place) (·.relocate place)) (emitAll es h a) := by
  cases es with
  | nil => rfl
  | cons e rest =>
    simp only [relocateAll, emitAll]
    rw [emit_relocate e]
    refine bimap_bind _ fun (h, a) => ?_
    exact emitAll_relocate rest _ _

end

theorem program_relocate (e : Expr) (h : Heap) (name : String) (source : Option Location) :
    (e.relocate place).program (h.relocate place) name (source.map place) =
      bimap id (Prod.map (·.relocate place) id) (e.program h name source) := by
  have start : Assembler.create name 0 (source.map place) =
      (Assembler.create name 0 source).relocate place := rfl
  unfold program
  rw [start, emit_relocate]
  refine bimap_bind _ fun (h, a) => ?_
  simp only [Prod.map, Assembler.emit_relocate, Assembler.finish_relocate]
  refine bimap_bind _ fun m => ?_
  rw [Heap.allocMethod_relocate]
  rfl

end Expr

/-! ## Values -/

def CompileFailure.relocate (place : Location → Location) : CompileFailure → CompileFailure
  | rejected e => rejected (e.relocate place)
  | assembly f => assembly f

/-- A value that was read elsewhere is compiled elsewhere, in the same way. -/
theorem Heap.compile_relocate (place : Location → Location) (h : Heap) (v : Value)
    (location : Option Location) (name : String) :
    (h.relocate place).compile v (location.map place) name =
      bimap (.relocate place) (Prod.map (·.relocate place) id) (h.compile v location name) := by
  unfold compile
  rw [Expr.ofValue_relocate]
  cases Expr.ofValue h location v with
  | error e => rfl
  | ok e =>
    simp only [bimap]
    rw [Expr.program_relocate]
    cases e.program h name location with
    | error f => rfl
    | ok compiled => rfl

end MessageMachine
