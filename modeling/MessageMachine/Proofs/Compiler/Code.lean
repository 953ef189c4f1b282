/-
# Code of forms

Where the code of a form lies among the parts of a method, and what it consists of.
`Codes a params form p q` says that the parts of `a` from `p` up to `q` are code of the
form, its symbols resolved against the parameters.

Collecting parts only ever adds to them, except that a label gets its place after the
jumps to it have been emitted. `Emits` therefore says what an emission guarantees in
terms of the finished method: whatever is added later, as long as the labels that the
emission has made stay where they are, the parts that it has added are the code.
-/

import MessageMachine.Assembler
import MessageMachine.Proofs.Compiler.Evaluation

namespace MessageMachine

namespace Assembler

/-! ## Parts -/

/-- A part stands at a place. -/
def At (a : Assembler) (place : Nat) (part : Part) : Prop :=
  a.parts[place]? = some part

/-- The part at a place pushes a constant. -/
def Loads (a : Assembler) (v : Value) (place : Nat) : Prop :=
  ∃ index, a.At place (.plain (.loadConstant index)) ∧ a.constants[index]? = some v

/-- The two parts at a place look up a global. -/
def LoadsGlobal (a : Assembler) (name : String) (place : Nat) : Prop :=
  a.Loads (.symbol name) place ∧ a.At (place + 1) (.plain .loadGlobal)

theorem At.lt {a : Assembler} {place : Nat} {part : Part} (here : a.At place part) :
    place < a.parts.size :=
  (Array.getElem?_eq_some_iff.1 here).1

/-! ## Methods that grow -/

/-- Everything that was collected is kept, and so are the places of labels in a range. -/
structure Keeps (low high : Nat) (a b : Assembler) : Prop where
  name : b.name = a.name
  argCount : b.argCount = a.argCount
  size : a.parts.size ≤ b.parts.size
  parts : ∀ place part, a.At place part → b.At place part
  constants : ∀ (index : Nat) v, a.constants[index]? = some v → b.constants[index]? = some v
  labels : ∀ index, low ≤ index → index < high → b.place? ⟨index⟩ = a.place? ⟨index⟩

namespace Keeps

variable {low high low' high' : Nat} {a b c : Assembler}

theorem refl (a : Assembler) (low high : Nat) : Keeps low high a a :=
  ⟨rfl, rfl, Nat.le_refl _, fun _ _ here => here, fun _ _ here => here, fun _ _ _ => rfl⟩

theorem trans (first : Keeps low high a b) (second : Keeps low high b c) : Keeps low high a c where
  name := second.name.trans first.name
  argCount := second.argCount.trans first.argCount
  size := Nat.le_trans first.size second.size
  parts := fun place part here => second.parts place part (first.parts place part here)
  constants := fun index v here => second.constants index v (first.constants index v here)
  labels := fun index above below =>
    (second.labels index above below).trans (first.labels index above below)

theorem mono (keeps : Keeps low high a b) (above : low ≤ low') (below : high' ≤ high) :
    Keeps low' high' a b where
  name := keeps.name
  argCount := keeps.argCount
  size := keeps.size
  parts := keeps.parts
  constants := keeps.constants
  labels := fun index ge lt =>
    keeps.labels index (Nat.le_trans above ge) (Nat.lt_of_lt_of_le lt below)

theorem emitPart (a : Assembler) (part : Part) (low high : Nat) :
    Keeps low high a (a.emitPart part) where
  name := rfl
  argCount := rfl
  size := by simp [Assembler.emitPart]
  parts := by
    intro place other here
    show (a.parts.push part)[place]? = some other
    rw [Array.getElem?_push_lt here.lt, ← Array.getElem?_eq_getElem here.lt]
    exact here
  constants := fun _ _ here => here
  labels := fun _ _ _ => rfl

/-- Binding a label moves no other. -/
theorem bind (a : Assembler) (label : Label) (low high : Nat)
    (outside : label.index < low ∨ high ≤ label.index) : Keeps low high a (a.bind label) where
  name := rfl
  argCount := rfl
  size := Nat.le_refl _
  parts := fun _ _ here => here
  constants := fun _ _ here => here
  labels := by
    intro index above below
    have other : label.index ≠ index := by omega
    unfold place? Assembler.bind
    rw [Std.TreeMap.getElem?_insert]
    rw [if_neg (fun same => other (Nat.compare_eq_eq.1 same))]

theorem newLabel (a : Assembler) (low high : Nat) : Keeps low high a a.newLabel.1 :=
  ⟨rfl, rfl, Nat.le_refl _, fun _ _ here => here, fun _ _ here => here, fun _ _ _ => rfl⟩

end Keeps

theorem place?_bind (a : Assembler) (label : Label) :
    (a.bind label).place? label = some a.parts.size := by
  unfold place? Assembler.bind
  rw [Std.TreeMap.getElem?_insert_self]

end Assembler

open Assembler

/-! ## Code -/

section

variable (a : Assembler) (params : List String)

mutual

/-- The parts from one place up to another are code of a form. -/
def Codes (form : Form) (start stop : Nat) : Prop :=
  match form with
  | .datum v => a.Loads v start ∧ stop = start + 1
  | .symbol name =>
    match params.idxOf? name with
    | some index => a.At start (.plain (.loadArgument index)) ∧ stop = start + 1
    | none => a.LoadsGlobal name start ∧ stop = start + 2
  | .global name => a.LoadsGlobal name start ∧ stop = start + 2
  | .conditional test yes no =>
    ∃ branch leap otherwise done, Codes test start branch ∧
      a.At branch (.jumpIfFalse otherwise) ∧ Codes yes (branch + 1) leap ∧
      a.At leap (.jump done) ∧ a.place? otherwise = some (leap + 1) ∧
      Codes no (leap + 1) stop ∧ a.place? done = some stop
  | .sequence forms => CodesInOrder forms start stop
  | .define name value =>
    ∃ last, a.Loads (.symbol name) start ∧ Codes value (start + 1) last ∧
      a.At last (.plain .defineGlobal) ∧ stop = last + 1
  | .message selector operands =>
    operands ≠ [] ∧ ∃ last, CodesAll operands start last ∧ a.Loads (.symbol selector) last ∧
      a.At (last + 1) (.plain (.call operands.length)) ∧ stop = last + 2
  | .computed receiver args selector =>
    ∃ next late last, Codes receiver start next ∧ CodesAll args next late ∧
      Codes selector late last ∧ a.At last (.plain (.call (args.length + 1))) ∧ stop = last + 1

/-- The parts between two places are code of forms, one after the other. -/
def CodesAll (forms : List Form) (start stop : Nat) : Prop :=
  match forms with
  | [] => stop = start
  | form :: rest => ∃ next, Codes form start next ∧ CodesAll rest next stop

/-- The parts between two places are code of forms of which the last one counts. -/
def CodesInOrder (forms : List Form) (start stop : Nat) : Prop :=
  match forms with
  | [] => a.Loads .nil start ∧ stop = start + 1
  | [form] => Codes form start stop
  | form :: next :: rest =>
    ∃ last, Codes form start last ∧ a.At last (.plain .pop) ∧
      CodesInOrder (next :: rest) (last + 1) stop

end

end

/-! ## Extent -/

variable {a : Assembler} {params : List String}

theorem Assembler.LoadsGlobal.lt {name : String} {place : Nat}
    (here : a.LoadsGlobal name place) : place + 2 ≤ a.parts.size :=
  here.2.lt

theorem Assembler.Loads.lt {v : Value} {place : Nat} (here : a.Loads v place) :
    place < a.parts.size := by
  obtain ⟨index, there, -⟩ := here
  exact there.lt

mutual

/-- Every form has code, and it lies within the method. -/
theorem Codes.bounds (form : Form) {start stop : Nat} (codes : Codes a params form start stop) :
    start < stop ∧ stop ≤ a.parts.size := by
  match form with
  | .datum v =>
    obtain ⟨loads, rfl⟩ := codes
    exact ⟨Nat.lt_succ_self _, loads.lt⟩
  | .symbol name =>
    simp only [Codes] at codes
    split at codes
    · obtain ⟨loads, rfl⟩ := codes
      exact ⟨Nat.lt_succ_self _, loads.lt⟩
    · obtain ⟨loads, rfl⟩ := codes
      exact ⟨by omega, loads.lt⟩
  | .global name =>
    obtain ⟨loads, rfl⟩ := codes
    exact ⟨by omega, loads.lt⟩
  | .conditional test yes no =>
    obtain ⟨branch, leap, otherwise, done, tested, -, taken, -, -, other, -⟩ := codes
    have first := Codes.bounds test tested
    have second := Codes.bounds yes taken
    have third := Codes.bounds no other
    omega
  | .sequence forms => exact CodesInOrder.bounds forms codes
  | .define name value =>
    obtain ⟨last, -, evaluated, defines, rfl⟩ := codes
    have inner := Codes.bounds value evaluated
    have end_ := defines.lt
    omega
  | .message selector operands =>
    obtain ⟨-, last, evaluated, -, calls, rfl⟩ := codes
    have inner := CodesAll.bounds operands evaluated
    have end_ := calls.lt
    omega
  | .computed receiver args selector =>
    obtain ⟨next, late, last, first, others, selected, calls, rfl⟩ := codes
    have inner := Codes.bounds receiver first
    have middle := CodesAll.bounds args others
    have outer := Codes.bounds selector selected
    have end_ := calls.lt
    omega

theorem CodesAll.bounds (forms : List Form) {start stop : Nat}
    (codes : CodesAll a params forms start stop) : start ≤ stop := by
  match forms with
  | [] => exact Nat.le_of_eq codes.symm
  | form :: rest =>
    obtain ⟨next, first, others⟩ := codes
    have inner := Codes.bounds form first
    have outer := CodesAll.bounds rest others
    omega

theorem CodesInOrder.bounds (forms : List Form) {start stop : Nat}
    (codes : CodesInOrder a params forms start stop) : start < stop ∧ stop ≤ a.parts.size := by
  match forms with
  | [] =>
    obtain ⟨loads, rfl⟩ := codes
    exact ⟨Nat.lt_succ_self _, loads.lt⟩
  | [form] => exact Codes.bounds form codes
  | form :: next :: rest =>
    obtain ⟨last, first, -, others⟩ := codes
    have inner := Codes.bounds form first
    have outer := CodesInOrder.bounds (next :: rest) others
    omega

end

/-! ## Emission -/

/-- What was added on the way from `a` to `b` is code, in every method that keeps it. -/
structure Emits (a b : Assembler) (code : Assembler → Nat → Nat → Prop) : Prop where
  labelCount : a.labelCount ≤ b.labelCount
  keeps : Keeps 0 a.labelCount a b
  codes : ∀ c, Keeps a.labelCount b.labelCount b c → code c a.parts.size b.parts.size

namespace Emits

variable {b c : Assembler} {code code' : Assembler → Nat → Nat → Prop}

theorem mono (emits : Emits a b code)
    (implies : ∀ c start stop, code c start stop → code' c start stop) : Emits a b code' :=
  ⟨emits.labelCount, emits.keeps, fun c kept => implies c _ _ (emits.codes c kept)⟩

theorem andThen (first : Emits a b code) (second : Emits b c code') :
    Emits a c fun d start stop => ∃ next, code d start next ∧ code' d next stop where
  labelCount := Nat.le_trans first.labelCount second.labelCount
  keeps := first.keeps.trans (second.keeps.mono (Nat.le_refl _) first.labelCount)
  codes := fun d kept =>
    ⟨b.parts.size,
      first.codes d ((second.keeps.mono (Nat.zero_le _) (Nat.le_refl _)).trans
        (kept.mono (Nat.le_refl _) second.labelCount)),
      second.codes d (kept.mono first.labelCount (Nat.le_refl _))⟩

/-- Nothing has been emitted. -/
theorem nothing (a : Assembler) : Emits a a fun _ start stop => stop = start where
  labelCount := Nat.le_refl _
  keeps := .refl a _ _
  codes := fun _ _ => rfl

theorem emitPart (a : Assembler) (part : Assembler.Part) :
    Emits a (a.emitPart part) fun c start stop => c.At start part ∧ stop = start + 1 where
  labelCount := Nat.le_refl _
  keeps := .emitPart a part _ _
  codes := by
    intro c kept
    have here : (a.emitPart part).At a.parts.size part := Array.getElem?_push_size
    exact ⟨kept.parts _ _ here, Array.size_push _⟩

theorem emit (a : Assembler) (op : Operation) :
    Emits a (a.emit op) fun c start stop => c.At start (.plain op) ∧ stop = start + 1 :=
  .emitPart a (.plain op)

/-- A constant is found in the pool or put there. -/
theorem addConstant (a : Assembler) (v : Value) :
    (a.addConstant v).1.constants[(a.addConstant v).2]? = some v ∧
      (a.addConstant v).1.labelCount = a.labelCount ∧ (a.addConstant v).1.parts = a.parts ∧
      Keeps 0 a.labelCount a (a.addConstant v).1 := by
  unfold Assembler.addConstant
  split
  next index found =>
    refine ⟨?_, rfl, rfl, .refl a _ _⟩
    rw [Array.findIdx?_eq_some_iff_getElem] at found
    obtain ⟨lt, same, -⟩ := found
    have same' : a.constants[index] = v := (of_decide_eq_true same).1
    rw [Array.getElem?_eq_getElem lt, same']
  next =>
    refine ⟨Array.getElem?_push_size, rfl, rfl, rfl, rfl, Nat.le_refl _, fun _ _ here => here, ?_,
      fun _ _ _ => rfl⟩
    intro index w here
    have lt := (Array.getElem?_eq_some_iff.1 here).1
    rw [Array.getElem?_push_lt lt, ← Array.getElem?_eq_getElem lt]
    exact here

theorem constant (a : Assembler) (v : Value) :
    Emits a (a.constant v) fun c start stop => c.Loads v start ∧ stop = start + 1 := by
  obtain ⟨pooled, labels, parts, kept⟩ := addConstant a v
  have loads := emit (a.addConstant v).1 (.loadConstant (a.addConstant v).2)
  rw [← labels] at kept
  refine ⟨labels ▸ loads.labelCount, labels ▸ kept.trans loads.keeps, fun c keeps => ?_⟩
  obtain ⟨there, next⟩ := loads.codes c (labels ▸ keeps)
  rw [parts] at there next
  exact ⟨⟨_, there, keeps.constants _ _ pooled⟩, next⟩

theorem loadGlobal (a : Assembler) (name : String) :
    Emits a (a.loadGlobal name) fun c start stop => c.LoadsGlobal name start ∧ stop = start + 2 := by
  refine ((constant a (.symbol name)).andThen (emit _ .loadGlobal)).mono ?_
  rintro c start stop ⟨next, ⟨loads, rfl⟩, looks, rfl⟩
  exact ⟨⟨loads, looks⟩, rfl⟩

/-- The three parts of a conditional, with the jumps between them. Both labels are made
before the test and bound behind the parts that the jumps skip. -/
theorem conditional {test yes no : Assembler → Nat → Nat → Prop} {a₁ a₂ a₃ : Assembler}
    (tests : Emits a.newLabel.1.newLabel.1 a₁ test)
    (takes : Emits (a₁.emitPart (.jumpIfFalse a.newLabel.2)) a₂ yes)
    (skips : Emits ((a₂.emitPart (.jump a.newLabel.1.newLabel.2)).bind a.newLabel.2) a₃ no) :
    Emits a (a₃.bind a.newLabel.1.newLabel.2) fun c start stop =>
      ∃ branch leap otherwise done, test c start branch ∧
        c.At branch (.jumpIfFalse otherwise) ∧ yes c (branch + 1) leap ∧
        c.At leap (.jump done) ∧ c.place? otherwise = some (leap + 1) ∧
        no c (leap + 1) stop ∧ c.place? done = some stop := by
  have made : a.labelCount + 2 ≤ a₁.labelCount := tests.labelCount
  have later : a₁.labelCount ≤ a₂.labelCount := takes.labelCount
  have latest : a₂.labelCount ≤ a₃.labelCount := skips.labelCount
  -- From each of the three parts on, labels are kept that are not bound any more.
  have from₃ (low high : Nat) (outside : a.labelCount + 1 < low ∨ high ≤ a.labelCount + 1) :
      Keeps low high a₃ (a₃.bind a.newLabel.1.newLabel.2) := .bind a₃ _ low high outside
  have from₂ (low high : Nat) (outside : a.labelCount + 1 < low ∨ high ≤ a.labelCount + 1)
      (below : high ≤ a₂.labelCount) :
      Keeps low high ((a₂.emitPart (.jump a.newLabel.1.newLabel.2)).bind a.newLabel.2)
        (a₃.bind a.newLabel.1.newLabel.2) :=
    (skips.keeps.mono (Nat.zero_le _) below).trans (from₃ low high outside)
  have jumps (low high : Nat) (outside : a.labelCount < low ∨ high ≤ a.labelCount) :
      Keeps low high a₂ ((a₂.emitPart (.jump a.newLabel.1.newLabel.2)).bind a.newLabel.2) :=
    (Keeps.emitPart a₂ _ low high).trans (.bind _ _ low high outside)
  have total : a.labelCount ≤ a₃.labelCount := by omega
  refine ⟨total, ?_, fun c kept => ?_⟩
  · refine ((Keeps.newLabel a _ _).trans (Keeps.newLabel _ _ _)).trans ?_
    refine (tests.keeps.mono (Nat.le_refl _) (Nat.le_add_right _ 2)).trans ?_
    refine (Keeps.emitPart a₁ (.jumpIfFalse a.newLabel.2) _ _).trans ?_
    have before : a.labelCount ≤ a₁.labelCount := by omega
    refine (takes.keeps.mono (Nat.le_refl _) before).trans ?_
    exact (jumps _ _ (.inr (Nat.le_refl _))).trans
      (from₂ _ _ (.inr (Nat.le_succ _)) (by omega))
  · have kept' (low high : Nat) (above : a.labelCount ≤ low) (below : high ≤ a₃.labelCount) :
        Keeps low high (a₃.bind a.newLabel.1.newLabel.2) c := kept.mono above below
    have taken : Keeps a₁.labelCount a₂.labelCount a₂ c :=
      ((jumps _ _ (.inl (by omega))).trans (from₂ _ _ (.inl (by omega)) (Nat.le_refl _))).trans
        (kept' _ _ (by omega) latest)
    have tested : Keeps (a.labelCount + 2) a₁.labelCount a₁ c := by
      refine (Keeps.emitPart a₁ (.jumpIfFalse a.newLabel.2) _ _).trans ?_
      refine (takes.keeps.mono (Nat.zero_le _) (Nat.le_refl _)).trans ?_
      refine (jumps _ _ (.inl (by omega))).trans ?_
      refine (from₂ _ _ (.inl (by omega)) later).trans ?_
      exact kept' _ _ (by omega) (by omega)
    have branch : (a₁.emitPart (.jumpIfFalse a.newLabel.2)).At a₁.parts.size
        (.jumpIfFalse a.newLabel.2) := Array.getElem?_push_size
    have leap : ((a₂.emitPart (.jump a.newLabel.1.newLabel.2)).bind a.newLabel.2).At a₂.parts.size
        (.jump a.newLabel.1.newLabel.2) := Array.getElem?_push_size
    have bound := place?_bind (a₂.emitPart (.jump a.newLabel.1.newLabel.2)) a.newLabel.2
    have size₁ : (a₁.emitPart (.jumpIfFalse a.newLabel.2)).parts.size = a₁.parts.size + 1 :=
      Array.size_push _
    have size₂ : (a₂.emitPart (.jump a.newLabel.1.newLabel.2)).parts.size = a₂.parts.size + 1 :=
      Array.size_push _
    refine ⟨a₁.parts.size, a₂.parts.size, a.newLabel.2, a.newLabel.1.newLabel.2,
      tests.codes c tested, ?_, ?_, ?_, ?_, ?_, ?_⟩
    · exact taken.parts _ _ (takes.keeps.parts _ _ branch)
    · exact size₁ ▸ takes.codes c taken
    · exact kept.parts _ _ (skips.keeps.parts _ _ leap)
    · rw [← size₂, ← bound]
      refine (kept' a.labelCount (a.labelCount + 1) (Nat.le_refl _) (by omega)).labels
        a.labelCount (Nat.le_refl _) (Nat.lt_succ_self _) |>.trans ?_
      exact (from₂ a.labelCount (a.labelCount + 1) (.inr (Nat.le_refl _)) (by omega)).labels
        a.labelCount (Nat.le_refl _) (Nat.lt_succ_self _)
    · have rest : Keeps a₂.labelCount a₃.labelCount a₃ c :=
        (from₃ _ _ (.inl (by omega))).trans (kept' _ _ (by omega) (Nat.le_refl _))
      exact size₂ ▸ skips.codes c rest
    · have ends := place?_bind a₃ a.newLabel.1.newLabel.2
      refine Eq.trans ?_ ends
      exact (kept' a.labelCount a₃.labelCount (Nat.le_refl _) (Nat.le_refl _)).labels
        (a.labelCount + 1) (Nat.le_succ _) (by omega)

end Emits

end MessageMachine
