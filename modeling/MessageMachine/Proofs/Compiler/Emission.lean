/-
# Emission succeeds

Every expression whose arguments are those of the method around it has code, provided that
the code is short. `Expr.Scoped` and `Expr.Short` are the two conditions. The second follows
the emission: it is about the methods inside the expression, each as it is when it is about to
be finished.

`Shifts` says what emitted code does to the depth of the operand stack, whatever the depth
is that it starts at. An expression adds one value, and so its code is balanced between a
method's beginning and its return.
-/

import MessageMachine.Proofs.Compiler.Finish
import MessageMachine.Proofs.Compiler.Reading

namespace MessageMachine

open Assembler

/-! ## Expressions with code -/

namespace Expr

mutual

/-- Arguments are among so many, and every message has a receiver. A method inside has
arguments of its own, which a number can count. -/
def Scoped (argCount : Nat) : Expr → Prop
  | constant _ | global _ => True
  | argument index => index < argCount
  | conditional test yes no => test.Scoped argCount ∧ yes.Scoped argCount ∧ no.Scoped argCount
  | sequence first second => first.Scoped argCount ∧ second.Scoped argCount
  | define _ value => value.Scoped argCount
  | send _ operands => operands ≠ [] ∧ ScopedAll argCount operands
  | perform receiver args selector =>
    receiver.Scoped argCount ∧ ScopedAll argCount args ∧ selector.Scoped argCount
  | method _ inner body _ => inner ≤ Binary64.largestExact ∧ body.Scoped inner

def ScopedAll (argCount : Nat) : List Expr → Prop
  | [] => True
  | e :: rest => e.Scoped argCount ∧ ScopedAll argCount rest

end

mutual

/-- Wherever emission comes to finish a method, its code has fewer than `2 ^ 31` bytes. -/
def Short (e : Expr) (h : Heap) (a : Assembler) : Prop :=
  match e with
  | constant _ | argument _ | global _ => True
  | conditional test yes no =>
    test.Short h a.newLabel.1.newLabel.1 ∧
    ∀ h₁ a₁, test.emit h a.newLabel.1.newLabel.1 = .ok (h₁, a₁) →
      yes.Short h₁ (a₁.emitPart (.jumpIfFalse a.newLabel.2)) ∧
      ∀ h₂ a₂, yes.emit h₁ (a₁.emitPart (.jumpIfFalse a.newLabel.2)) = .ok (h₂, a₂) →
        no.Short h₂ ((a₂.emitPart (.jump a.newLabel.1.newLabel.2)).bind a.newLabel.2)
  | sequence first second =>
    first.Short h a ∧ ∀ h₁ a₁, first.emit h a = .ok (h₁, a₁) → second.Short h₁ (a₁.emit .pop)
  | define name value => value.Short h (a.constant (.symbol name))
  | send _ operands => ShortAll operands h a
  | perform receiver args selector =>
    receiver.Short h a ∧ ∀ h₁ a₁, receiver.emit h a = .ok (h₁, a₁) →
      ShortAll args h₁ a₁ ∧ ∀ h₂ a₂, emitAll args h₁ a₁ = .ok (h₂, a₂) → selector.Short h₂ a₂
  | method name argCount body source =>
    body.Short h (.create name argCount source) ∧
    ∀ h₁ inner, body.emit h (.create name argCount source) = .ok (h₁, inner) →
      total (inner.emit .leave).sizes < 2 ^ 31

def ShortAll (es : List Expr) (h : Heap) (a : Assembler) : Prop :=
  match es with
  | [] => True
  | e :: rest => e.Short h a ∧ ∀ h₁ a₁, e.emit h a = .ok (h₁, a₁) → ShortAll rest h₁ a₁

end

end Expr

/-! ## Tidy assemblers -/

namespace Assembler

/-- Labels are bound within the method, and there is a load for every constant. -/
structure Tidy (a : Assembler) : Prop where
  placed : a.Placed
  pooled : a.constants.size ≤ a.parts.size

namespace Tidy

variable {a : Assembler}

theorem create (name : String) (argCount : Int) (source : Option Location) :
    (Assembler.create name argCount source).Tidy where
  placed := by
    intro label goal bound
    have unbound : (Assembler.create name argCount source).place? label = none :=
      Std.TreeMap.getElem?_emptyc
    cases unbound.symm.trans bound
  pooled := le_rfl

theorem emitPart (tidy : a.Tidy) (part : Part) : (a.emitPart part).Tidy where
  placed := by
    intro label goal bound
    have within := tidy.placed label goal bound
    rw [Assembler.emitPart, Array.size_push]
    exact within.trans (Nat.le_succ _)
  pooled := by
    rw [Assembler.emitPart, Array.size_push]
    exact tidy.pooled.trans (Nat.le_succ _)

theorem constant (tidy : a.Tidy) (v : Value) : (a.constant v).Tidy := by
  unfold Assembler.constant emitConstant addConstant
  cases found : a.constants.findIdx? (·.identical v) with
  | some index => exact tidy.emitPart _
  | none =>
    refine ⟨fun label goal bound => ?_, ?_⟩
    · have within := tidy.placed label goal bound
      simp only [Assembler.emit, Assembler.emitPart, Array.size_push]
      exact within.trans (Nat.le_succ _)
    · simp only [Assembler.emit, Assembler.emitPart, Array.size_push]
      exact Nat.succ_le_succ tidy.pooled

theorem newLabel (tidy : a.Tidy) : a.newLabel.1.Tidy :=
  ⟨tidy.placed, tidy.pooled⟩

theorem bind (tidy : a.Tidy) (label : Label) : (a.bind label).Tidy where
  placed := by
    intro other goal bound
    unfold place? Assembler.bind at bound
    rw [Std.TreeMap.getElem?_insert] at bound
    split at bound
    · cases bound
      exact le_rfl
    · exact tidy.placed other goal bound
  pooled := tidy.pooled

end Tidy

/-! ## Shifts -/

/-- The parts between two places take values from the stack and give others. -/
def Shifts (argCount take give : Nat) (a : Assembler) (start stop : Nat) : Prop :=
  ∀ low, a.Balanced argCount start stop (low + take) (low + give)

namespace Shifts

variable {a : Assembler} {argCount take give give' start middle stop : Nat}

theorem append (first : Shifts argCount take give a start middle)
    (second : Shifts argCount give give' a middle stop) :
    Shifts argCount take give' a start stop :=
  fun low => (first low).append (second low)

/-- Values below do not matter. -/
theorem above (shifts : Shifts argCount take give a start stop) (rest : Nat) :
    Shifts argCount (rest + take) (rest + give) a start stop := by
  intro low
  rw [← Nat.add_assoc, ← Nat.add_assoc]
  exact shifts (low + rest)

theorem single {op : Operation} (here : a.At start (.plain op))
    (allowed : a.Allows argCount (.plain op)) :
    Shifts argCount op.pops op.pushes a start (start + 1) := by
  intro low
  have balanced := Balanced.single here allowed (Nat.le_add_left op.pops low)
  rwa [Nat.add_sub_cancel] at balanced

end Shifts

end Assembler

/-! ## Emission -/

/-- Nothing but methods has been added, and all of them are straight. -/
structure Heap.AddsStraight (h h' : Heap) : Prop where
  data : { h' with methods := h.methods } = h
  size : h.methods.size ≤ h'.methods.size
  kept : ∀ index < h.methods.size, h'.methods[index]? = h.methods[index]?
  straight : ∀ index m, h.methods.size ≤ index → h'.methods[index]? = some m → m.Straight

namespace Heap.AddsStraight

variable {h h' h'' : Heap}

theorem nothing (h : Heap) : h.AddsStraight h where
  data := rfl
  size := le_rfl
  kept _ _ := rfl
  straight := by
    intro index m beyond here
    rw [Array.getElem?_eq_none beyond] at here
    cases here

theorem trans (first : h.AddsStraight h') (second : h'.AddsStraight h'') : h.AddsStraight h'' where
  data := by
    have inner := second.data
    have outer := first.data
    rw [← inner] at outer
    exact outer
  size := first.size.trans second.size
  kept := fun index lt => (second.kept index (lt.trans_le first.size)).trans (first.kept index lt)
  straight := by
    intro index m beyond here
    rcases Nat.lt_or_ge index h'.methods.size with early | late
    · rw [second.kept index early] at here
      exact first.straight index m beyond here
    · exact second.straight index m late here

theorem method (h : Heap) {m : Method} (straight : m.Straight) :
    h.AddsStraight (h.allocMethod m).1 where
  data := rfl
  size := by
    show h.methods.size ≤ (h.methods.push m).size
    rw [Array.size_push]
    exact Nat.le_succ _
  kept := by
    intro index lt
    show (h.methods.push m)[index]? = _
    rw [Array.getElem?_push_lt lt, ← Array.getElem?_eq_getElem lt]
  straight := by
    intro index m' beyond here
    have here : (h.methods.push m)[index]? = some m' := here
    rw [Array.getElem?_push] at here
    split at here
    · cases here
      exact straight
    · rw [Array.getElem?_eq_none beyond] at here
      cases here

end Heap.AddsStraight

/-- What was emitted gives so many values, and the methods in it are straight. -/
structure Compiles (argCount give : Nat) (h : Heap) (a : Assembler) (h' : Heap)
    (a' : Assembler) : Prop where
  emits : Emits a a' (Shifts argCount 0 give)
  tidy : a.Tidy → a'.Tidy
  methods : h.AddsStraight h'

namespace Compiles

variable {argCount give give' : Nat} {h h' h'' : Heap} {a a' a'' : Assembler}

theorem nothing (argCount : Nat) (h : Heap) (a : Assembler) : Compiles argCount 0 h a h a where
  emits := (Emits.nothing a).mono fun c _ _ same _ => same ▸ .nothing c argCount _ _
  tidy := id
  methods := .nothing h

/-- One after the other, both leave their values. -/
theorem append (first : Compiles argCount give h a h' a')
    (second : Compiles argCount give' h' a' h'' a'') :
    Compiles argCount (give + give') h a h'' a'' where
  emits := by
    refine (first.emits.andThen second.emits).mono ?_
    rintro c start stop ⟨middle, shifts, shifts'⟩
    exact shifts.append (shifts'.above give)
  tidy tidy := second.tidy (first.tidy tidy)
  methods := first.methods.trans second.methods

/-- An operation takes the values that have been given. -/
theorem emit (op : Operation) (first : Compiles argCount op.pops h a h' a')
    (allowed : ∀ c, Allows c argCount (.plain op)) :
    Compiles argCount op.pushes h a h' (a'.emit op) where
  emits := by
    refine (first.emits.andThen (Emits.emit a' op)).mono ?_
    rintro c start stop ⟨middle, shifts, here, rfl⟩
    exact shifts.append (.single here (allowed c))
  tidy tidy := (first.tidy tidy).emitPart _
  methods := first.methods

theorem constant (argCount : Nat) (h : Heap) (a : Assembler) (v : Value) :
    Compiles argCount 1 h a h (a.constant v) where
  emits := by
    refine (Emits.constant a v).mono ?_
    rintro c start stop ⟨loads, rfl⟩ low
    exact .loads loads
  tidy tidy := tidy.constant v
  methods := .nothing h

theorem conditional {h₁ h₂ h₃ : Heap} {a₁ a₂ a₃ : Assembler}
    (test : Compiles argCount 1 h a.newLabel.1.newLabel.1 h₁ a₁)
    (yes : Compiles argCount 1 h₁ (a₁.emitPart (.jumpIfFalse a.newLabel.2)) h₂ a₂)
    (no : Compiles argCount 1 h₂
      ((a₂.emitPart (.jump a.newLabel.1.newLabel.2)).bind a.newLabel.2) h₃ a₃) :
    Compiles argCount 1 h a h₃ (a₃.bind a.newLabel.1.newLabel.2) where
  emits := by
    refine (Emits.conditional test.emits yes.emits no.emits).mono ?_
    rintro c start stop ⟨branch, leap, otherwise, done, tests, skips, takes, leaps, bound, misses,
      bound'⟩ low
    exact .conditional (tests low) skips (takes low) leaps bound (misses low) bound'
  tidy tidy := (no.tidy (((yes.tidy ((test.tidy tidy.newLabel.newLabel).emitPart _)).emitPart
    _).bind _)).bind _
  methods := (test.methods.trans yes.methods).trans no.methods

/-- A method that was emitted from its beginning can be finished. -/
theorem exists_finish {name : String} {source : Option Location}
    (body : Compiles argCount 1 h (.create name argCount source) h' a)
    (few : argCount ≤ Binary64.largestExact) (short : total (a.emit .leave).sizes < 2 ^ 31) :
    ∃ m, (a.emit .leave).finish = .ok m ∧ m.Straight := by
  have whole := body.emits.andThen (Emits.emit a .leave)
  have tidy := (body.tidy (.create name argCount source)).emitPart (.plain .leave)
  obtain ⟨last, shifts, leaves, size⟩ := whole.codes _ (.refl _ _ _)
  obtain ⟨-, depth, start, stop, level⟩ := shifts 0
  have ready : Ready (a.emit .leave) argCount last depth :=
    ⟨tidy.placed, tidy.pooled, whole.keeps.argCount, few, level, start, stop, leaves, size, short⟩
  exact ready.finish

end Compiles

theorem bind_eq_ok {ε α β : Type} {x : Except ε α} {f : α → Except ε β} {a : α} {b : β}
    (first : x = .ok a) (second : f a = .ok b) : x >>= f = .ok b := by
  rw [first]
  exact second

mutual

/-- A scoped expression has code. -/
theorem Expr.exists_emit (e : Expr) {argCount : Nat} (within : e.Scoped argCount) {h : Heap}
    {a : Assembler} (short : e.Short h a) :
    ∃ h' a', e.emit h a = .ok (h', a') ∧ Compiles argCount 1 h a h' a' := by
  match e with
  | .constant v => exact ⟨_, _, rfl, .constant argCount h a v⟩
  | .argument index =>
    exact ⟨_, _, rfl, (Compiles.nothing argCount h a).emit (.loadArgument index) fun _ => within⟩
  | .global name =>
    exact ⟨_, _, rfl, (Compiles.constant argCount h a (.symbol name)).emit .loadGlobal
      fun _ => trivial⟩
  | .conditional test yes no =>
    obtain ⟨h₁, a₁, emitted, tests⟩ := exists_emit test within.1 short.1
    have short := short.2 h₁ a₁ emitted
    obtain ⟨h₂, a₂, emitted', takes⟩ := exists_emit yes within.2.1 short.1
    have short := short.2 h₂ a₂ emitted'
    obtain ⟨h₃, a₃, emitted'', skips⟩ := exists_emit no within.2.2 short
    exact ⟨h₃, _, bind_eq_ok emitted (bind_eq_ok emitted' (bind_eq_ok emitted'' rfl)),
      tests.conditional takes skips⟩
  | .sequence first second =>
    obtain ⟨h₁, a₁, emitted, before⟩ := exists_emit first within.1 short.1
    have popped := before.emit .pop fun _ => trivial
    obtain ⟨h₂, a₂, emitted', after⟩ := exists_emit second within.2 (short.2 h₁ a₁ emitted)
    exact ⟨h₂, a₂, bind_eq_ok emitted emitted', popped.append after⟩
  | .define name value =>
    obtain ⟨h₁, a₁, emitted, values⟩ := exists_emit value within short
    have both := (Compiles.constant argCount h a (.symbol name)).append values
    exact ⟨h₁, _, bind_eq_ok emitted rfl, both.emit .defineGlobal fun _ => trivial⟩
  | .send selector operands =>
    obtain ⟨h₁, a₁, emitted, all⟩ := exists_emitAll operands within.2 short
    have both := all.append (.constant argCount h₁ a₁ (.symbol selector))
    exact ⟨h₁, _, bind_eq_ok emitted rfl, both.emit (.call operands.length)
      fun _ => List.length_pos_iff.2 within.1⟩
  | .perform receiver args selector =>
    obtain ⟨h₁, a₁, emitted, first⟩ := exists_emit receiver within.1 short.1
    have short := short.2 h₁ a₁ emitted
    obtain ⟨h₂, a₂, emitted', others⟩ := exists_emitAll args within.2.1 short.1
    have short := short.2 h₂ a₂ emitted'
    obtain ⟨h₃, a₃, emitted'', last⟩ := exists_emit selector within.2.2 short
    have all := (first.append others).append last
    rw [Nat.add_comm 1] at all
    exact ⟨h₃, _, bind_eq_ok emitted (bind_eq_ok emitted' (bind_eq_ok emitted'' rfl)),
      all.emit (.call (args.length + 1)) fun _ => Nat.le_add_left 1 _⟩
  | .method name inner body source =>
    obtain ⟨h₁, a₁, emitted, whole⟩ := exists_emit body within.2 short.1
    obtain ⟨m, finished, straight⟩ := whole.exists_finish within.1 (short.2 h₁ a₁ emitted)
    have loads := Compiles.constant argCount (h₁.allocMethod m).1 a
      (.callable (.method (h₁.allocMethod m).2))
    exact ⟨_, _, bind_eq_ok emitted (bind_eq_ok finished rfl), loads.emits, loads.tidy,
      whole.methods.trans (.method h₁ straight)⟩

theorem Expr.exists_emitAll (es : List Expr) {argCount : Nat} (within : ScopedAll argCount es)
    {h : Heap} {a : Assembler} (short : ShortAll es h a) :
    ∃ h' a', emitAll es h a = .ok (h', a') ∧ Compiles argCount es.length h a h' a' := by
  match es with
  | [] => exact ⟨_, _, rfl, .nothing argCount h a⟩
  | e :: rest =>
    obtain ⟨h₁, a₁, emitted, first⟩ := exists_emit e within.1 short.1
    obtain ⟨h₂, a₂, emitted', others⟩ := exists_emitAll rest within.2 (short.2 h₁ a₁ emitted)
    rw [List.length_cons, Nat.add_comm]
    exact ⟨h₂, a₂, bind_eq_ok emitted emitted', first.append others⟩

end

end MessageMachine
