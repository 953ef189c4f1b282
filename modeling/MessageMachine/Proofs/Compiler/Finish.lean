/-
# Balanced code can be finished

Parts that are balanced from depth 0 to depth 1, with one return behind them, make a method:
they are laid out if their code is short, and the depths of their places are depths of
the instructions that they become, so that the analysis finds a capacity.

What can be said of the method is collected in `Method.Straight`. Control runs forward only
and leaves at the end, by the only return there is.
-/

import Mathlib.Data.Set.Function
import Mathlib.Order.ConditionallyCompleteLattice.Basic
import Mathlib.Order.Lattice.Nat
import MessageMachine.Proofs.Assembler.Short
import MessageMachine.Proofs.Compiler.Balance
import MessageMachine.Proofs.StackDepth.Exactness

namespace MessageMachine

/-! ## Straight methods -/

/-- A method whose control runs forward, to a single return at its end. -/
structure Method.Straight (m : Method) : Prop where
  /-- The capacity of its frames is the one that its code needs. -/
  capacity : ∃ capacity : Nat, m.maxStack = capacity ∧
    StackDepth.maxStack m.code m.constants.size m.argCount = .ok capacity
  /-- Its last instruction returns, and is reached with the result as the only operand. The
  others do not return, and those that jump jump ahead. -/
  returns : ∃ before last w, Instruction.decodeAll m.code = .ok (before ++ [last]) ∧
    last.operation = .leave ∧
    StackDepth.analyse m.code m.constants.size m.argCount = .ok w ∧
    w.depthAt? last.offset = some 1 ∧
    ∀ i ∈ before, i.operation ≠ .leave ∧
      ∀ distance, i.operation = .jump distance ∨ i.operation = .jumpIfFalse distance →
        (i.next : Int) ≤ i.jumpTarget

namespace Instruction

theorem startOf_succ {ops : List Operation} {place : Nat} {op : Operation}
    (there : ops[place]? = some op) :
    startOf ops (place + 1) = startOf ops place + op.encode.length := by
  unfold startOf
  rw [List.take_add_one, there, List.flatMap_append, List.length_append]
  simp

/-- Every operation takes a place of its own. -/
theorem startOf_lt {ops : List Operation} {place place' : Nat} (lt : place < place')
    (le : place' ≤ ops.length) : startOf ops place < startOf ops place' := by
  have inside := lt.trans_le le
  have there := List.getElem?_eq_getElem inside
  have positive := List.length_pos_iff.2 ops[place].encode_ne_nil
  have next := startOf_succ there
  have later := startOf_mono ops (show place + 1 ≤ place' from lt)
  omega

end Instruction

namespace StackDepth

/-- The analysis records the depth that is assigned to an instruction that is reached. -/
theorem depthAt?_of_balances {code : Code} {constantCount argCount : Int}
    {listed : List Instruction} {depth : Int → Nat} {w : Walk} {i : Instruction}
    (decoded : Instruction.decodeAll code = .ok listed)
    (balances : Balances listed constantCount argCount depth)
    (analysed : analyse code constantCount argCount = .ok w) (member : i ∈ listed)
    (reaches : Reaches listed i.offset) : w.depthAt? i.offset = some (depth i.offset) := by
  cases listed with
  | nil => cases member
  | cons first others =>
    obtain ⟨closing, -⟩ := closing_of_decodeAll constantCount argCount decoded
    obtain ⟨visits, walks, finished⟩ := walks_of_analyse constantCount argCount decoded
    rw [analysed] at walks finished
    have closed := (walks.closing tabulates_subjectOf closing).1.closed finished
    obtain ⟨_, same, faithful⟩ := walks.faithful decoded balances
    cases same
    obtain ⟨known, recorded, -⟩ := closed.recorded_of_mem decoded member reaches
    rw [recorded, faithful.recorded _ _ recorded]

end StackDepth

namespace Assembler

/-- A method that is about to be finished: its parts are balanced, up to a return. -/
structure Ready (a : Assembler) (argCount last : Nat) (depth : Nat → Nat) : Prop where
  placed : a.Placed
  pooled : a.constants.size ≤ a.parts.size
  arguments : a.argCount = argCount
  few : argCount ≤ Binary64.largestExact
  level : Level a argCount depth 0 last
  start : depth 0 = 0
  stop : depth last = 1
  leaves : a.At last (.plain .leave)
  size : a.parts.size = last + 1
  short : total a.sizes < 2 ^ 31

/-- The offset of a place in laid out code. -/
def offset (a : Assembler) (place : Nat) : Nat :=
  Instruction.startOf (a.operations a.sizes).toList place

/-- The instruction that a part becomes. -/
def instruction (a : Assembler) (place : Nat) (part : Part) : Instruction :=
  ⟨a.offset place, a.resolve a.sizes (offsets a.sizes) place part, a.offset (place + 1)⟩

/-- The instructions of laid out code. -/
def instructions (a : Assembler) : List Instruction :=
  Instruction.inSequence 0 (a.operations a.sizes).toList

variable {a : Assembler} {argCount last place goal : Nat} {part : Part} {depth : Nat → Nat}

theorem length_instructions (a : Assembler) : a.instructions.length = a.parts.size := by
  rw [instructions, Instruction.length_inSequence]
  simp [operations]

/-- Each part becomes the instruction at its place. -/
theorem getElem?_instructions (a : Assembler) (place : Nat) :
    a.instructions[place]? = a.parts[place]?.map (a.instruction place) := by
  rw [instructions, Instruction.getElem?_inSequence, Array.getElem?_toList, operations,
    Array.getElem?_mapIdx, Option.map_map]
  cases a.parts[place]? with
  | none => rfl
  | some part =>
    simp only [Option.map_some, Function.comp, Nat.zero_add]
    rfl

theorem mem_instructions {i : Instruction} :
    i ∈ a.instructions ↔ ∃ place part, a.At place part ∧ i = a.instruction place part := by
  rw [List.mem_iff_getElem?]
  constructor
  · rintro ⟨place, here⟩
    rw [getElem?_instructions] at here
    obtain ⟨part, there, same⟩ := Option.map_eq_some_iff.1 here
    exact ⟨place, part, there, same.symm⟩
  · rintro ⟨place, part, here, rfl⟩
    have here : a.parts[place]? = some part := here
    exact ⟨place, by rw [getElem?_instructions, here]; rfl⟩

theorem offset_lt (lt : place < goal) (le : goal ≤ a.parts.size) : a.offset place < a.offset goal :=
  Instruction.startOf_lt lt (by simpa [operations] using le)

theorem offset_injOn (a : Assembler) : Set.InjOn a.offset {place | place ≤ a.parts.size} := by
  intro place within goal within' same
  rcases lt_trichotomy place goal with lt | rfl | gt
  · exact absurd same (offset_lt lt within').ne
  · rfl
  · exact absurd same (offset_lt gt within).ne'

@[simp] theorem pops_instruction (a : Assembler) (place : Nat) (part : Part) :
    (a.instruction place part).operation.pops = part.pops := by
  cases part <;> rfl

@[simp] theorem pushes_instruction (a : Assembler) (place : Nat) (part : Part) :
    (a.instruction place part).operation.pushes = (part.operation 0).pushes := by
  cases part <;> rfl

namespace Ready

variable (ready : Ready a argCount last depth)

include ready

theorem bound (here : a.At place part) :
    ∀ label, part.label? = some label → (a.place? label).isSome = true := by
  intro label jumps
  have inside := here.lt
  rw [ready.size] at inside
  rcases Nat.lt_or_eq_of_le (Nat.le_of_lt_succ inside) with before | rfl
  · obtain ⟨part', here', allowed, -⟩ := ready.level.each place (Nat.zero_le _) before
    cases here.symm.trans here'
    cases part with
    | plain op => cases jumps
    | jump target | jumpIfFalse target =>
      cases jumps
      exact allowed
  · cases here.symm.trans ready.leaves
    cases jumps

theorem allBound : a.allBound = true := by
  unfold Assembler.allBound
  rw [Array.all_eq_true]
  intro place inside
  have bound := ready.bound (Array.getElem?_eq_getElem inside)
  generalize a.parts[place] = part at bound
  cases jumps : part.label? with
  | none => rfl
  | some label => exact bound label jumps

theorem settled : (a.operations a.sizes).map (·.encode.length) = a.sizes :=
  map_operations_sizes ready.placed ready.short

/-- Every part takes a byte, so there are not many. -/
theorem parts_lt : a.parts.size < 2 ^ 31 := by
  have each (place : Nat) (le : place ≤ a.parts.size) : place ≤ a.offset place := by
    induction place with
    | zero => exact Nat.zero_le _
    | succ place ih =>
      have next := offset_lt (show place < place + 1 from place.lt_succ_self) le
      have before := ih (Nat.le_of_succ_le le)
      omega
  have all := each a.parts.size le_rfl
  have most := Instruction.startOf_le (a.operations a.sizes).toList a.parts.size
  have size := (layout_of_short ready.placed ready.allBound ready.short).2
  have short := ready.short
  unfold offset at all
  omega

/-- The operands of balanced parts can be read back. -/
theorem readable : ∀ op ∈ (a.operations a.sizes).toList, op.Readable := by
  refine readable_of_parts ready.placed ready.short fun place op here => ?_
  have few := ready.parts_lt
  have limit : 2 ^ 31 ≤ Binary64.largestExact := by decide
  have inside := At.lt here
  rw [ready.size] at inside
  rcases Nat.lt_or_eq_of_le (Nat.le_of_lt_succ inside) with before | rfl
  · obtain ⟨part, here', allowed, covered, -⟩ := ready.level.each place (Nat.zero_le _) before
    cases here.symm.trans here'
    cases op with
    | loadConstant index =>
      have pooled := ready.pooled
      have small : index < a.constants.size := allowed
      show index < Binary64.largestExact
      omega
    | loadArgument index => exact allowed.trans_le ready.few
    | call count =>
      have deep := ready.level.depth_le place (Nat.zero_le _) before.le
      have pops : count + 1 ≤ depth place := covered
      have start := ready.start
      have size := ready.size
      show count < Binary64.largestExact
      omega
    | leave | jump _ | jumpIfFalse _ => exact allowed.elim
    | nop | loadGlobal | pop | defineGlobal => trivial
  · cases here.symm.trans ready.leaves
    trivial

/-! ### Control -/

/-- The return is the last part, and all others are balanced. -/
theorem executes (here : a.At place part) : place ≤ last ∧ part.pops ≤ depth place ∧
    (place = last ∧ part = .plain .leave ∨ place < last ∧ a.Allows argCount part) ∧
      ∀ goal, a.Goes place part goal →
        place < goal ∧ goal ≤ last ∧ depth goal = part.after (depth place) := by
  have inside := here.lt
  rw [ready.size] at inside
  rcases Nat.lt_or_eq_of_le (Nat.le_of_lt_succ inside) with before | rfl
  · obtain ⟨part', here', allowed, covered, goes⟩ := ready.level.each place (Nat.zero_le _) before
    cases here.symm.trans here'
    exact ⟨before.le, covered, .inr ⟨before, allowed⟩, goes⟩
  · cases here.symm.trans ready.leaves
    refine ⟨le_rfl, ready.stop.ge, .inl ⟨rfl, rfl⟩, fun goal control => ?_⟩
    cases control with
    | next returns => exact absurd rfl returns

theorem jumpTarget_instruction {label : Label} (here : a.At place part)
    (jumps : part.label? = some label) (bound : a.place? label = some goal) :
    (a.instruction place part).jumpTarget = a.offset goal :=
  jumpTarget_eq ready.settled ready.short here jumps bound (ready.placed label goal bound) rfl rfl

/-- Instructions lead where their parts do. -/
theorem mem_successors (here : a.At place part) {target : Int} :
    target ∈ (a.instruction place part).successors ↔
      ∃ goal, a.Goes place part goal ∧ target = a.offset goal := by
  obtain ⟨-, -, kind, -⟩ := ready.executes here
  have jumped {label : Label} (jumps : part.label? = some label) :
      ∃ goal, a.place? label = some goal ∧
        (a.instruction place part).jumpTarget = a.offset goal := by
    obtain ⟨goal, bound⟩ := Option.isSome_iff_exists.1 (ready.bound here label jumps)
    exact ⟨goal, bound, ready.jumpTarget_instruction here jumps bound⟩
  cases part with
  | jump label =>
    obtain ⟨goal, bound, leads⟩ := jumped rfl
    show target ∈ [_] ↔ _
    rw [List.mem_singleton, leads]
    constructor
    · rintro rfl
      exact ⟨goal, .jump bound, rfl⟩
    · rintro ⟨goal', control, rfl⟩
      cases control with
      | jump bound' => cases bound.symm.trans bound'; rfl
  | jumpIfFalse label =>
    obtain ⟨goal, bound, leads⟩ := jumped rfl
    show target ∈ [_, _] ↔ _
    rw [List.mem_pair, leads]
    constructor
    · rintro (rfl | rfl)
      · exact ⟨goal, .taken bound, rfl⟩
      · exact ⟨place + 1, .passed, rfl⟩
    · rintro ⟨goal', control, rfl⟩
      cases control with
      | taken bound' => cases bound.symm.trans bound'; exact .inl rfl
      | passed => exact .inr rfl
  | plain op =>
    -- An operation that is emitted as it is goes on to the next place, unless it returns.
    have onward (passes : op ≠ .leave)
        (only : (a.instruction place (.plain op)).successors = [(a.offset (place + 1) : Int)]) :
        target ∈ (a.instruction place (.plain op)).successors ↔
          ∃ goal, a.Goes place (.plain op) goal ∧ target = a.offset goal := by
      rw [only, List.mem_singleton]
      constructor
      · rintro rfl
        exact ⟨place + 1, .next passes, rfl⟩
      · rintro ⟨goal, control, rfl⟩
        cases control
        rfl
    cases op with
    | leave =>
      refine iff_of_false List.not_mem_nil ?_
      rintro ⟨goal, control, -⟩
      cases control with
      | next passes => exact passes rfl
    | jump _ | jumpIfFalse _ =>
      rcases kind with ⟨-, returns⟩ | ⟨-, allowed⟩
      · cases returns
      · exact allowed.elim
    | nop | loadConstant _ | loadGlobal | call _ | loadArgument _ | pop | defineGlobal =>
      exact onward Operation.noConfusion rfl

/-- What stands before the return does not return, and jumps ahead if it jumps. -/
theorem forward (here : a.At place part) (before : place < last) :
    (a.instruction place part).operation ≠ .leave ∧
      ∀ distance, (a.instruction place part).operation = .jump distance ∨
          (a.instruction place part).operation = .jumpIfFalse distance →
        ((a.instruction place part).next : Int) ≤ (a.instruction place part).jumpTarget := by
  obtain ⟨-, -, ⟨same, -⟩ | ⟨-, allowed⟩, goes⟩ := ready.executes here
  · exact absurd same before.ne
  have size := ready.size
  have ahead {label : Label} (jumps : part.label? = some label)
      (control : ∀ goal, a.place? label = some goal → a.Goes place part goal) :
      ((a.instruction place part).next : Int) ≤ (a.instruction place part).jumpTarget := by
    obtain ⟨goal, bound⟩ := Option.isSome_iff_exists.1 (ready.bound here label jumps)
    obtain ⟨further, within, -⟩ := goes goal (control goal bound)
    rw [ready.jumpTarget_instruction here jumps bound]
    exact Int.ofNat_le.2 (Instruction.startOf_mono _ further)
  cases part with
  | plain op =>
    have operation : (a.instruction place (.plain op)).operation = op := rfl
    rw [operation]
    cases op with
    | leave | jump _ | jumpIfFalse _ => exact allowed.elim
    | nop | loadConstant _ | loadGlobal | call _ | loadArgument _ | pop | defineGlobal =>
      refine ⟨Operation.noConfusion, fun distance jumps => ?_⟩
      rcases jumps with jumps | jumps <;> cases jumps
  | jump label =>
    exact ⟨Operation.noConfusion, fun _ _ => ahead rfl fun _ bound => .jump bound⟩
  | jumpIfFalse label =>
    exact ⟨Operation.noConfusion, fun _ _ => ahead rfl fun _ bound => .taken bound⟩

/-- Control gets to every place. -/
theorem reaches (upto : place ≤ last) : StackDepth.Reaches a.instructions (a.offset place) := by
  induction place using Nat.strongRecOn with
  | ind place ih =>
    rcases Nat.eq_zero_or_pos place with rfl | later
    · exact .start
    · obtain ⟨before, part, -, earlier, here, control⟩ := ready.level.entered place later upto
      exact .flow (ih before earlier (by omega)) (mem_instructions.2 ⟨before, part, here, rfl⟩)
        ((ready.mem_successors here).2 ⟨place, control, rfl⟩)

/-- Control gets to nothing but places. -/
theorem exists_of_reaches {target : Int} (reached : StackDepth.Reaches a.instructions target) :
    ∃ place ≤ last, target = a.offset place := by
  cases reached with
  | start => exact ⟨0, Nat.zero_le _, rfl⟩
  | flow _ member flows =>
    obtain ⟨place, part, here, rfl⟩ := mem_instructions.1 member
    obtain ⟨goal, control, rfl⟩ := (ready.mem_successors here).1 flows
    obtain ⟨-, -, -, goes⟩ := ready.executes here
    exact ⟨goal, (goes goal control).2.1, rfl⟩

/-! ### Depths -/

/-- The depths of places are depths of offsets. -/
theorem exists_balances : ∃ depth' : Int → Nat,
    (∀ place ≤ last, depth' (a.offset place) = depth place) ∧
      StackDepth.Balances a.instructions a.constants.size a.argCount depth' := by
  obtain ⟨depth', agrees⟩ : ∃ depth' : Int → Nat,
      ∀ place ≤ a.parts.size, depth' (a.offset place) = depth place := by
    refine ⟨fun target => depth (Function.invFunOn a.offset {place | place ≤ a.parts.size}
      target.toNat), fun place within => congrArg depth ?_⟩
    exact (offset_injOn a).leftInvOn_invFunOn within
  have size := ready.size
  have agrees (place : Nat) (upto : place ≤ last) : depth' (a.offset place) = depth place :=
    agrees place (by omega)
  refine ⟨depth', agrees, (agrees 0 (Nat.zero_le _)).trans ready.start, ?_, ?_, ?_, ?_, ?_, ?_⟩
  · intro target reached
    obtain ⟨place, upto, rfl⟩ := ready.exists_of_reaches reached
    have here := Array.getElem?_eq_getElem (show place < a.parts.size by omega)
    exact ⟨_, mem_instructions.2 ⟨place, _, here, rfl⟩, rfl⟩
  · intro i member _ index loads
    obtain ⟨place, part, here, rfl⟩ := mem_instructions.1 member
    obtain ⟨-, -, ⟨-, rfl⟩ | ⟨-, allowed⟩, -⟩ := ready.executes here
    · cases loads
    · cases part <;> cases loads
      exact Int.ofNat_lt.2 allowed
  · intro i member _ index loads
    obtain ⟨place, part, here, rfl⟩ := mem_instructions.1 member
    obtain ⟨-, -, ⟨-, rfl⟩ | ⟨-, allowed⟩, -⟩ := ready.executes here
    · cases loads
    · rw [ready.arguments]
      cases part <;> cases loads
      exact Int.ofNat_lt.2 allowed
  · intro i member _ count calls
    obtain ⟨place, part, here, rfl⟩ := mem_instructions.1 member
    obtain ⟨-, -, ⟨-, rfl⟩ | ⟨-, allowed⟩, -⟩ := ready.executes here
    · cases calls
    · cases part <;> cases calls
      exact allowed
  · intro i member _
    obtain ⟨place, part, here, rfl⟩ := mem_instructions.1 member
    obtain ⟨upto, covered, -, -⟩ := ready.executes here
    rw [pops_instruction]
    exact covered.trans_eq (agrees place upto).symm
  · intro i member _ target flows
    obtain ⟨place, part, here, rfl⟩ := mem_instructions.1 member
    obtain ⟨goal, control, rfl⟩ := (ready.mem_successors here).1 flows
    obtain ⟨upto, -, -, goes⟩ := ready.executes here
    obtain ⟨-, within, left⟩ := goes goal control
    rw [agrees goal within, left, pops_instruction, pushes_instruction]
    exact congrArg part.after (agrees place upto).symm

/-- No depth is beyond the number of parts, so there is a largest. -/
theorem exists_isGreatest {depth' : Int → Nat}
    (agrees : ∀ place ≤ last, depth' (a.offset place) = depth place) :
    ∃ capacity, IsGreatest (StackDepth.Depths a.instructions depth') capacity := by
  have bounded : BddAbove (StackDepth.Depths a.instructions depth') := by
    refine ⟨last + 1, ?_⟩
    rintro d ⟨i, member, -, either⟩
    obtain ⟨place, part, here, rfl⟩ := mem_instructions.1 member
    obtain ⟨upto, covered, kind, -⟩ := ready.executes here
    have deep := ready.level.depth_le place (Nat.zero_le _) upto
    have same : depth' ((a.instruction place part).offset : Int) = depth place := agrees place upto
    have start := ready.start
    have pushes : (part.operation 0).pushes ≤ 1 := part.pushes_le
    rw [same, pops_instruction, pushes_instruction] at either
    omega
  have some_ : (StackDepth.Depths a.instructions depth').Nonempty := by
    have here := Array.getElem?_eq_getElem (show 0 < a.parts.size by rw [ready.size]; omega)
    exact ⟨_, _, mem_instructions.2 ⟨0, _, here, rfl⟩, ready.reaches (Nat.zero_le _), .inl rfl⟩
  exact ⟨_, Nat.sSup_mem some_ bounded, fun _ member => le_csSup bounded member⟩

/-- The method is finished, and it is straight. -/
theorem finish : ∃ m, a.finish = .ok m ∧ m.Straight := by
  obtain ⟨laid, size⟩ := layout_of_short ready.placed ready.allBound ready.short
  obtain ⟨code, written⟩ : ∃ code : Code,
      code = ((a.operations a.sizes).toList.flatMap Operation.encode).toArray := ⟨_, rfl⟩
  rw [← written] at laid
  have decoded : Instruction.decodeAll code = .ok a.instructions :=
    Instruction.decodeAll_of_readable ready.readable written
  obtain ⟨depth', agrees, balances⟩ := ready.exists_balances
  obtain ⟨capacity, greatest⟩ := ready.exists_isGreatest agrees
  have some_ : code ≠ #[] := by
    rintro rfl
    have none_ : a.instructions = [] := (Except.ok.inj decoded).symm
    have count := a.length_instructions
    rw [none_, ready.size] at count
    cases count
  have needs : StackDepth.Needs code a.constants.size a.argCount capacity :=
    ⟨some_, _, decoded, depth', balances, greatest⟩
  have accepted := (StackDepth.maxStack_eq_ok_iff _ _ _ _).2 needs
  refine ⟨⟨a.name, a.argCount, code, a.constants, capacity, a.source⟩, ?_,
    ⟨capacity, rfl, accepted⟩, ?_⟩
  · rw [Assembler.finish, laid]
    simp only
    rw [accepted]
  · obtain ⟨w, analysed⟩ : ∃ w, StackDepth.analyse code a.constants.size a.argCount = .ok w := by
      cases analysed : StackDepth.analyse code a.constants.size a.argCount with
      | ok w => exact ⟨w, rfl⟩
      | error fault =>
        rw [StackDepth.maxStack, analysed] at accepted
        cases accepted
    have ends : a.instructions =
        a.instructions.take last ++ [a.instruction last (.plain .leave)] := by
      have leaves : a.instructions[last]? = some (a.instruction last (.plain .leave)) := by
        rw [getElem?_instructions, show a.parts[last]? = some _ from ready.leaves]
        rfl
      have all : a.instructions.take (last + 1) = a.instructions :=
        List.take_of_length_le (by rw [a.length_instructions, ready.size])
      rw [List.take_add_one, leaves] at all
      exact all.symm
    refine ⟨_, _, w, decoded.trans (congrArg Except.ok ends), rfl, analysed, ?_, fun i before => ?_⟩
    · have recorded := StackDepth.depthAt?_of_balances decoded balances analysed
        (mem_instructions.2 ⟨last, _, ready.leaves, rfl⟩) (ready.reaches le_rfl)
      exact recorded.trans (congrArg some ((agrees last le_rfl).trans ready.stop))
    · obtain ⟨place, there⟩ := List.mem_iff_getElem?.1 before
      rw [List.getElem?_take, getElem?_instructions] at there
      split at there
      next below =>
        obtain ⟨part, here, rfl⟩ := Option.map_eq_some_iff.1 there
        exact ready.forward here below
      next => cases there

end Ready

end Assembler

end MessageMachine
