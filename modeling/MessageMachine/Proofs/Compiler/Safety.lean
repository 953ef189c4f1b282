/-
# Code that cannot go wrong

What is known before it runs of the code that was compiled for a form. Of each operand
it is known whether it is a symbol, and the name that a global gets is always one.
Every jump leads forward, to a place within the code. `Safe` says this of the code from
a place on, given what is known of the operands there, the last one first.

The analysis of depths says nothing of values, so this is the other half of what makes
compiled code safe. Code of a form leaves one more operand of which nothing is known;
if what follows is safe with it, then so is the code of the form.
-/

import MessageMachine.Proofs.Compiler.Instruction

namespace MessageMachine

/-- After the operation control goes to the next one, and what the operation leaves is
nothing in particular. -/
def Operation.Straight : Operation → Prop
  | .nop | .loadConstant _ | .loadGlobal | .call _ | .loadArgument _ | .pop => True
  | .leave | .defineGlobal | .jump _ | .jumpIfFalse _ => False

theorem Operation.Straight.operand_nonneg {op : Operation} (straight : op.Straight) :
    0 ≤ op.operand := by
  cases op with
  | loadConstant n | call n | loadArgument n => exact Int.natCast_nonneg n
  | nop | loadGlobal | pop => exact Int.le_refl 0
  | leave | defineGlobal | jump d | jumpIfFalse d => exact straight.elim

theorem Instruction.successors_of_straight {i : Instruction} (straight : i.operation.Straight) :
    i.successors = [(i.next : Int)] := by
  obtain ⟨offset, op, next⟩ := i
  cases op with
  | leave | defineGlobal | jump d | jumpIfFalse d => exact straight.elim
  | _ => rfl

namespace Assembler

/-- The code from a place on binds nothing but symbols and only goes forward. For each
operand, the last one first, it is known or not known that it is a symbol. -/
inductive Safe (a : Assembler) : (place : Nat) → (symbols : List Bool) → Prop
  | straight {place : Nat} {op : Operation} {symbols : List Bool} :
      a.At place (.plain op) → op.Straight →
      Safe a (place + 1) (List.replicate op.pushes false ++ symbols.drop op.pops) →
      Safe a place symbols
  | symbol {place : Nat} {name : String} {symbols : List Bool} :
      a.Loads (.symbol name) place → Safe a (place + 1) (true :: symbols) → Safe a place symbols
  | defineGlobal {place : Nat} {known : Bool} {symbols : List Bool} :
      a.At place (.plain .defineGlobal) → Safe a (place + 1) (false :: symbols) →
      Safe a place (known :: true :: symbols)
  | leave {place : Nat} {symbols : List Bool} :
      a.At place (.plain .leave) → Safe a place symbols
  | jump {place goal : Nat} {label : Label} {symbols : List Bool} :
      a.At place (.jump label) → a.place? label = some goal → place < goal →
      goal ≤ a.parts.size → Safe a goal symbols → Safe a place symbols
  | jumpIfFalse {place goal : Nat} {label : Label} {known : Bool} {symbols : List Bool} :
      a.At place (.jumpIfFalse label) → a.place? label = some goal → place < goal →
      goal ≤ a.parts.size → Safe a (place + 1) symbols → Safe a goal symbols →
      Safe a place (known :: symbols)

variable {a : Assembler} {params : List String}

/-! ## Code of forms -/

theorem Loads.safe {v : Value} {place : Nat} {symbols : List Bool} (loads : a.Loads v place)
    (next : a.Safe (place + 1) (false :: symbols)) : a.Safe place symbols := by
  obtain ⟨index, here, -⟩ := loads
  exact .straight here trivial next

theorem LoadsGlobal.safe {name : String} {place : Nat} {symbols : List Bool}
    (looks : a.LoadsGlobal name place) (next : a.Safe (place + 2) (false :: symbols)) :
    a.Safe place symbols :=
  looks.1.safe (.straight looks.2 trivial next)

/-- A call takes its operands and the selector away. -/
theorem Safe.call {place count : Nat} {symbols : List Bool}
    (here : a.At place (.plain (.call count))) (next : a.Safe (place + 1) (false :: symbols)) :
    a.Safe place (false :: (List.replicate count false ++ symbols)) := by
  refine .straight here trivial ?_
  have taken : (false :: (List.replicate count false ++ symbols)).drop (count + 1) = symbols := by
    rw [List.drop_succ_cons, List.drop_left' List.length_replicate]
  show a.Safe (place + 1) ([false] ++ (false :: (List.replicate count false ++ symbols)).drop
    (count + 1))
  rw [taken]
  exact next

end Assembler

open Assembler

variable {a : Assembler} {params : List String}

mutual

/-- The code of a form is safe if what follows it is, with one operand more. -/
theorem Codes.safe (form : Form) {start stop : Nat} {symbols : List Bool}
    (codes : Codes a params form start stop) (next : a.Safe stop (false :: symbols)) :
    a.Safe start symbols := by
  match form with
  | .datum v =>
    obtain ⟨loads, rfl⟩ := codes
    exact loads.safe next
  | .symbol name =>
    simp only [Codes] at codes
    split at codes
    · obtain ⟨here, rfl⟩ := codes
      exact .straight here trivial next
    · obtain ⟨looks, rfl⟩ := codes
      exact looks.safe next
  | .global name =>
    obtain ⟨looks, rfl⟩ := codes
    exact looks.safe next
  | .conditional test yes no =>
    obtain ⟨branch, leap, otherwise, done, tested, fork, taken, jump, other, skipped, end_⟩ := codes
    have leap_lt := (Codes.bounds yes taken).1
    obtain ⟨stop_gt, within⟩ := Codes.bounds no skipped
    have after : a.Safe (leap + 1) symbols := Codes.safe no skipped next
    have before : a.Safe leap (false :: symbols) :=
      .jump jump end_ (Nat.lt_of_succ_lt stop_gt) within next
    apply Codes.safe test tested
    refine .jumpIfFalse fork other ?_ ?_ (Codes.safe yes taken before) after
    · exact Nat.lt_succ_of_lt (Nat.lt_of_succ_lt leap_lt)
    · exact Nat.le_trans (Nat.le_of_lt stop_gt) within
  | .sequence forms => exact CodesInOrder.safe forms codes next
  | .define name value =>
    obtain ⟨last, loads, evaluated, defines, rfl⟩ := codes
    exact .symbol loads (Codes.safe value evaluated (.defineGlobal defines next))
  | .message selector operands =>
    obtain ⟨-, last, evaluated, loads, calls, rfl⟩ := codes
    exact CodesAll.safe operands evaluated (loads.safe (.call calls next))
  | .computed receiver args selector =>
    obtain ⟨_, _, last, first, others, selected, calls, rfl⟩ := codes
    apply Codes.safe receiver first
    apply CodesAll.safe args others
    apply Codes.safe selector selected
    have call := Safe.call calls next
    rwa [List.replicate_succ', List.append_assoc, List.singleton_append] at call

/-- Each of several forms leaves an operand. -/
theorem CodesAll.safe (forms : List Form) {start stop : Nat} {symbols : List Bool}
    (codes : CodesAll a params forms start stop)
    (next : a.Safe stop (List.replicate forms.length false ++ symbols)) : a.Safe start symbols := by
  match forms with
  | [] =>
    obtain rfl : stop = start := codes
    exact next
  | form :: rest =>
    obtain ⟨middle, first, others⟩ := codes
    rw [List.length_cons, List.replicate_succ', List.append_assoc, List.singleton_append] at next
    exact Codes.safe form first (CodesAll.safe rest others next)

/-- Of several forms in order only the last leaves an operand. -/
theorem CodesInOrder.safe (forms : List Form) {start stop : Nat} {symbols : List Bool}
    (codes : CodesInOrder a params forms start stop) (next : a.Safe stop (false :: symbols)) :
    a.Safe start symbols := by
  match forms with
  | [] =>
    obtain ⟨loads, rfl⟩ := codes
    exact loads.safe next
  | [form] => exact Codes.safe form codes next
  | form :: following :: rest =>
    obtain ⟨last, first, pop, others⟩ := codes
    have after := CodesInOrder.safe (following :: rest) others next
    exact Codes.safe form first (.straight pop trivial after)

end

/-! ## Instructions -/

namespace Assembler.Safe

variable {code : Code} {start : Nat → Nat} {place : Nat} {symbols : List Bool} {i : Instruction}

/-- Where an instruction without a result lets control go, the code is safe with the
operands that are left. This is at the next instruction or further on. -/
theorem advance (safe : a.Safe place symbols) (laid : a.Laid code start)
    (decoded : Instruction.decode code (start place) = .ok i) {ip : Int} (flows : ip ∈ i.successors)
    (leaves : i.operation.pushes = 0) :
    ∃ place', ip = start place' ∧ (i.next : Int) ≤ ip ∧
      a.Safe place' (symbols.drop i.operation.pops) := by
  cases safe with
  | @straight _ op _ here straight next =>
    cases decoded.symm.trans (laid.plain place op here straight.operand_nonneg)
    rw [Instruction.successors_of_straight straight, List.mem_singleton] at flows
    rw [leaves] at next
    exact ⟨place + 1, flows, Int.le_of_eq flows.symm, next⟩
  | symbol loads =>
    obtain ⟨index, here, -⟩ := loads
    cases decoded.symm.trans (laid.plain place _ here (Int.natCast_nonneg _))
    cases leaves
  | defineGlobal here =>
    cases decoded.symm.trans (laid.plain place _ here (Int.le_refl _))
    cases leaves
  | leave here =>
    cases decoded.symm.trans (laid.plain place _ here (Int.le_refl _))
    cases flows
  | @jump _ goal label _ here bound forward within next =>
    obtain ⟨j, distance, there, operation, following, target⟩ :=
      laid.jump place label goal here bound forward within
    cases decoded.symm.trans there
    unfold Instruction.successors at flows
    rw [operation] at flows ⊢
    rw [List.mem_singleton, target] at flows
    refine ⟨goal, flows, ?_, next⟩
    rw [flows, following]
    exact_mod_cast laid.start_mono _ _ forward
  | @jumpIfFalse _ goal label known symbols here bound forward within next other =>
    obtain ⟨j, distance, there, operation, following, target⟩ :=
      laid.jumpIfFalse place label goal here bound forward within
    cases decoded.symm.trans there
    unfold Instruction.successors at flows
    rw [operation] at flows ⊢
    rcases List.mem_cons.1 flows with flows | flows
    · refine ⟨goal, flows.trans target, ?_, other⟩
      rw [flows.trans target, following]
      exact_mod_cast laid.start_mono _ _ forward
    · rw [List.mem_singleton] at flows
      exact ⟨place + 1, flows.trans (congrArg Nat.cast following), Int.le_of_eq flows.symm, next⟩

/-- After an instruction with a result the code is safe with it. The result is known to
be a symbol only where the instruction loads one. -/
theorem produce (safe : a.Safe place symbols) (laid : a.Laid code start)
    (decoded : Instruction.decode code (start place) = .ok i) (leaves : i.operation.pushes = 1) :
    i.next = start (place + 1) ∧ ∃ known, a.Safe (place + 1)
        (known :: symbols.drop i.operation.pops) ∧
      (known = true → ∃ index name, i.operation = .loadConstant index ∧
        a.constants[index]? = some (.symbol name)) := by
  cases safe with
  | @straight _ op _ here straight next =>
    cases decoded.symm.trans (laid.plain place op here straight.operand_nonneg)
    rw [leaves] at next
    exact ⟨rfl, false, next, nofun⟩
  | @symbol _ name _ loads next =>
    obtain ⟨index, here, pooled⟩ := loads
    cases decoded.symm.trans (laid.plain place _ here (Int.natCast_nonneg _))
    exact ⟨rfl, true, next, fun _ => ⟨index, name, rfl, pooled⟩⟩
  | defineGlobal here next =>
    cases decoded.symm.trans (laid.plain place _ here (Int.le_refl _))
    exact ⟨rfl, false, next, nofun⟩
  | leave here =>
    cases decoded.symm.trans (laid.plain place _ here (Int.le_refl _))
    cases leaves
  | @jump _ goal label _ here bound forward within next =>
    obtain ⟨j, distance, there, operation, -⟩ :=
      laid.jump place label goal here bound forward within
    cases decoded.symm.trans there
    rw [operation] at leaves
    cases leaves
  | @jumpIfFalse _ goal label known symbols here bound forward within next other =>
    obtain ⟨j, distance, there, operation, -⟩ :=
      laid.jumpIfFalse place label goal here bound forward within
    cases decoded.symm.trans there
    rw [operation] at leaves
    cases leaves

/-- The name that a global gets is a symbol. -/
theorem named (safe : a.Safe place symbols) (laid : a.Laid code start)
    (decoded : Instruction.decode code (start place) = .ok i)
    (defines : i.operation = .defineGlobal) : symbols[1]? = some true := by
  cases safe with
  | @straight _ op _ here straight =>
    cases decoded.symm.trans (laid.plain place op here straight.operand_nonneg)
    cases (defines : op = .defineGlobal)
    exact straight.elim
  | symbol loads =>
    obtain ⟨index, here, -⟩ := loads
    cases decoded.symm.trans (laid.plain place _ here (Int.natCast_nonneg _))
    cases defines
  | defineGlobal => rfl
  | leave here =>
    cases decoded.symm.trans (laid.plain place _ here (Int.le_refl _))
    cases defines
  | @jump _ goal label _ here bound forward within next =>
    obtain ⟨j, distance, there, operation, -⟩ :=
      laid.jump place label goal here bound forward within
    cases decoded.symm.trans there
    rw [operation] at defines
    cases defines
  | @jumpIfFalse _ goal label known symbols here bound forward within next other =>
    obtain ⟨j, distance, there, operation, -⟩ :=
      laid.jumpIfFalse place label goal here bound forward within
    cases decoded.symm.trans there
    rw [operation] at defines
    cases defines

end Assembler.Safe

/-! ## Methods -/

/-- The code of a method that implements a function is safe from its beginning. -/
theorem Heap.exists_safe_of_implements {h : Heap} {r : Ref .method} {f : Function}
    (implements : Implements (h.method r) f) :
    ∃ a start, h.Coded r a start ∧ a.Safe 0 [] := by
  obtain ⟨a, last, finished, codes, leaves⟩ := implements.code
  obtain ⟨start, coded⟩ := Heap.coded_of_finish finished
  exact ⟨a, start, coded, Codes.safe f.body codes (.leave leaves)⟩

end MessageMachine
