/-
# Short code

Code of fewer than `2 ^ 31` bytes is always laid out if every label that is jumped to is
bound: its sizes are settled, its distances can be read back, and it is no longer than code
may be. What is left to the one who emits is that the operands of all other instructions
can be read back as well.
-/

import MessageMachine.Proofs.Assembler.Decoding
import MessageMachine.Proofs.Assembler.Growth

namespace MessageMachine.Assembler

variable {a : Assembler}

/-- In short code the distances of jumps can be read back. -/
theorem readable_of_parts (placed : a.Placed) (short : total a.sizes < 2 ^ 31)
    (each : ∀ (place : Nat) op, a.parts[place]? = some (.plain op) → op.Readable) :
    ∀ op ∈ (a.operations a.sizes).toList, op.Readable := by
  intro op made
  obtain ⟨place, inside, there⟩ := List.getElem_of_mem made
  have inside' : place < a.parts.size := by
    simpa [operations] using inside
  have here := Array.getElem?_eq_getElem inside'
  have resolved : op = a.resolve a.sizes (offsets a.sizes) place a.parts[place] := by
    rw [← there]
    simp [operations]
  generalize a.parts[place] = part at here resolved
  rw [resolved]
  have count : a.sizes.size = a.parts.size := by
    rw [← map_operations_sizes placed short]
    simp [operations]
  have near (label : Label) : (Leb128.encodeInt
      (a.distance (offsets a.sizes) place (a.sizes.getD place 0) label)).length ≤ 7 := by
    have reach := natAbs_distance_le placed count inside' label
    exact (Leb128.length_encodeInt_le_iff _ 6).2 (by omega)
  cases part with
  | plain op => exact each place op here
  | jump target | jumpIfFalse target => exact near target

/-- Short code is laid out, and takes what was settled. -/
theorem layout_of_short (placed : a.Placed) (bound : a.allBound = true)
    (short : total a.sizes < 2 ^ 31) :
    a.layout = .ok ((a.operations a.sizes).toList.flatMap Operation.encode).toArray ∧
      ((a.operations a.sizes).toList.flatMap Operation.encode).length = total a.sizes := by
  have settled := map_operations_sizes placed short
  have size : ((a.operations a.sizes).toList.flatMap Operation.encode).length = total a.sizes := by
    rw [List.length_flatMap, total]
    conv => rhs; rw [← settled]
    rw [Array.toList_map]
  have fits : ((a.operations a.sizes).toList.flatMap Operation.encode).length ≤ maxCodeSize := by
    unfold maxCodeSize
    omega
  refine ⟨?_, size⟩
  unfold layout
  rw [if_pos bound]
  simp only
  rw [if_pos settled, if_pos (by simpa using fits)]

/-- In settled code a jump leads where its label is bound. -/
theorem jumpTarget_eq (settled : (a.operations a.sizes).map (·.encode.length) = a.sizes)
    (short : total a.sizes < 2 ^ 31) {place goal : Nat} {part : Part} {label : Label}
    (here : a.parts[place]? = some part) (jumps : part.label? = some label)
    (bound : a.place? label = some goal) (within : goal ≤ a.parts.size) {i : Instruction}
    (operation : i.operation = a.resolve a.sizes (offsets a.sizes) place part)
    (next : i.next = Instruction.startOf (a.operations a.sizes).toList (place + 1)) :
    i.jumpTarget = Instruction.startOf (a.operations a.sizes).toList goal := by
  have reaches := distance_eq settled here bound within
  have inside : Instruction.startOf (a.operations a.sizes).toList goal ≤ total a.sizes := by
    refine Nat.le_trans (Instruction.startOf_le _ goal) (Nat.le_of_eq ?_)
    rw [List.length_flatMap, total]
    conv => rhs; rw [← settled]
    rw [Array.toList_map]
  have limit : 2 ^ 31 ≤ Binary64.largestExact := by decide
  have operand : i.operation.operand =
      a.distance (offsets a.sizes) place (a.sizes.getD place 0) label := by
    rw [operation]
    cases part <;> cases jumps <;> rfl
  unfold Instruction.jumpTarget
  rw [operand, next]
  exact Instruction.target_eq reaches (by omega)

end MessageMachine.Assembler
