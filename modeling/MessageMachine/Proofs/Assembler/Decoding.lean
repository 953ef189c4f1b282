/-
# Code splits into what it was made of

Every operation whose operand can be read back is read where its bytes begin, so a string
that is made of such operations splits into them, one instruction each. An unsigned
operand can be read if it is a safe integer. A signed one is bounded by the number of its
bytes, which is what layout knows about distances.
-/

import MessageMachine.Proofs.Layout

namespace MessageMachine

/-- The operand of an operation is read back as it was written. -/
def Operation.Readable : Operation → Prop
  | loadConstant n | call n | loadArgument n => n < Binary64.largestExact
  | jump d | jumpIfFalse d => (Leb128.encodeInt d).length ≤ 7
  | nop | loadGlobal | leave | pop | defineGlobal => True

namespace Instruction

variable {code : Code} {offset : Nat} {op : Operation} {rest : List UInt8}

/-- A readable operation is read at the place of its first byte. -/
theorem decode_of_readable (there : code.toList.drop offset = op.encode ++ rest)
    (readable : op.Readable) :
    decode code offset = .ok ⟨offset, op, offset + op.encode.length⟩ := by
  have here : code[offset]? = some op.code := by
    have head : (code.toList.drop offset).head? = some op.code := by
      rw [there]
      cases op <;> rfl
    rw [List.head?_drop, Array.getElem?_toList] at head
    exact head
  have behind (operand : List UInt8) (same : op.encode = op.code :: operand) :
      code.toList.drop (offset + 1) = operand ++ rest := by
    rw [← List.drop_drop, there, same]
    rfl
  have next (operand : List UInt8) (same : op.encode = op.code :: operand) :
      offset + op.encode.length = offset + 1 + operand.length := by
    rw [same, List.length_cons]
    omega
  unfold decode
  simp only [here]
  cases op with
  | nop | loadGlobal | leave | pop | defineGlobal => rfl
  | loadConstant n | call n | loadArgument n =>
    have operand := Leb128.decodeUnsigned_of_lt readable (behind (Leb128.encodeNat n) rfl)
    rw [next (Leb128.encodeNat n) rfl]
    simp only [read, Operation.code, operand]
    rfl
  | jump d | jumpIfFalse d =>
    have operand := Leb128.decodeSigned_of_length readable (behind (Leb128.encodeInt d) rfl)
    rw [next (Leb128.encodeInt d) rfl]
    simp only [read, Operation.code, operand]
    rfl

/-- Operations as instructions, one after the other. -/
def inSequence (offset : Nat) : List Operation → List Instruction
  | [] => []
  | op :: ops =>
    ⟨offset, op, offset + op.encode.length⟩ :: inSequence (offset + op.encode.length) ops

theorem getElem?_inSequence (offset : Nat) (ops : List Operation) (place : Nat) :
    (inSequence offset ops)[place]? = ops[place]?.map fun op =>
      ⟨offset + startOf ops place, op, offset + startOf ops (place + 1)⟩ := by
  induction ops generalizing offset place with
  | nil => rfl
  | cons op ops ih =>
    rw [inSequence]
    cases place with
    | zero => simp
    | succ place =>
      rw [List.getElem?_cons_succ, List.getElem?_cons_succ, ih]
      simp only [startOf_cons_succ, Nat.add_assoc]

@[simp] theorem length_inSequence (offset : Nat) (ops : List Operation) :
    (inSequence offset ops).length = ops.length := by
  induction ops generalizing offset with
  | nil => rfl
  | cons op ops ih => rw [inSequence, List.length_cons, ih, List.length_cons]

theorem decodeFrom_of_readable (ops : List Operation) {limit : Nat} {done : Array Instruction}
    (readable : ∀ op ∈ ops, op.Readable)
    (there : code.toList.drop offset = ops.flatMap Operation.encode)
    (enough : code.size ≤ offset + limit) :
    decodeFrom code limit offset done = .ok (done ++ (inSequence offset ops).toArray) := by
  induction ops generalizing offset limit done with
  | nil =>
    have ends : code.size ≤ offset := by
      have none_ := List.drop_eq_nil_iff.1 there
      rwa [Array.length_toList] at none_
    cases limit <;> simp [decodeFrom, inSequence, ends]
  | cons op ops ih =>
    rw [List.flatMap_cons] at there
    have inside : offset < code.size := by
      have some_ : code.toList.drop offset ≠ [] := by
        rw [there]
        exact List.append_ne_nil_of_left_ne_nil op.encode_ne_nil _
      have le := mt List.drop_eq_nil_of_le some_
      rw [Array.length_toList] at le
      omega
    obtain ⟨limit, rfl⟩ := Nat.exists_eq_add_one.2 (by omega : 0 < limit)
    have positive := List.length_pos_iff.2 op.encode_ne_nil
    have there' : code.toList.drop (offset + op.encode.length) =
        ops.flatMap Operation.encode := by
      rw [← List.drop_drop, there, List.drop_left]
    rw [decodeFrom, if_neg (by omega),
      decode_of_readable there (readable op (List.mem_cons_self ..))]
    simp only
    rw [ih (fun op' mem => readable op' (List.mem_cons_of_mem _ mem)) there' (by omega), inSequence]
    simp

/-- Code of readable operations splits into them. -/
theorem decodeAll_of_readable {ops : List Operation} (readable : ∀ op ∈ ops, op.Readable)
    (made : code = (ops.flatMap Operation.encode).toArray) :
    decodeAll code = .ok (inSequence 0 ops) := by
  have there : code.toList.drop 0 = ops.flatMap Operation.encode := by
    rw [made, List.drop_zero]
  unfold decodeAll
  rw [decodeFrom_of_readable ops readable there (by omega)]
  simp [Except.map]

end Instruction

end MessageMachine
