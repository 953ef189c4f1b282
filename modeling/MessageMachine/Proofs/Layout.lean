/-
# Code that was laid out

A finished method is read back as the parts that it was assembled from. Every part
becomes an instruction of its own, one after the other, and a jump to a label leads to
the place of the label. Layout has made sure that every distance fits the bytes that it
was given, and the analysis of depths has read all of the code; what is left to show is
that reading gives what was written.

Jumps of a finished method may lead anywhere. Only those that go forward are described
here, since no others are ever emitted. Code that is laid out is no longer than an array
can be, so all of its offsets are exact.
-/

import MessageMachine.Assembler
import MessageMachine.Proofs.Leb128

namespace MessageMachine

/-! ## One instruction -/

theorem Operation.encode_ne_nil (op : Operation) : op.encode ≠ [] := by
  unfold encode
  split <;> exact List.cons_ne_nil _ _

namespace Instruction

variable {code : Code} {offset : Nat} {op : Operation} {rest : List UInt8} {i : Instruction}

/-- An instruction that can be read is the one that was written, except that a negative
distance may be read as another. -/
theorem decode_encode (there : code.toList.drop offset = op.encode ++ rest)
    (decoded : decode code offset = .ok i) :
    i.offset = offset ∧ i.next = offset + op.encode.length ∧
      (0 ≤ op.operand → i.operation = op) := by
  have here : code[offset]? = some op.code := by
    have head : (code.toList.drop offset).head? = some op.code := by
      rw [there]
      cases op <;> rfl
    rw [List.head?_drop, Array.getElem?_toList] at head
    exact head
  have behind (operand : List UInt8) (same : op.encode = op.code :: operand) :
      code.toList.drop (offset + 1) = operand ++ rest := by
    rw [← List.drop_drop, there, same]
    rfl
  unfold decode at decoded
  simp only [here] at decoded
  -- An operation without an operand is known by its byte.
  have plain (short : op.encode = [op.code])
      (same : Except.ok ⟨offset, op, offset + 1⟩ = (Except.ok i : Except MalformedCode _)) :
      i.offset = offset ∧ i.next = offset + op.encode.length ∧
        (0 ≤ op.operand → i.operation = op) := by
    cases same
    exact ⟨rfl, by rw [short]; rfl, fun _ => rfl⟩
  have unsigned (make : Nat → Operation) (n : Nat) (same : op = make n)
      (written : op.encode = op.code :: Leb128.encodeNat n)
      (read : (Leb128.decodeUnsigned code ((offset + 1 : Nat) : Int)).map
        (fun operand => (⟨offset, make operand.value, offset + 1 + operand.size⟩ : Instruction)) =
          .ok i) :
      i.offset = offset ∧ i.next = offset + op.encode.length ∧
        (0 ≤ op.operand → i.operation = op) := by
    cases found : Leb128.decodeUnsigned code ((offset + 1 : Nat) : Int) with
    | error fault =>
      rw [found] at read
      cases read
    | ok operand =>
      have exact_ := Leb128.decodeUnsigned_encodeNat (behind _ written) found
      subst exact_
      rw [found] at read
      cases read
      refine ⟨rfl, ?_, fun _ => same.symm⟩
      rw [written, List.length_cons]
      show offset + 1 + (Leb128.encodeNat n).length = _
      omega
  have signed (make : Int → Operation) (d : Int) (same : op = make d) (number : op.operand = d)
      (written : op.encode = op.code :: Leb128.encodeInt d)
      (read : (Leb128.decodeSigned code ((offset + 1 : Nat) : Int)).map
        (fun operand => (⟨offset, make operand.value, offset + 1 + operand.size⟩ : Instruction)) =
          .ok i) :
      i.offset = offset ∧ i.next = offset + op.encode.length ∧
        (0 ≤ op.operand → i.operation = op) := by
    cases found : Leb128.decodeSigned code ((offset + 1 : Nat) : Int) with
    | error fault =>
      rw [found] at read
      cases read
    | ok operand =>
      have size := Leb128.size_decodeSigned (behind _ written) found
      rw [found] at read
      cases read
      refine ⟨rfl, ?_, fun forward => ?_⟩
      · rw [written, List.length_cons, ← size]
        show offset + 1 + operand.size = _
        omega
      · rw [number] at forward
        obtain ⟨n, rfl⟩ := Int.eq_ofNat_of_zero_le forward
        have exact_ := Leb128.decodeSigned_encodeInt (behind _ written) found
        subst exact_
        exact same.symm
  cases op with
  | nop | loadGlobal | leave | pop | defineGlobal => exact plain rfl decoded
  | loadConstant n => exact unsigned .loadConstant n rfl rfl decoded
  | call n => exact unsigned .call n rfl rfl decoded
  | loadArgument n => exact unsigned .loadArgument n rfl rfl decoded
  | jump d => exact signed .jump d rfl rfl rfl decoded
  | jumpIfFalse d => exact signed .jumpIfFalse d rfl rfl rfl decoded

/-! ## A whole string -/

/-- Where an operation stands in the code of several. -/
def startOf (ops : List Operation) (place : Nat) : Nat :=
  ((ops.take place).flatMap Operation.encode).length

@[simp] theorem startOf_zero (ops : List Operation) : startOf ops 0 = 0 := rfl

@[simp] theorem startOf_cons_succ (op : Operation) (ops : List Operation) (place : Nat) :
    startOf (op :: ops) (place + 1) = op.encode.length + startOf ops place := by
  simp [startOf]

theorem startOf_mono (ops : List Operation) {place place' : Nat} (le : place ≤ place') :
    startOf ops place ≤ startOf ops place' := by
  induction ops generalizing place place' with
  | nil => simp [startOf]
  | cons op ops ih =>
    cases place with
    | zero => exact Nat.zero_le _
    | succ place =>
      cases place' with
      | zero => cases le
      | succ place' => simpa using ih (Nat.le_of_succ_le_succ le)

theorem startOf_le (ops : List Operation) (place : Nat) :
    startOf ops place ≤ (ops.flatMap Operation.encode).length := by
  have all := startOf_mono ops (Nat.le_add_right place ops.length)
  unfold startOf at all ⊢
  rwa [List.take_of_length_le (Nat.le_add_left ops.length place)] at all

/-- Code that splits into instructions can be read at the start of every operation. -/
theorem decode_startOf (ops : List Operation) {limit : Nat} {done result : Array Instruction}
    (there : code.toList.drop offset = ops.flatMap Operation.encode)
    (enough : code.size ≤ offset + limit)
    (decoded : decodeFrom code limit offset done = .ok result) {place : Nat}
    (found : ops[place]? = some op) :
    ∃ i, decode code ((offset + startOf ops place : Nat) : Int) = .ok i ∧
      i.offset = offset + startOf ops place ∧ i.next = offset + startOf ops (place + 1) ∧
        (0 ≤ op.operand → i.operation = op) := by
  induction ops generalizing offset limit done place with
  | nil => simp at found
  | cons first others ih =>
    rw [List.flatMap_cons] at there
    have inside : offset < code.size := by
      have some_ : code.toList.drop offset ≠ [] := by
        rw [there]
        exact List.append_ne_nil_of_left_ne_nil first.encode_ne_nil _
      have le := mt List.drop_eq_nil_of_le some_
      rw [Array.length_toList] at le
      omega
    cases limit with
    | zero => omega
    | succ limit =>
      unfold decodeFrom at decoded
      rw [if_neg (by omega)] at decoded
      split at decoded
      · cases decoded
      · next i read =>
        obtain ⟨stands, next, same⟩ := decode_encode there read
        cases place with
        | zero =>
          cases found
          refine ⟨i, read, stands, ?_, same⟩
          rw [startOf_cons_succ, startOf_zero]
          exact next
        | succ place =>
          have there' : code.toList.drop i.next = others.flatMap Operation.encode := by
            rw [next, ← List.drop_drop, there, List.drop_left]
          have positive := List.length_pos_iff.2 first.encode_ne_nil
          obtain ⟨j, read', stands', next', same'⟩ := ih there' (by omega) decoded found
          rw [next, Nat.add_assoc, ← startOf_cons_succ] at read' stands' next'
          exact ⟨j, read', stands', next', same'⟩

/-- A jump between places that an offset can tell leads where its distance says. -/
theorem target_eq {next place : Nat} {distance : Int} (reaches : (next : Int) + distance = place)
    (small : place ≤ Binary64.largestExact) : target next distance = place := by
  have exact_ : Binary64.isExact ((place : Int) : Rat) = true :=
    (Binary64.isExact_natCast place).trans (decide_eq_true small)
  unfold target Binary64.nearest
  rw [reaches, if_pos exact_]
  rfl

end Instruction

namespace Assembler

/-! ## Offsets -/

/-- Offsets are collected one by one, each the sum of the sizes before it. -/
theorem foldl_offsets (sizes : List Nat) (done : Array Nat) (total last : Nat)
    (size : done.size = last + 1) (ends : done[last]? = some total) :
    (∀ place ≤ last, (sizes.foldl
        (fun (acc : Array Nat × Nat) size => (acc.1.push (acc.2 + size), acc.2 + size))
        (done, total)).1[place]? = done[place]?) ∧
      ∀ place ≤ sizes.length, (sizes.foldl
        (fun (acc : Array Nat × Nat) size => (acc.1.push (acc.2 + size), acc.2 + size))
        (done, total)).1[last + place]? = some (total + (sizes.take place).sum) := by
  induction sizes generalizing done total last with
  | nil =>
    refine ⟨fun _ _ => rfl, fun place le => ?_⟩
    have zero : place = 0 := Nat.le_zero.1 le
    subst zero
    exact ends
  | cons first others ih =>
    have pushed : (done.push (total + first))[last + 1]? = some (total + first) := by
      rw [← size, Array.getElem?_push_size]
    obtain ⟨kept, added⟩ := ih (done.push (total + first)) (total + first) (last + 1)
      (by rw [Array.size_push, size]) pushed
    have below (place : Nat) (le : place ≤ last) :
        (done.push (total + first))[place]? = done[place]? :=
      Array.getElem?_push_lt (by omega) |>.trans (Array.getElem?_eq_getElem (by omega)).symm
    refine ⟨fun place le => ?_, fun place le => ?_⟩
    · rw [List.foldl_cons, kept place (by omega), below place le]
    · cases place with
      | zero =>
        rw [List.foldl_cons]
        exact (kept last (by omega)).trans ((below last (Nat.le_refl _)).trans ends)
      | succ place =>
        have there := added place (Nat.le_of_succ_le_succ le)
        rw [Nat.add_assoc, Nat.add_comm 1] at there
        rw [List.foldl_cons, there, List.take_succ_cons, List.sum_cons, Nat.add_assoc]

theorem getD_offsets (sizes : Array Nat) {place : Nat} (le : place ≤ sizes.size) :
    (offsets sizes).getD place 0 = (sizes.toList.take place).sum := by
  obtain ⟨-, added⟩ := foldl_offsets sizes.toList #[0] 0 0 rfl rfl
  have there := added place le
  rw [Nat.zero_add, Nat.zero_add] at there
  unfold offsets
  rw [← Array.foldl_toList, Array.getD_eq_getD_getElem?, there]
  rfl

/-! ## Finished methods -/

/-- A method reads as the parts it was assembled from, each of which starts at an
offset of its own. -/
structure Laid (a : Assembler) (code : Code) (start : Nat → Nat) : Prop where
  start_zero : start 0 = 0
  start_mono : ∀ place place', place ≤ place' → start place ≤ start place'
  plain : ∀ place op, a.parts[place]? = some (.plain op) → 0 ≤ op.operand →
    Instruction.decode code (start place) = .ok ⟨start place, op, start (place + 1)⟩
  jump : ∀ place label goal, a.parts[place]? = some (.jump label) →
    a.place? label = some goal → place < goal → goal ≤ a.parts.size →
    ∃ i distance, Instruction.decode code (start place) = .ok i ∧
      i.operation = .jump distance ∧ i.next = start (place + 1) ∧ i.jumpTarget = start goal
  jumpIfFalse : ∀ place label goal, a.parts[place]? = some (.jumpIfFalse label) →
    a.place? label = some goal → place < goal → goal ≤ a.parts.size →
    ∃ i distance, Instruction.decode code (start place) = .ok i ∧
      i.operation = .jumpIfFalse distance ∧ i.next = start (place + 1) ∧
        i.jumpTarget = start goal

/-- The code of a layout that was settled. -/
theorem code_of_layout {a : Assembler} {code : Code} (laid : a.layout = .ok code) :
    code = ((a.operations a.sizes).toList.flatMap Operation.encode).toArray ∧
      (a.operations a.sizes).map (·.encode.length) = a.sizes ∧ code.size ≤ maxCodeSize := by
  unfold layout at laid
  split at laid
  · simp only at laid
    split at laid
    next settled =>
      split at laid
      next fits =>
        cases laid
        exact ⟨rfl, settled, fits⟩
      · cases laid
    · cases laid
  · cases laid

theorem getD_offsets_sizes {a : Assembler}
    (settled : (a.operations a.sizes).map (·.encode.length) = a.sizes) {place : Nat}
    (le : place ≤ a.parts.size) :
    (offsets a.sizes).getD place 0 = Instruction.startOf (a.operations a.sizes).toList place := by
  have size : a.sizes.size = a.parts.size := by
    rw [← settled]
    simp [operations]
  rw [getD_offsets _ (by omega)]
  have lengths : a.sizes.toList = (a.operations a.sizes).toList.map (·.encode.length) := by
    conv => lhs; rw [← settled]
    exact Array.toList_map
  unfold Instruction.startOf
  rw [List.length_flatMap, List.map_take, lengths]

/-- Where a forward jump of a settled layout stands and leads to. -/
theorem distance_eq {a : Assembler}
    (settled : (a.operations a.sizes).map (·.encode.length) = a.sizes) {place goal : Nat}
    {part : Part} {label : Label} (found : a.parts[place]? = some part)
    (bound : a.place? label = some goal) (within : goal ≤ a.parts.size) :
    (Instruction.startOf (a.operations a.sizes).toList (place + 1) : Int) +
        a.distance (offsets a.sizes) place (a.sizes.getD place 0) label =
      Instruction.startOf (a.operations a.sizes).toList goal := by
  have inside : place < a.parts.size := (Array.getElem?_eq_some_iff.1 found).1
  have count : (a.operations a.sizes).toList.length = a.parts.size := by
    simp [operations]
  have size : Instruction.startOf (a.operations a.sizes).toList (place + 1) =
      Instruction.startOf (a.operations a.sizes).toList place + a.sizes.getD place 0 := by
    obtain ⟨op, there⟩ : ∃ op, (a.operations a.sizes).toList[place]? = some op :=
      ⟨_, List.getElem?_eq_getElem (by omega)⟩
    have length : a.sizes.getD place 0 = op.encode.length := by
      conv => lhs; rw [← settled]
      rw [Array.getD_eq_getD_getElem?, Array.getElem?_map, ← Array.getElem?_toList, there]
      rfl
    unfold Instruction.startOf
    rw [List.take_add_one, there, List.flatMap_append, List.length_append, length]
    simp
  unfold distance
  simp only [bound, Option.getD_some]
  rw [getD_offsets_sizes settled within, getD_offsets_sizes settled (Nat.le_of_lt inside), size]
  omega

/-- A finished method is laid out. -/
theorem laid_of_finish {a : Assembler} {m : Method} (finished : a.finish = .ok m) :
    ∃ start, Laid a m.code start := by
  unfold finish at finished
  cases made : a.layout with
  | error failure =>
    rw [made] at finished
    cases finished
  | ok code =>
    rw [made] at finished
    simp only at finished
    split at finished
    · cases finished
    next capacity accepted =>
      cases finished
      obtain ⟨written, settled, fits⟩ := code_of_layout made
      have small : code.size ≤ Binary64.largestExact := Nat.le_trans fits (by decide)
      obtain ⟨ops, same_ops⟩ : ∃ ops, (a.operations a.sizes).toList = ops := ⟨_, rfl⟩
      have split_ : ∃ result, Instruction.decodeFrom code code.size 0 #[] = .ok result := by
        unfold StackDepth.maxStack StackDepth.analyse Instruction.decodeAll at accepted
        cases decoded : Instruction.decodeFrom code code.size 0 #[] with
        | error fault =>
          rw [decoded] at accepted
          cases accepted
        | ok result => exact ⟨result, rfl⟩
      obtain ⟨result, decoded⟩ := split_
      have whole : code.toList.drop 0 = ops.flatMap Operation.encode := by
        rw [List.drop_zero, written, same_ops]
      have read (place : Nat) (op : Operation) (found : ops[place]? = some op) :
          ∃ i, Instruction.decode code (Instruction.startOf ops place) = .ok i ∧
            i.offset = Instruction.startOf ops place ∧
              i.next = Instruction.startOf ops (place + 1) ∧
                (0 ≤ op.operand → i.operation = op) := by
        obtain ⟨i, there, stands, next, same⟩ :=
          Instruction.decode_startOf ops whole (Nat.le_add_left _ _) decoded found
        rw [Nat.zero_add] at there stands next
        exact ⟨i, there, stands, next, same⟩
      have part (place : Nat) (part : Part) (found : a.parts[place]? = some part) :
          ops[place]? = some (a.resolve a.sizes (offsets a.sizes) place part) := by
        rw [← same_ops, Array.getElem?_toList, operations, Array.getElem?_mapIdx, found]
        rfl
      -- A forward jump covers a distance that can be read back, up to a place that is exact.
      have jumps (make : Int → Operation) (place goal : Nat) (p : Part) (label : Label)
          (found : a.parts[place]? = some p)
          (resolved : a.resolve a.sizes (offsets a.sizes) place p =
            make (a.distance (offsets a.sizes) place (a.sizes.getD place 0) label))
          (number : ∀ d, (make d).operand = d) (bound : a.place? label = some goal)
          (forward : place < goal) (within : goal ≤ a.parts.size) :
          ∃ i distance, Instruction.decode code (Instruction.startOf ops place) = .ok i ∧
            i.operation = make distance ∧ i.next = Instruction.startOf ops (place + 1) ∧
              i.jumpTarget = Instruction.startOf ops goal := by
        have reaches := distance_eq settled found bound within
        rw [same_ops] at reaches
        have ahead := Instruction.startOf_mono ops (Nat.succ_le_of_lt forward)
        obtain ⟨i, there, -, next, same⟩ := read place _ (part place p found)
        rw [resolved] at same
        have operation := same (by
          rw [number]
          exact Int.le_of_add_le_add_left (by rw [reaches]; exact_mod_cast ahead))
        refine ⟨i, _, there, operation, next, ?_⟩
        have inside : Instruction.startOf ops goal ≤ Binary64.largestExact := by
          refine Nat.le_trans (Nat.le_trans (Instruction.startOf_le ops goal) ?_) small
          rw [← whole, List.drop_zero]
          exact Nat.le_of_eq Array.length_toList
        unfold Instruction.jumpTarget
        rw [operation, number, next]
        exact Instruction.target_eq reaches inside
      refine ⟨Instruction.startOf ops, rfl, fun _ _ => Instruction.startOf_mono ops, ?_, ?_, ?_⟩
      · intro place op found positive
        obtain ⟨⟨_, _, _⟩, there, rfl, rfl, same⟩ := read place _ (part place _ found)
        cases same positive
        exact there
      · intro place label goal found bound forward within
        exact jumps .jump place goal _ label found rfl (fun _ => rfl) bound forward within
      · intro place label goal found bound forward within
        exact jumps .jumpIfFalse place goal _ label found rfl (fun _ => rfl) bound forward within

end Assembler

end MessageMachine
