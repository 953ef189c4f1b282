/-
# How exact unsigned operands are

What an unsigned operand stands for is the sum of its groups, a natural number. Reading adds the
groups up as binary64 numbers and looks at the result only at the end. That is enough:
rounding never brings a large sum back into the safe range, and a sum that stays in it is not
rounded. So what is read is exact, and what is too large for that is refused.

There are scales for 147 groups. With more of them a group of zeros is multiplied by infinity,
the sum is no number any more, and the operand is refused although zeros add nothing. No operand
that was written is of this kind, since what is written has as few groups as its value allows.
-/

import MessageMachine.Proofs.Leb128.Signed

namespace MessageMachine.Leb128

open Binary64

variable {bytes rest : List UInt8} {n k : Nat} {code : Array UInt8} {offset : Nat}

/-! ## Where an operand ends -/

/-- Groups never end where every byte is marked as followed by another. -/
theorem groups_eq_none (marked : ∀ byte ∈ bytes, 128 ≤ byte.toNat) : groups bytes = none := by
  induction bytes with
  | nil => rfl
  | cons byte bytes ih =>
    have high : ¬ byte < 128 := fun low =>
      absurd (UInt8.lt_iff_toNat_lt.1 low) (Nat.not_lt.2 (marked byte List.mem_cons_self))
    rw [groups, if_neg high, ih fun other later => marked other (List.mem_cons_of_mem _ later)]
    rfl

/-- The groups that are found have a sum, and more bytes may follow. -/
theorem exists_spells_of_groups {found : List UInt8} (ends : groups bytes = some found) :
    ∃ n after, Spells found n ∧ bytes = found ++ after := by
  obtain ⟨⟨v, signed⟩, after, split⟩ := spellsSigned_of_groups ends
  rcases signed.spells with ⟨-, -, spells⟩ | ⟨-, -, spells, -⟩
  · exact ⟨_, after, spells, split⟩
  · exact ⟨_, after, spells, split⟩

/-! ## How many groups there are -/

theorem length_encodeNat_pos (n : Nat) : 0 < (encodeNat n).length :=
  List.length_pos_of_ne_nil (spells_encodeNat n).1.ne_nil

/-- An operand has as many groups as its size asks for. -/
theorem length_encodeNat_le_iff (n k : Nat) : (encodeNat n).length ≤ k + 1 ↔ n < 128 ^ (k + 1) := by
  induction k generalizing n with
  | zero =>
    rw [encodeNat]
    split
    next small => exact iff_of_true (Nat.le_refl 1) small
    next large =>
      have others := length_encodeNat_pos (n / 128)
      rw [List.length_cons, Nat.zero_add, pow_one]
      omega
  | succ k ih =>
    rw [encodeNat]
    split
    next small =>
      have scale : 128 ^ 1 ≤ 128 ^ (k + 1 + 1) := Nat.pow_le_pow_right (by decide) (by omega)
      exact iff_of_true (Nat.le_add_left 1 _) (small.trans_le scale)
    next large =>
      rw [List.length_cons, Nat.add_le_add_iff_right, ih (n / 128), pow_succ _ (k + 1),
        Nat.div_lt_iff_lt_mul (by decide)]

/-- Nothing that stands for a number has fewer groups than what is written for it. -/
theorem Spells.length_encodeNat_le (spells : Spells bytes n) :
    (encodeNat n).length ≤ bytes.length := by
  obtain ⟨k, length⟩ := Nat.exists_eq_add_one.2 (List.length_pos_of_ne_nil spells.ne_nil)
  have small := spells.lt
  rw [length] at small ⊢
  exact (length_encodeNat_le_iff n k).2 small

/-! ## What is read -/

/-- What a sum is read as: itself if it is safe, unless there were too many groups to
add up. -/
theorem Spells.toSafeInteger?_sum (spells : Spells bytes n) :
    (sum bytes).value.toSafeInteger? =
      if (n : Int) ≤ maxSafeInteger ∧ bytes.length ≤ 147 then some (n : Int) else none := by
  have limit : maxSafeInteger < largestExact := by decide
  by_cases safe : (n : Int) ≤ maxSafeInteger
  · have small : 0 + 128 ^ 0 * n ≤ largestExact := by omega
    have exact_ : (finite (n : Rat)).toSafeInteger? = some (n : Int) := by
      rw [← ofInt_natCast (by omega)]
      exact toSafeInteger?_eq_some_iff.2 ⟨rfl, by omega⟩
    rw [sum_eq, spells.value_foldl 0 0 small, Nat.zero_add, Nat.zero_add, pow_zero, Nat.one_mul]
    by_cases few : bytes.length ≤ 147
    · rw [if_pos few, if_pos ⟨safe, few⟩, exact_]
    · rw [if_neg few, if_neg fun both => few both.2]
      rfl
  · rw [if_neg fun both => safe both.1]
    cases read : (sum bytes).value.toSafeInteger? with
    | none => rfl
    | some found =>
      have whole : Whole (min (0 + 1 * n) largestExact) (sum bytes).value :=
        spells.whole_foldl ⟨0, rfl, le_refl _⟩ ⟨1, rfl, le_refl _⟩
      obtain ⟨least, most⟩ := whole.toSafeInteger? read
      omega

/-- What is read where groups stand. -/
theorem decodeUnsigned_of_spells (there : code.toList.drop offset = bytes ++ rest)
    (spells : Spells bytes n) :
    decodeUnsigned code offset =
      if (n : Int) ≤ maxSafeInteger ∧ bytes.length ≤ 147 then .ok ⟨n, bytes.length⟩
      else .error (.at .oversizedOperand offset) := by
  rw [decodeUnsigned, Leb128.read, groupsAt_ofNat, there, spells.groups_append]
  simp only [unsignedValue, spells.toSafeInteger?_sum]
  split_ifs
  · rfl
  · rfl

/-- What is read where no groups end. -/
theorem decodeUnsigned_of_marked (marked : ∀ byte ∈ code.toList.drop offset, 128 ≤ byte.toNat) :
    decodeUnsigned code offset = .error (.at .truncatedOperand offset) := by
  rw [decodeUnsigned, Leb128.read, groupsAt_ofNat, groups_eq_none marked]
  rfl

/-- What is read is the sum of the groups that stand there. -/
theorem exists_spells_of_decodeUnsigned {operand : Operand Nat}
    (read : decodeUnsigned code offset = .ok operand) :
    ∃ bytes rest, code.toList.drop offset = bytes ++ rest ∧ operand.size = bytes.length ∧
      Spells bytes operand.value ∧ (operand.value : Int) ≤ maxSafeInteger := by
  cases ends : groups (code.toList.drop offset) with
  | none =>
    rw [decodeUnsigned, Leb128.read, groupsAt_ofNat, ends] at read
    cases read
  | some bytes =>
    obtain ⟨n, rest, spells, there⟩ := exists_spells_of_groups ends
    rw [decodeUnsigned_of_spells there spells] at read
    split_ifs at read with safe
    cases read
    exact ⟨bytes, rest, there, rfl, spells, safe.1⟩

/-- How a number is written: it is read again whatever stands before and after it, and nothing
that is read as the same number is shorter. -/
structure WrittenShortest (n : Nat) (bytes : List UInt8) : Prop where
  written : encodeUnsigned (ofInt n) = .ok bytes
  delimited : ∀ before after : List UInt8,
    decodeUnsigned (before ++ bytes ++ after).toArray before.length = .ok ⟨n, bytes.length⟩
  shortest : ∀ (code : Array UInt8) (offset : Nat) (operand : Operand Nat),
    decodeUnsigned code offset = .ok operand → operand.value = n → bytes.length ≤ operand.size

/-- What reading at an offset comes to. -/
structure ReadExactly (code : Array UInt8) (offset : Nat) : Prop where
  /-- What is read is the exact sum of groups that stand there, and a safe integer. -/
  summed : ∀ operand, decodeUnsigned code offset = .ok operand →
    ∃ bytes rest, code.toList.drop offset = bytes ++ rest ∧ operand.size = bytes.length ∧
      Spells bytes operand.value ∧ (operand.value : Int) ≤ maxSafeInteger
  /-- Groups that run off the end are refused. -/
  truncated : (∀ byte ∈ code.toList.drop offset, 128 ≤ byte.toNat) →
    decodeUnsigned code offset = .error (.at .truncatedOperand offset)
  /-- Groups that end are read if their sum is safe and there are scales for all of them, and
  refused otherwise. -/
  ended : ∀ bytes rest n, code.toList.drop offset = bytes ++ rest → Spells bytes n →
    decodeUnsigned code offset =
      if (n : Int) ≤ maxSafeInteger ∧ bytes.length ≤ 147 then .ok ⟨n, bytes.length⟩
      else .error (.at .oversizedOperand offset)

/-- Unsigned operands are exact. What was written is read again, and what is read is never rounded:
a sum that is no safe integer is refused. -/
theorem decodeUnsigned_exact :
    (∀ n : Nat, (n : Int) ≤ maxSafeInteger → ∃ bytes, WrittenShortest n bytes) ∧
      ∀ (code : Array UInt8) (offset : Nat), ReadExactly code offset := by
  constructor
  · intro n safe
    have limit : (maxSafeInteger.natAbs : Int) = maxSafeInteger := rfl
    have small : n < largestExact := by
      have size : maxSafeInteger < largestExact := by decide
      omega
    refine ⟨encodeNat n, ?written, fun before after => ?delimited, ?shortest⟩
    case written =>
      have integer : (ofInt (n : Int)).toSafeInteger? = some (n : Int) :=
        toSafeInteger?_eq_some_iff.2 ⟨rfl, by omega⟩
      rw [encodeUnsigned, unsigned, integer]
      rfl
    case delimited =>
      have there : (before ++ encodeNat n ++ after).toArray.toList.drop before.length =
          encodeNat n ++ after := by
        rw [List.toList_toArray, List.append_assoc, List.drop_left]
      exact decodeUnsigned_of_lt small there
    case shortest =>
      rintro code offset operand read rfl
      obtain ⟨bytes, rest, -, size, spells, -⟩ := exists_spells_of_decodeUnsigned read
      rw [size]
      exact spells.length_encodeNat_le
  · intro code offset
    exact ⟨fun _ => exists_spells_of_decodeUnsigned, decodeUnsigned_of_marked,
      fun _ _ _ => decodeUnsigned_of_spells⟩

/-- The same number twice, the second time padded with zeros. -/
example :
    decodeUnsigned #[172, 2, 172, 130, 128, 0] 0 = .ok ⟨300, 2⟩ ∧
      decodeUnsigned #[172, 2, 172, 130, 128, 0] 2 = .ok ⟨300, 4⟩ := by
  decide +kernel

end MessageMachine.Leb128
