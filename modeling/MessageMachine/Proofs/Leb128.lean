/-
# Operands are read as they were written

Reading sums groups in binary64 arithmetic and refuses what is not a safe integer.
An operand that was written and can be read is therefore the one that was written.
If it is small every intermediate result is exact, and if it is not the sum is too
large to be read.

`Spells` is what both forms of writing have in common: groups that end where they
should, with the number that they stand for.
-/

import MessageMachine.Leb128
import MessageMachine.Proofs.Binary64

namespace MessageMachine.Leb128

open Binary64

/-! ## Spellings -/

/-- Groups of seven bits, all but the last marked as followed by another, and the
natural number that they stand for. -/
inductive Spells : List UInt8 → Nat → Prop
  | last {byte : UInt8} : byte.toNat < 128 → Spells [byte] byte.toNat
  | more {byte : UInt8} {rest : List UInt8} {n : Nat} :
      128 ≤ byte.toNat → Spells rest n → Spells (byte :: rest) (byte.toNat % 128 + 128 * n)

theorem Spells.ne_nil {bytes : List UInt8} {n : Nat} (spells : Spells bytes n) : bytes ≠ [] := by
  cases spells <;> exact List.cons_ne_nil _ _

/-- A spelling ends where it ends, whatever follows it. -/
theorem Spells.groups_append {bytes : List UInt8} {n : Nat} (spells : Spells bytes n)
    (rest : List UInt8) : groups (bytes ++ rest) = some bytes := by
  induction spells with
  | last small =>
    have low : _ < (128 : UInt8) := UInt8.lt_iff_toNat_lt.2 small
    simp only [List.cons_append, List.nil_append, groups, if_pos low]
  | more marked _ ih =>
    have high : ¬ _ < (128 : UInt8) := fun low =>
      absurd (UInt8.lt_iff_toNat_lt.1 low) (Nat.not_lt.2 marked)
    simp only [List.cons_append, groups, if_neg high, ih, Option.map_some]

/-! ## Sums -/

theorem ofInt_natCast {n : Nat} (small : n ≤ largestExact) : ofInt (n : Int) = finite n :=
  round_natCast small

theorem group_le (byte : UInt8) : byte.toNat % 128 ≤ largestExact :=
  Nat.le_trans (Nat.le_of_lt (Nat.mod_lt _ (by decide))) (by decide)

/-- The sum of a spelling is at least what it stands for, up to the largest size at
which that matters. -/
theorem Spells.whole_foldl {bytes : List UInt8} {n : Nat} (spells : Spells bytes n) {sum : Sum}
    {low scale : Nat} (value : Whole low sum.value) (scales : Whole scale sum.scale) :
    Whole (min (low + scale * n) largestExact) (bytes.foldl Sum.add sum).value := by
  have group (byte : UInt8) :
      Whole (byte.toNat % 128) (ofInt ((byte.toNat % 128 : Nat) : Int)) := by
    rw [ofInt_natCast (group_le byte)]
    exact ⟨_, rfl, Nat.le_refl _⟩
  have base : Whole 128 (ofInt 128) := by
    rw [show (128 : Int) = ((128 : Nat) : Int) from rfl, ofInt_natCast (by decide)]
    exact ⟨_, rfl, Nat.le_refl _⟩
  induction spells generalizing sum low scale with
  | @last byte small =>
    refine (value.add ((group byte).mul scales)).mono ?_
    rw [Nat.mod_eq_of_lt small, Nat.mul_comm scale]
    omega
  | @more byte rest n marked spells ih =>
    refine (ih (value.add ((group byte).mul scales)) (scales.mul base)).mono ?_
    have expand : scale * (byte.toNat % 128 + 128 * n) =
        byte.toNat % 128 * scale + scale * 128 * n := by
      rw [Nat.mul_add, Nat.mul_comm scale, Nat.mul_assoc]
    rw [expand]
    -- Where the scale has been cut off, one more unit of it is large enough.
    rcases Nat.lt_or_ge largestExact (scale * 128) with cut | whole
    · rw [Nat.min_eq_right (Nat.le_of_lt cut)]
      cases n with
      | zero => omega
      | succ n =>
        have large : largestExact ≤ largestExact * (n + 1) :=
          Nat.le_mul_of_pos_right _ (Nat.succ_pos n)
        omega
    · rw [Nat.min_eq_left whole]
      omega

/-- The sum of a short spelling of a small number is exact. -/
theorem Spells.exact_foldl {bytes : List UInt8} {n : Nat} (spells : Spells bytes n)
    (value scale : Nat) (short : scale * 128 ^ (bytes.length - 1) ≤ largestExact)
    (small : value + scale * n ≤ largestExact) :
    (bytes.foldl Sum.add ⟨finite value, finite scale⟩).value =
      finite ((value + scale * n : Nat) : Rat) := by
  have added (value scale : Nat) (byte : UInt8)
      (fits : value + scale * (byte.toNat % 128) ≤ largestExact) :
      (finite value).add ((ofInt ((byte.toNat % 128 : Nat) : Int)).mul (finite scale)) =
        finite ((value + scale * (byte.toNat % 128) : Nat) : Rat) := by
    rw [ofInt_natCast (group_le byte)]
    simp only [mul, exactProduct_eq]
    rw [← Rat.natCast_mul, Nat.mul_comm, round_natCast (by omega)]
    simp only [add, exactSum_eq]
    rw [← Rat.natCast_add, round_natCast fits]
  induction spells generalizing value scale with
  | @last byte low =>
    have fits : value + scale * (byte.toNat % 128) ≤ largestExact := by
      rw [Nat.mod_eq_of_lt low]
      exact small
    refine (added value scale byte fits).trans ?_
    rw [Nat.mod_eq_of_lt low]
  | @more byte rest n marked spells ih =>
    have expand : scale * (byte.toNat % 128 + 128 * n) =
        scale * (byte.toNat % 128) + scale * 128 * n := by
      rw [Nat.mul_add, Nat.mul_assoc]
    obtain ⟨next, others, rfl⟩ := List.exists_cons_of_ne_nil spells.ne_nil
    have length : (byte :: next :: others).length - 1 = (next :: others).length - 1 + 1 := rfl
    rw [length, Nat.pow_succ, Nat.mul_comm _ 128, ← Nat.mul_assoc] at short
    have scaled : scale * 128 ≤ largestExact := by
      refine Nat.le_trans (Nat.le_mul_of_pos_right _ ?_) short
      exact Nat.pow_pos (by decide)
    have scaled' : (finite (scale : Rat)).mul (ofInt 128) = finite ((scale * 128 : Nat) : Rat) := by
      rw [show (128 : Int) = ((128 : Nat) : Int) from rfl, ofInt_natCast (by decide)]
      simp only [mul, exactProduct_eq]
      rw [← Rat.natCast_mul, round_natCast scaled]
    rw [expand] at small ⊢
    have step : Sum.add ⟨finite value, finite scale⟩ byte =
        ⟨finite ((value + scale * (byte.toNat % 128) : Nat) : Rat),
          finite ((scale * 128 : Nat) : Rat)⟩ := by
      simp only [Sum.add]
      rw [added value scale byte (by omega), scaled']
    rw [List.foldl_cons, step, ih _ _ short (by omega), Nat.add_assoc]

/-- A spelling has no more groups than it needs, or one more. -/
def Brief (bytes : List UInt8) (n : Nat) : Prop :=
  bytes.length = 1 ∨ 128 ^ (bytes.length - 1) ≤ 2 * n

/-- The sum of a spelling of a safe integer that is not too long is exact. -/
theorem Spells.value_sum {bytes : List UInt8} {n : Nat} (spells : Spells bytes n)
    (brief : Brief bytes n) (small : n < largestExact) : (sum bytes).value = finite n := by
  have short : 1 * 128 ^ (bytes.length - 1) ≤ largestExact := by
    rw [Nat.one_mul]
    rcases brief with one | few
    · rw [one]
      decide
    · have few' : 128 ^ (bytes.length - 1) < 128 ^ 8 :=
        Nat.lt_of_le_of_lt few (Nat.lt_of_lt_of_le (Nat.mul_lt_mul_of_pos_left small (by decide))
          (by decide))
      have length := (Nat.pow_lt_pow_iff_right (by decide)).1 few'
      exact Nat.le_trans (Nat.pow_le_pow_right (by decide) (Nat.le_of_lt_succ length)) (by decide)
  have exact_ : (sum bytes).value = finite ((0 + 1 * n : Nat) : Rat) :=
    spells.exact_foldl 0 1 short (by omega)
  rw [exact_, Nat.zero_add, Nat.one_mul]

/-- A spelling whose sum is a safe integer is read as what it stands for. -/
theorem Spells.toSafeInteger? {bytes : List UInt8} {n : Nat} (spells : Spells bytes n)
    (brief : Brief bytes n) {read : Int} (safe : (sum bytes).value.toSafeInteger? = some read) :
    read = n := by
  have whole : Whole (min (0 + 1 * n) largestExact) (sum bytes).value :=
    spells.whole_foldl ⟨0, rfl, Nat.le_refl _⟩ ⟨1, rfl, Nat.le_refl _⟩
  obtain ⟨least, most⟩ := whole.toSafeInteger? safe
  have limit : maxSafeInteger < largestExact := by decide
  have small : n < largestExact := by omega
  rw [spells.value_sum brief small] at safe
  unfold Binary64.toSafeInteger? at safe
  have found : (finite (n : Rat)).toInt? = some (n : Int) := rfl
  rw [found] at safe
  simp only at safe
  split at safe
  · exact (Option.some.inj safe).symm
  · cases safe

theorem Spells.lt {bytes : List UInt8} {n : Nat} (spells : Spells bytes n) :
    n < 128 ^ bytes.length := by
  induction spells with
  | last small => simpa using small
  | @more byte rest n marked spells ih =>
    rw [List.length_cons, pow_succ]
    omega

/-- Scales of few groups are exact. -/
theorem scale_foldl (bytes : List UInt8) (value : Binary64) (scale : Nat)
    (small : scale * 128 ^ bytes.length ≤ largestExact) :
    (bytes.foldl Sum.add ⟨value, finite scale⟩).scale =
      finite ((scale * 128 ^ bytes.length : Nat) : Rat) := by
  induction bytes generalizing value scale with
  | nil => rw [List.length_nil, pow_zero, Nat.mul_one, List.foldl_nil]
  | cons byte rest ih =>
    rw [List.length_cons, pow_succ, Nat.mul_comm _ 128, ← Nat.mul_assoc] at small ⊢
    have scaled : scale * 128 ≤ largestExact :=
      Nat.le_trans (Nat.le_mul_of_pos_right _ (by positivity)) small
    have step : (finite (scale : Rat)).mul (ofInt 128) = finite ((scale * 128 : Nat) : Rat) := by
      rw [show (128 : Int) = ((128 : Nat) : Int) from rfl, ofInt_natCast (by decide)]
      simp only [mul, exactProduct_eq]
      rw [← Rat.natCast_mul, round_natCast scaled]
    rw [List.foldl_cons, Sum.add, step, ih _ _ small]

/-! ## What is written -/

theorem toNat_toUInt8 {n : Nat} (small : n < 256) : n.toUInt8.toNat = n := by
  simpa using Nat.mod_eq_of_lt small

/-- The group that `n` begins with, when more follow. -/
theorem Spells.more_of_div {n : Nat} {rest : List UInt8} (spells : Spells rest (n / 128)) :
    Spells ((n % 128 + 128).toUInt8 :: rest) n := by
  have low : n % 128 < 128 := Nat.mod_lt _ (by decide)
  have byte : (n % 128 + 128).toUInt8.toNat = n % 128 + 128 := toNat_toUInt8 (by omega)
  have whole : (n % 128 + 128).toUInt8.toNat % 128 + 128 * (n / 128) = n := by
    rw [byte]
    omega
  have spelling := Spells.more (by omega : 128 ≤ (n % 128 + 128).toUInt8.toNat) spells
  rwa [whole] at spelling

theorem Brief.cons_of_div {n : Nat} {byte : UInt8} {rest : List UInt8} (some_ : rest ≠ [])
    (brief : Brief rest (n / 128)) (more : 64 ≤ n) : Brief (byte :: rest) n := by
  right
  obtain ⟨next, others, rfl⟩ := List.exists_cons_of_ne_nil some_
  rw [List.length_cons, Nat.add_sub_cancel]
  rcases brief with one | few
  · rw [one]
    omega
  · rw [List.length_cons, Nat.add_sub_cancel] at few
    rw [List.length_cons, Nat.pow_succ]
    omega

theorem spells_encodeNat (n : Nat) : Spells (encodeNat n) n ∧ Brief (encodeNat n) n := by
  induction n using Nat.strongRecOn with
  | ind n ih =>
    rw [encodeNat]
    split
    next small =>
      have byte : n.toUInt8.toNat = n := toNat_toUInt8 (by omega)
      have spelling := Spells.last (by rw [byte]; exact small : n.toUInt8.toNat < 128)
      rw [byte] at spelling
      exact ⟨spelling, .inl rfl⟩
    next large =>
      obtain ⟨spells, brief⟩ := ih (n / 128) (by omega)
      exact ⟨spells.more_of_div, brief.cons_of_div spells.ne_nil (by omega)⟩

/-- A natural number as a signed operand: its last group has its sign bit clear. -/
theorem encodeInt_natCast (n : Nat) :
    encodeInt (n : Int) =
      if n < 64 then [n.toUInt8] else (n % 128 + 128).toUInt8 :: encodeInt ((n / 128 : Nat) : Int) := by
  have group : ((n : Int) % 128).toNat = n % 128 := by omega
  have rest : (n : Int) / 128 = ((n / 128 : Nat) : Int) := by omega
  rw [encodeInt]
  simp only [group, rest]
  by_cases small : n < 64
  · have same : n % 128 = n := by omega
    rw [if_pos (.inl (by omega)), if_pos small, same]
  · rw [if_neg (by omega), if_neg small]

/-- The sign bit of a last group is clear. -/
def Positive (bytes : List UInt8) : Prop :=
  ∃ last, bytes.getLast? = some last ∧ last.toNat % 128 < 64

theorem spells_encodeInt (n : Nat) :
    Spells (encodeInt (n : Int)) n ∧ Brief (encodeInt (n : Int)) n ∧
      Positive (encodeInt (n : Int)) := by
  induction n using Nat.strongRecOn with
  | ind n ih =>
    rw [encodeInt_natCast]
    split
    next small =>
      have byte : n.toUInt8.toNat = n := toNat_toUInt8 (by omega)
      have spelling := Spells.last (by omega : n.toUInt8.toNat < 128)
      rw [byte] at spelling
      exact ⟨spelling, .inl rfl, n.toUInt8, rfl, by omega⟩
    next large =>
      obtain ⟨spells, brief, last, ends, clear⟩ := ih (n / 128) (by omega)
      refine ⟨spells.more_of_div, brief.cons_of_div spells.ne_nil (by omega), last, ?_, clear⟩
      obtain ⟨next, others, same⟩ := List.exists_cons_of_ne_nil spells.ne_nil
      rw [same] at ends ⊢
      rw [List.getLast?_cons_cons]
      exact ends

/-- Every integer is written as groups that end where they should. -/
theorem exists_spells_encodeInt (d : Int) : ∃ n, Spells (encodeInt d) n := by
  generalize size : d.natAbs = k
  induction k using Nat.strongRecOn generalizing d with
  | ind k ih =>
    have low : (d % 128).toNat < 128 := by omega
    rw [encodeInt]
    split
    · have byte : (d % 128).toNat.toUInt8.toNat = (d % 128).toNat := toNat_toUInt8 (by omega)
      exact ⟨_, .last (by omega)⟩
    · have byte : ((d % 128).toNat + 128).toUInt8.toNat = (d % 128).toNat + 128 :=
        toNat_toUInt8 (by omega)
      obtain ⟨n, spells⟩ := ih (d / 128).natAbs (by omega) (d / 128) rfl
      exact ⟨_, .more (by omega) spells⟩

/-! ## How long an operand is -/

theorem length_encodeInt_pos (d : Int) : 0 < (encodeInt d).length := by
  rw [encodeInt]
  split <;> exact Nat.succ_pos _

/-- An operand has as many groups as its size asks for, one bit being taken by the sign. -/
theorem length_encodeInt_le_iff (d : Int) (k : Nat) :
    (encodeInt d).length ≤ k + 1 ↔ -(64 * 128 ^ k) ≤ d ∧ d < 64 * 128 ^ k := by
  induction k generalizing d with
  | zero =>
    rw [encodeInt]
    split
    next last =>
      simp only [List.length_singleton, Nat.zero_add, le_refl, true_iff, pow_zero, mul_one]
      omega
    next more =>
      have others := length_encodeInt_pos (d / 128)
      simp only [List.length_cons, pow_zero, mul_one]
      omega
  | succ k ih =>
    have positive : (0 : Int) < 128 ^ k := by positivity
    rw [encodeInt, pow_succ]
    generalize (128 : Int) ^ k = scale at ih positive
    split
    next last =>
      simp only [List.length_singleton, Nat.le_add_left, true_iff]
      omega
    next more =>
      rw [List.length_cons, Nat.add_le_add_iff_right, ih (d / 128)]
      omega

/-- Away from zero operands only become longer. -/
theorem length_encodeInt_mono {d d' : Int} (away : 0 ≤ d ∧ d ≤ d' ∨ d' ≤ d ∧ d ≤ 0) :
    (encodeInt d).length ≤ (encodeInt d').length := by
  obtain ⟨k, length⟩ := Nat.exists_eq_add_one.2 (length_encodeInt_pos d')
  have fits := (length_encodeInt_le_iff d' k).1 (Nat.le_of_eq length)
  rw [length, length_encodeInt_le_iff]
  omega

/-! ## Negative operands -/

/-- The groups of a negative number stand for what is left of the next power of 128 when
its size is taken away, and the last of them has its sign bit set. -/
theorem spells_encodeInt_of_neg {d : Int} (negative : d < 0) :
    ∃ n : Nat, Spells (encodeInt d) n ∧ (n : Int) = d + 128 ^ (encodeInt d).length ∧
      ∃ last, (encodeInt d).getLast? = some last ∧ 64 ≤ last.toNat % 128 := by
  generalize size : d.natAbs = k
  induction k using Nat.strongRecOn generalizing d with
  | ind k ih =>
    have low : (d % 128).toNat < 128 := by omega
    rw [encodeInt]
    split
    next last =>
      have byte : (d % 128).toNat.toUInt8.toNat = (d % 128).toNat := toNat_toUInt8 (by omega)
      refine ⟨(d % 128).toNat, ?_, ?_, (d % 128).toNat.toUInt8, rfl, by omega⟩
      · have spelling := Spells.last (by omega : (d % 128).toNat.toUInt8.toNat < 128)
        rwa [byte] at spelling
      · rw [List.length_singleton, pow_one]
        omega
    next more =>
      have byte : ((d % 128).toNat + 128).toUInt8.toNat = (d % 128).toNat + 128 :=
        toNat_toUInt8 (by omega)
      obtain ⟨n, spells, value, last, ends, set⟩ :=
        ih (d / 128).natAbs (by omega) (d := d / 128) (by omega) rfl
      refine ⟨(d % 128).toNat + 128 * n, ?_, ?_, last, ?_, set⟩
      · have spelling := Spells.more
          (by omega : 128 ≤ ((d % 128).toNat + 128).toUInt8.toNat) spells
        have group : ((d % 128).toNat + 128) % 128 = (d % 128).toNat := by omega
        rwa [byte, group] at spelling
      · rw [List.length_cons, pow_succ]
        generalize (128 : Int) ^ (encodeInt (d / 128)).length = scale at value
        omega
      · obtain ⟨next, others, same⟩ := List.exists_cons_of_ne_nil spells.ne_nil
        rw [same] at ends ⊢
        rw [List.getLast?_cons_cons]
        exact ends

/-! ## What is read -/

variable {code : Array UInt8} {offset : Nat} {rest : List UInt8}

/-- An unsigned operand that can be read is the one that was written. -/
theorem decodeUnsigned_encodeNat {n : Nat} {operand : Operand Nat}
    (there : code.toList.drop offset = encodeNat n ++ rest)
    (read : decodeUnsigned code offset = .ok operand) :
    operand = ⟨n, (encodeNat n).length⟩ := by
  obtain ⟨spells, brief⟩ := spells_encodeNat n
  unfold decodeUnsigned Leb128.read at read
  rw [groupsAt_ofNat, there, spells.groups_append] at read
  simp only at read
  cases safe : (unsignedValue (encodeNat n)).toSafeInteger? with
  | none =>
    rw [safe] at read
    cases read
  | some found =>
    rw [safe] at read
    cases read
    rw [spells.toSafeInteger? brief safe]
    rfl

/-- A signed operand that can be read is the natural number that was written. -/
theorem decodeSigned_encodeInt {n : Nat} {operand : Operand Int}
    (there : code.toList.drop offset = encodeInt (n : Int) ++ rest)
    (read : decodeSigned code offset = .ok operand) :
    operand = ⟨n, (encodeInt (n : Int)).length⟩ := by
  obtain ⟨spells, brief, last, ends, clear⟩ := spells_encodeInt n
  have positive : signedValue (encodeInt (n : Int)) = (sum (encodeInt (n : Int))).value := by
    unfold signedValue
    simp only [ends, if_pos clear]
  unfold decodeSigned Leb128.read at read
  rw [groupsAt_ofNat, there, spells.groups_append] at read
  simp only [positive] at read
  cases safe : (sum (encodeInt (n : Int))).value.toSafeInteger? with
  | none =>
    rw [safe] at read
    cases read
  | some found =>
    rw [safe] at read
    cases read
    rw [spells.toSafeInteger? brief safe]

/-- A signed operand takes the bytes that were written, whatever it is read as. -/
theorem size_decodeSigned {d : Int} {operand : Operand Int}
    (there : code.toList.drop offset = encodeInt d ++ rest)
    (read : decodeSigned code offset = .ok operand) : operand.size = (encodeInt d).length := by
  obtain ⟨n, spells⟩ := exists_spells_encodeInt d
  unfold decodeSigned Leb128.read at read
  rw [groupsAt_ofNat, there, spells.groups_append] at read
  simp only at read
  split at read
  · cases read
  · cases read
    rfl

/-- An unsigned operand that was written from a safe integer is read again. -/
theorem decodeUnsigned_of_lt {n : Nat} (small : n < largestExact)
    (there : code.toList.drop offset = encodeNat n ++ rest) :
    decodeUnsigned code offset = .ok ⟨n, (encodeNat n).length⟩ := by
  obtain ⟨spells, brief⟩ := spells_encodeNat n
  have value : unsignedValue (encodeNat n) = ofInt (n : Int) := by
    rw [ofInt_natCast (Nat.le_of_lt small)]
    exact spells.value_sum brief small
  have safe : (ofInt (n : Int)).toSafeInteger? = some (n : Int) :=
    toSafeInteger?_eq_some_iff.2 ⟨rfl, Nat.le_of_lt_succ small⟩
  unfold decodeUnsigned Leb128.read
  rw [groupsAt_ofNat, there, spells.groups_append]
  simp only [value, safe]
  rfl

/-- The value of a signed operand of no more than seven bytes. No sum comes near the
numbers that are rounded, even where the scale has to be taken away. -/
theorem signedValue_encodeInt {d : Int} (few : (encodeInt d).length ≤ 7) :
    signedValue (encodeInt d) = ofInt d := by
  have scales : 128 ^ (encodeInt d).length ≤ 128 ^ 7 := Nat.pow_le_pow_right (by decide) few
  have limit : 128 ^ 7 ≤ largestExact := by decide
  rcases lt_or_ge d 0 with negative | natural
  · obtain ⟨n, spells, value, last, ends, set⟩ := spells_encodeInt_of_neg negative
    have small := spells.lt
    have exact_ : (sum (encodeInt d)).value = finite ((0 + 1 * n : Nat) : Rat) := by
      refine spells.exact_foldl 0 1 ?_ (by omega)
      rw [Nat.one_mul]
      exact Nat.le_trans (Nat.pow_le_pow_right (by decide) (Nat.sub_le _ _)) (by omega)
    have scale : (sum (encodeInt d)).scale =
        finite ((1 * 128 ^ (encodeInt d).length : Nat) : Rat) :=
      scale_foldl (encodeInt d) _ 1 (by omega)
    have whole : (n : Rat) + -(((128 : Nat) ^ (encodeInt d).length : Nat) : Rat) = (d : Rat) := by
      have rational := congrArg (Int.cast (R := Rat)) value
      push_cast at rational ⊢
      rw [rational]
      ring
    unfold signedValue
    simp only [ends, if_neg (Nat.not_lt.2 set), exact_, scale, Nat.zero_add, Nat.one_mul]
    simp only [sub, neg, add, exactSum_eq, whole]
    rfl
  · obtain ⟨n, rfl⟩ := Int.eq_ofNat_of_zero_le natural
    obtain ⟨spells, brief, last, ends, clear⟩ := spells_encodeInt n
    have small := spells.lt
    unfold signedValue
    simp only [ends, if_pos clear]
    rw [spells.value_sum brief (by omega), ofInt_natCast (by omega)]

/-- A signed operand of no more than seven bytes is read as the number that was written. -/
theorem decodeSigned_of_length {d : Int} (few : (encodeInt d).length ≤ 7)
    (there : code.toList.drop offset = encodeInt d ++ rest) :
    decodeSigned code offset = .ok ⟨d, (encodeInt d).length⟩ := by
  obtain ⟨n, spells⟩ := exists_spells_encodeInt d
  have bounds := (length_encodeInt_le_iff d 6).1 few
  have limit : (maxSafeInteger.natAbs : Int) = 9007199254740991 := rfl
  have safe : (ofInt d).toSafeInteger? = some d :=
    toSafeInteger?_eq_some_iff.2 ⟨rfl, by omega⟩
  unfold decodeSigned Leb128.read
  rw [groupsAt_ofNat, there, spells.groups_append]
  simp only [signedValue_encodeInt few, safe]

end MessageMachine.Leb128
