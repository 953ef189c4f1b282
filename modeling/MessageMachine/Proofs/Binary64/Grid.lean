/-
# Rounding to a grid

A number of 53 + j binary digits is rounded to a multiple of the j-th power of two: the
last j digits do not fit the significand. So rounding is rounding to an integer on a
coarser scale, `nearest_intCast`. Two facts about it carry everything else: what lies on
the grid is not rounded, and what does not lie on it moves by half a step at most.
-/

import MessageMachine.Proofs.Binary64

namespace MessageMachine.Binary64

/-! ## Rounding to an integer -/

theorem roundHalfEven_intCast (n : Int) : roundHalfEven n = n := by
  have rest : (n : Rat) - ((n : Int) : Rat) < 1 / 2 := by
    rw [sub_self]
    exact one_half_pos
  rw [roundHalfEven, Rat.floor_intCast]
  exact if_pos rest

/-- Rounding moves a number by one half at most. -/
theorem two_mul_abs_roundHalfEven_sub_le (x : Rat) : 2 * |(roundHalfEven x : Rat) - x| ≤ 1 := by
  have low := Rat.floor_le x
  have high := Rat.lt_floor_add_one x
  rw [Rat.intCast_add, Rat.intCast_one] at high
  rw [roundHalfEven]
  split_ifs with below above tie
  · rw [abs_of_nonpos (by linarith)]
    linarith
  · rw [Rat.intCast_add, Rat.intCast_one, abs_of_nonneg (by linarith)]
    linarith
  · rw [abs_of_nonpos (by linarith)]
    linarith
  · rw [Rat.intCast_add, Rat.intCast_one, abs_of_nonneg (by linarith)]
    linarith

/-- Rounding goes along with a shift that keeps the even numbers even. -/
theorem roundHalfEven_add_even (x : Rat) {n : Int} (even : n % 2 = 0) :
    roundHalfEven (x + n) = roundHalfEven x + n := by
  have rest : x + n - ((x.floor + n : Int) : Rat) = x - x.floor := by
    rw [Rat.intCast_add]
    ring
  have parity : (x.floor + n) % 2 = 0 ↔ x.floor % 2 = 0 := by omega
  rw [roundHalfEven, roundHalfEven, Rat.floor_add_intCast]
  simp only [rest, parity]
  split_ifs <;> ring

theorem le_roundHalfEven {x : Rat} {n : Int} (le : (n : Rat) ≤ x) : n ≤ roundHalfEven x :=
  (Rat.le_floor_iff.2 le).trans (floor_le_roundHalfEven x)

theorem roundHalfEven_le {x : Rat} {n : Int} (le : x ≤ n) : roundHalfEven x ≤ n := by
  have near := two_mul_abs_roundHalfEven_sub_le x
  have above := le_abs_self ((roundHalfEven x : Rat) - x)
  have below : (roundHalfEven x : Rat) < ((n + 1 : Int) : Rat) := by
    rw [Rat.intCast_add, Rat.intCast_one]
    linarith
  exact Int.lt_add_one_iff.1 (Rat.intCast_lt_intCast.1 below)

/-! ## Rounding to a multiple of a power of two -/

theorem isExact_intCast (n : Int) : isExact (n : Rat) = decide (n.natAbs ≤ largestExact) := rfl

theorem round_of_natAbs_le {n : Int} (small : n.natAbs ≤ largestExact) :
    round (n : Rat) = finite n :=
  ofInt_eq_finite small

theorem abs_intCast_eq_natAbs (n : Int) : (n : Rat).abs = ((n.natAbs : Nat) : Rat) := by
  rcases Int.le_total 0 n with natural | negative
  · have same : (n.natAbs : Int) = n := by omega
    rw [Rat.abs_of_nonneg (Rat.intCast_nonneg.2 natural), ← Rat.intCast_natCast, same]
  · have same : (n.natAbs : Int) = -n := by omega
    rw [Rat.abs_of_nonpos (Rat.intCast_nonpos.2 negative), ← Rat.intCast_natCast, same,
      Rat.intCast_neg]

theorem round_of_nearest_lt {x : Rat} (inexact : ¬ isExact x = true)
    (bounded : (nearest x).abs < ((2 : Nat) : Rat) ^ 1024) : round x = finite (nearest x) := by
  rw [Nat.cast_ofNat] at bounded
  rw [round, if_neg inexact]
  exact if_pos bounded

variable {n : Int} {j k : Nat}

/-- A large integer has 53 + k binary digits, some of which do not fit. -/
theorem exists_size (large : largestExact < n.natAbs) : ∃ k, 0 < k ∧ n.natAbs.log2 = 52 + k := by
  have length : 53 ≤ n.natAbs.log2 := (Nat.le_log2 (by omega)).2 (Nat.le_of_lt large)
  exact ⟨n.natAbs.log2 - 52, by omega, by omega⟩

/-- An integer of 53 + k binary digits is rounded on the scale that leaves 53 of them. -/
theorem nearest_intCast (large : largestExact < n.natAbs) (size : n.natAbs.log2 = 52 + k) :
    nearest n = (roundHalfEven (n / 2 ^ k) : Rat) * 2 ^ k := by
  have unit : unitExponent (n : Rat) = (k : Int) := by
    rw [unitExponent, abs_intCast_eq_natAbs, floorLog2_natCast (by omega), size]
    omega
  have inexact : ¬ isExact (n : Rat) = true := by
    rw [isExact_intCast, decide_eq_true_eq]
    exact Nat.not_le.2 large
  rw [nearest, if_neg inexact, unit]
  rfl

/-- On the coarser scale the number has 53 digits. -/
theorem div_pow_bounds (size : n.natAbs.log2 = 52 + k) :
    ((-2 ^ 53 : Int) : Rat) ≤ n / 2 ^ k ∧ (n : Rat) / 2 ^ k ≤ ((2 ^ 53 : Int) : Rat) := by
  have scale : (0 : Rat) < 2 ^ k := by positivity
  have digits : n.natAbs < 2 ^ 53 * 2 ^ k := by
    rw [← pow_add, show 53 + k = n.natAbs.log2 + 1 by omega]
    exact Nat.lt_log2_self
  have digits' : (n.natAbs : Int) < 2 ^ 53 * 2 ^ k := by exact_mod_cast digits
  have low : -2 ^ 53 * 2 ^ k ≤ n := by omega
  have high : n ≤ 2 ^ 53 * 2 ^ k := by omega
  rw [le_div_iff₀ scale, div_le_iff₀ scale]
  exact ⟨by exact_mod_cast low, by exact_mod_cast high⟩

theorem natAbs_roundHalfEven_le (size : n.natAbs.log2 = 52 + k) :
    (roundHalfEven ((n : Rat) / 2 ^ k)).natAbs ≤ 2 ^ 53 := by
  obtain ⟨low, high⟩ := div_pow_bounds size
  have least := le_roundHalfEven low
  have most := roundHalfEven_le high
  omega

/-- A significand of 53 digits stays below the powers of two that have more. -/
theorem abs_mul_pow_lt {m : Int} {limit : Nat} (digits : m.natAbs ≤ 2 ^ 53)
    (range : 53 + k < limit) : ((m * 2 ^ k : Int) : Rat).abs < ((2 : Nat) : Rat) ^ limit := by
  have two : Int.natAbs 2 = 2 := rfl
  rw [abs_intCast_eq_natAbs, Int.natAbs_mul, Int.natAbs_pow, two, ← Rat.natCast_pow,
    Rat.natCast_lt_natCast]
  refine (Nat.mul_le_mul_right _ digits).trans_lt ?_
  rw [← pow_add]
  exact Nat.pow_lt_pow_right (by decide) range

/-- What is rounded on the coarser scale is in range. -/
theorem round_of_large (large : largestExact < n.natAbs) (size : n.natAbs.log2 = 52 + k)
    (range : 53 + k < 1024) :
    round n = finite ((roundHalfEven ((n : Rat) / 2 ^ k) * 2 ^ k : Int) : Rat) := by
  have inexact : ¬ isExact (n : Rat) = true := by
    rw [isExact_intCast, decide_eq_true_eq]
    exact Nat.not_le.2 large
  have rounded : nearest n = ((roundHalfEven ((n : Rat) / 2 ^ k) * 2 ^ k : Int) : Rat) := by
    rw [nearest_intCast large size]
    push_cast
    rfl
  have bounded := abs_mul_pow_lt (natAbs_roundHalfEven_le size) range
  rw [← rounded] at bounded
  rw [round_of_nearest_lt inexact bounded, rounded]

/-- Integers on the grid are not rounded. -/
theorem round_of_dvd (whole : (2 : Int) ^ j ∣ n) (few : n.natAbs ≤ 2 ^ (53 + j))
    (range : 54 + j < 1024) : round n = finite n := by
  rcases Nat.lt_or_ge largestExact n.natAbs with large | small
  · obtain ⟨k, -, size⟩ := exists_size large
    have bounds := (Nat.log2_eq_iff (by omega)).1 size
    have near : k ≤ j + 1 := by
      have digits := (Nat.log2_lt (k := 54 + j) (by omega)).2
        (Nat.lt_of_le_of_lt few (Nat.pow_lt_pow_right (by decide) (by omega)))
      omega
    have coarse : (2 : Int) ^ k ∣ n := by
      rcases Nat.lt_or_ge j k with top | inside
      · have whole_ : 2 ^ k ∣ n.natAbs := by
          have same : n.natAbs = 2 ^ (52 + k) :=
            Nat.le_antisymm (few.trans (Nat.pow_le_pow_right (by decide) (by omega))) bounds.1
          rw [same]
          exact Nat.pow_dvd_pow 2 (Nat.le_add_left k 52)
        exact Int.natAbs_dvd_natAbs.1 (by rwa [Int.natAbs_pow])
      · exact (pow_dvd_pow 2 inside).trans whole
    obtain ⟨q, rfl⟩ := coarse
    have scale : (2 : Rat) ^ k ≠ 0 := by positivity
    rw [round_of_large large size (by omega)]
    have quotient : ((2 ^ k * q : Int) : Rat) / 2 ^ k = (q : Rat) := by
      push_cast
      field_simp
    rw [quotient, roundHalfEven_intCast, mul_comm]
  · exact round_of_natAbs_le small

theorem le_div_pow {n : Nat} (size : n.log2 = 52 + k) (positive : n ≠ 0) :
    ((2 ^ 52 : Int) : Rat) ≤ ((n : Int) : Rat) / 2 ^ k := by
  have digits : 2 ^ 52 * 2 ^ k ≤ n := by
    rw [← pow_add, ← size]
    exact Nat.log2_self_le positive
  rw [le_div_iff₀ (by positivity)]
  exact_mod_cast digits

/-- Half a unit on the coarser scale is half a step of the grid. -/
theorem two_mul_abs_mul_pow_sub_le (n : Int) (k : Nat) :
    2 * |roundHalfEven ((n : Rat) / 2 ^ k) * 2 ^ k - n| ≤ 2 ^ k := by
  have near := two_mul_abs_roundHalfEven_sub_le ((n : Rat) / 2 ^ k)
  generalize roundHalfEven ((n : Rat) / 2 ^ k) = m at near
  have scale : (0 : Rat) < 2 ^ k := by positivity
  have scaled : ((m * 2 ^ k - n : Int) : Rat) = (m - n / 2 ^ k) * 2 ^ k := by
    push_cast
    field_simp
  have moved : 2 * |((m * 2 ^ k - n : Int) : Rat)| ≤ 2 ^ k := by
    rw [scaled, abs_mul, abs_of_pos scale, ← mul_assoc]
    exact mul_le_of_le_one_left scale.le near
  exact_mod_cast moved

/-- Rounding moves a whole number by half a step at most, and a number that takes all
digits to the grid. -/
theorem exists_round {n : Nat} (few : n ≤ 2 ^ (53 + j)) (range : 54 + j < 1024) :
    ∃ r : Nat, round n = finite r ∧ r ≤ 2 ^ (53 + j) ∧ 2 * |(r : Int) - n| ≤ 2 ^ j ∧
      (2 ^ (52 + j) ≤ n → 2 ^ j ∣ r) := by
  have step : (0 : Int) < 2 ^ j := by positivity
  -- A number that is not rounded.
  have still (exact_ : round (n : Rat) = finite n) (whole : 2 ^ (52 + j) ≤ n → 2 ^ j ∣ n) :
      ∃ r : Nat, round n = finite r ∧ r ≤ 2 ^ (53 + j) ∧ 2 * |(r : Int) - n| ≤ 2 ^ j ∧
        (2 ^ (52 + j) ≤ n → 2 ^ j ∣ r) := by
    refine ⟨n, exact_, few, ?_, whole⟩
    rw [sub_self, abs_zero, mul_zero]
    exact step.le
  rcases Nat.lt_or_ge largestExact n with large | small
  · obtain ⟨k, positive, size⟩ := exists_size (n := (n : Int)) large
    have bounds := (Nat.log2_eq_iff (by omega)).1 size
    rw [Int.natAbs_natCast] at bounds
    rcases Nat.lt_or_ge j k with top | inside
    · have same : n = 2 ^ (53 + j) :=
        Nat.le_antisymm few ((Nat.pow_le_pow_right (by decide) (by omega)).trans bounds.1)
      have whole : 2 ^ j ∣ n := by
        rw [same]
        exact Nat.pow_dvd_pow 2 (Nat.le_add_left j 53)
      exact still (round_of_dvd (n := (n : Int)) (by exact_mod_cast whole) few range)
        fun _ => whole
    · have rounded := round_of_large (n := (n : Int)) large size (by omega)
      have least := le_roundHalfEven (le_div_pow (n := n) size (by omega))
      have most := natAbs_roundHalfEven_le (n := (n : Int)) size
      have near := two_mul_abs_mul_pow_sub_le n k
      generalize roundHalfEven (((n : Int) : Rat) / 2 ^ k) = m at rounded least most near
      obtain ⟨m, rfl⟩ := Int.eq_ofNat_of_zero_le (Int.le_trans (by decide) least)
      rw [Int.natAbs_natCast] at most
      refine ⟨m * 2 ^ k, ?_, ?_, ?_, fun all => ?_⟩
      · rw [Rat.natCast_mul, Rat.natCast_pow]
        rw [Rat.intCast_mul, Rat.intCast_pow] at rounded
        exact rounded
      · rw [pow_add]
        exact Nat.mul_le_mul most (Nat.pow_le_pow_right (by decide) inside)
      · push_cast
        exact near.trans (pow_le_pow_right₀ (by decide) inside)
      · have same : k = j := by
          have digits := (Nat.pow_lt_pow_iff_right (by decide)).1 (all.trans_lt bounds.2)
          omega
        rw [same]
        exact Nat.dvd_mul_left _ _
  · refine still (round_natCast small) fun all => ?_
    rcases Nat.lt_or_ge 1 j with many | few_
    · have large := (Nat.pow_lt_pow_right (a := 2) (by decide) (by omega : 53 < 52 + j)).trans_le all
      exact absurd small (Nat.not_le.2 large)
    · rcases Nat.le_one_iff_eq_zero_or_eq_one.1 few_ with rfl | rfl
      · exact one_dvd n
      · have same : n = 2 ^ 53 := Nat.le_antisymm small all
        rw [same]
        exact Nat.pow_dvd_pow 2 (by decide)

/-! ## Large integers -/

/-- A large integer has all its digits on the coarser scale. -/
theorem le_natAbs_roundHalfEven (large : largestExact < n.natAbs)
    (size : n.natAbs.log2 = 52 + k) :
    2 ^ 52 ≤ (roundHalfEven ((n : Rat) / 2 ^ k)).natAbs := by
  have digits := le_div_pow size (by omega)
  rcases Int.natAbs_eq n with natural | negative
  · rw [← natural] at digits
    have least := le_roundHalfEven digits
    omega
  · rw [show (n.natAbs : Int) = -n by omega, Int.cast_neg, neg_div] at digits
    have most : (n : Rat) / 2 ^ k ≤ ((-2 ^ 52 : Int) : Rat) := by
      rw [Int.cast_neg]
      exact le_neg_of_le_neg digits
    have bound := roundHalfEven_le most
    omega

/-- Rounding brings no large integer into the range of those that need none. -/
theorem exists_round_of_large (large : largestExact < n.natAbs) (few : n.natAbs < 2 ^ 200) :
    ∃ r : Int, round n = finite r ∧ largestExact ≤ r.natAbs := by
  obtain ⟨k, positive, size⟩ := exists_size large
  have short : n.natAbs.log2 < 200 := (Nat.log2_lt (by omega)).2 few
  refine ⟨_, round_of_large large size (by omega), ?_⟩
  rw [Int.natAbs_mul, Int.natAbs_pow]
  exact Nat.mul_le_mul (le_natAbs_roundHalfEven large size)
    (Nat.pow_le_pow_right Nat.two_pos (show 1 ≤ k from positive))

end MessageMachine.Binary64
