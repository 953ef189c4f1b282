/-
# Integer division on binary64 numbers

A quotient of two integers is rounded before its fraction is cut off, and rounding up to
the next integer would make the result wrong. It cannot happen to operands below the 53rd
power of two: a quotient that is not whole is at least `1 / |b|` away from both integers
around it, and rounding moves it by less, `trunc_round_div`. Remainders are not rounded
at all, so that the shift which gives them the sign of the divisor is `Int.fmod`,
`floorRem_ofInt`.
-/

import MessageMachine.Proofs.Binary64.Grid

namespace MessageMachine.Binary64

/-! ## How far rounding moves a number -/

/-- The binary exponent of a positive number is the one of a power of two below it. -/
theorem two_zpow_floorLog2_le {x : Rat} (positive : 0 < x) : (2 : Rat) ^ floorLog2 x ≤ x := by
  have numerator : x.num.natAbs ≠ 0 := Int.natAbs_ne_zero.2 (Rat.num_pos.2 positive).ne'
  have above : ((2 ^ x.num.natAbs.log2 : Nat) : Rat) ≤ (x.num.natAbs : Rat) :=
    Rat.natCast_le_natCast.2 (Nat.log2_self_le numerator)
  have below : (x.den : Rat) ≤ ((2 ^ (x.den.log2 + 1) : Nat) : Rat) :=
    Rat.natCast_le_natCast.2 Nat.lt_log2_self.le
  have fraction : x = (x.num.natAbs : Rat) / (x.den : Rat) := by
    have whole : ((x.num.natAbs : Int) : Rat) = (x.num : Rat) := by
      rw [Int.natAbs_of_nonneg (Rat.num_nonneg.2 positive.le)]
    rw [← Int.cast_natCast, whole, Rat.num_div_den]
  have guess : (2 : Rat) ^ ((x.num.natAbs.log2 : Int) - (x.den.log2 : Int) - 1) ≤ x := by
    have power : (2 : Rat) ^ ((x.num.natAbs.log2 : Int) - (x.den.log2 : Int) - 1) =
        ((2 ^ x.num.natAbs.log2 : Nat) : Rat) / ((2 ^ (x.den.log2 + 1) : Nat) : Rat) := by
      rw [show (x.num.natAbs.log2 : Int) - (x.den.log2 : Int) - 1 =
        (x.num.natAbs.log2 : Int) - ((x.den.log2 + 1 : Nat) : Int) by push_cast; ring,
        zpow_sub₀ (by decide), zpow_natCast, zpow_natCast]
      push_cast
      rfl
    rw [power]
    conv_rhs => rw [fraction]
    exact div_le_div₀ (Nat.cast_nonneg _) above (Nat.cast_pos.2 x.den_pos) below
  unfold floorLog2
  simp only
  split
  next => exact guess
  next le => exact not_lt.1 le

theorem abs_eq_abs (x : Rat) : x.abs = |x| := by
  rcases le_total 0 x with natural | negative
  · rw [Rat.abs_of_nonneg natural, abs_of_nonneg natural]
  · rw [Rat.abs_of_nonpos negative, abs_of_nonpos negative]

/-- A number that is not below the subnormal range moves by a 2^-53th of its size. -/
theorem abs_nearest_sub_le {x : Rat} (normal : (2 : Rat) ^ (-1022 : Int) ≤ |x|) :
    |nearest x - x| * 2 ^ 53 ≤ |x| := by
  unfold nearest
  split
  next =>
    rw [sub_self, abs_zero, zero_mul]
    exact abs_nonneg x
  next =>
    have positive : 0 < |x| := (zpow_pos (by decide) _).trans_le normal
    have unit : (2 : Rat) ^ unitExponent x * 2 ^ 52 ≤ |x| := by
      have power (e : Int) : (2 : Rat) ^ e * 2 ^ 52 = 2 ^ (e + 52) := by
        rw [zpow_add₀ (by decide)]
        rfl
      rw [power, unitExponent, abs_eq_abs]
      rcases max_choice (-1074) (floorLog2 |x| - 52) with least | log
      · rw [least]
        exact normal
      · rw [log, sub_add_cancel]
        exact two_zpow_floorLog2_le positive
    have scale : (0 : Rat) < 2 ^ unitExponent x := zpow_pos (by decide) _
    generalize (2 : Rat) ^ unitExponent x = u at unit scale
    have near := two_mul_abs_roundHalfEven_sub_le (x / u)
    have moved : (roundHalfEven (x / u) : Rat) * u - x = (roundHalfEven (x / u) - x / u) * u := by
      field_simp
    rw [moved, abs_mul, abs_of_pos scale]
    calc |(roundHalfEven (x / u) : Rat) - x / u| * u * 2 ^ 53
        = (2 * |(roundHalfEven (x / u) : Rat) - x / u|) * (u * 2 ^ 52) := by ring
      _ ≤ 1 * (u * 2 ^ 52) := mul_le_mul_of_nonneg_right near (by positivity)
      _ ≤ |x| := by rw [one_mul]; exact unit

/-! ## Cutting off the fraction -/

variable {x y : Rat} {a b d n q : Int}

theorem floor_eq_iff : x.floor = q ↔ (q : Rat) ≤ x ∧ x < q + 1 := by
  show ⌊x⌋ = q ↔ _
  exact Int.floor_eq_iff

/-- The integral part is the next integer on the side of zero. -/
theorem truncate_eq_iff :
    truncate x = q ↔ if x < 0 then (q : Rat) - 1 < x ∧ x ≤ q else (q : Rat) ≤ x ∧ x < q + 1 := by
  unfold truncate
  split
  next negative =>
    rw [neg_eq_iff_eq_neg, floor_eq_iff]
    push_cast
    constructor <;> rintro ⟨low, high⟩ <;> constructor <;> linarith
  next => exact floor_eq_iff

/-- A fraction with the denominator `d` keeps a distance from every integer, and what is
nearer to the fraction than that is on the same side of the integer. -/
theorem intCast_lt_of_near (positive : 0 < d) (whole : x * d = n) (near : |y - x| * d < 1)
    (above : (q : Rat) < x) : (q : Rat) < y := by
  have scale : (0 : Rat) < d := Int.cast_pos.2 positive
  have step : q * d + 1 ≤ n := by
    have strict : ((q * d : Int) : Rat) < n := by
      rw [← whole, Int.cast_mul]
      exact mul_lt_mul_of_pos_right above scale
    exact Int.add_one_le_of_lt (Int.cast_lt.1 strict)
  have step' : (q : Rat) * d + 1 ≤ x * d := by
    rw [whole]
    exact_mod_cast step
  have low := mul_le_mul_of_nonneg_right (neg_abs_le (y - x)) scale.le
  refine lt_of_mul_lt_mul_right ?_ scale.le
  linarith

theorem lt_intCast_of_near (positive : 0 < d) (whole : x * d = n) (near : |y - x| * d < 1)
    (below : x < q) : y < q := by
  have mirrored : ((-q : Int) : Rat) < -y := by
    refine intCast_lt_of_near (x := -x) (n := -n) positive ?_ ?_ ?_
    · rw [neg_mul, whole, Int.cast_neg]
    · rw [neg_sub_neg, abs_sub_comm]
      exact near
    · rw [Int.cast_neg]
      exact neg_lt_neg below
  rw [Int.cast_neg] at mirrored
  exact neg_lt_neg_iff.1 mirrored

/-- Nothing that near to a fraction has another integral part. -/
theorem truncate_eq_of_near (positive : 0 < d) (whole : x * d = n) (near : |y - x| * d < 1)
    (cut : truncate x = q) (fraction : x ≠ q) : truncate y = q := by
  rw [truncate_eq_iff] at cut ⊢
  split at cut
  next negative =>
    have below : y < q := lt_intCast_of_near positive whole near (lt_of_le_of_ne cut.2 fraction)
    have above : ((q - 1 : Int) : Rat) < y :=
      intCast_lt_of_near positive whole near (by push_cast; exact cut.1)
    have sign : y < ((0 : Int) : Rat) :=
      lt_intCast_of_near positive whole near (by rwa [Int.cast_zero])
    rw [Int.cast_zero] at sign
    push_cast at above
    rw [if_pos sign]
    exact ⟨above, below.le⟩
  next natural =>
    have above : (q : Rat) < y :=
      intCast_lt_of_near positive whole near (lt_of_le_of_ne cut.1 fraction.symm)
    have below : y < ((q + 1 : Int) : Rat) :=
      lt_intCast_of_near positive whole near (by push_cast; exact cut.2)
    have least : 0 ≤ q := by
      have next : (0 : Rat) < ((q + 1 : Int) : Rat) := by
        push_cast
        exact (not_lt.1 natural).trans_lt cut.2
      exact Int.lt_add_one_iff.1 (Int.cast_pos.1 next)
    push_cast at below
    rw [if_neg (not_lt.2 ((Int.cast_nonneg least).trans above.le))]
    exact ⟨above.le, below⟩

theorem truncate_neg (x : Rat) : truncate (-x) = -truncate x := by
  rcases lt_trichotomy x 0 with negative | rfl | positive
  · rw [truncate, truncate, if_neg (by linarith), if_pos negative, neg_neg]
  · rfl
  · rw [truncate, truncate, if_pos (by linarith), if_neg (by linarith), neg_neg]

/-- The integral part of a quotient is the one of division toward zero. -/
theorem truncate_div (a b : Int) : truncate ((a : Rat) / b) = a.tdiv b := by
  have naturals (k l : Nat) : truncate ((k : Rat) / l) = ((k / l : Nat) : Int) := by
    have natural : (0 : Rat) ≤ (k : Rat) / l := by positivity
    rw [truncate, if_neg (not_lt.2 natural)]
    exact Rat.floor_intCast_div_natCast k l
  obtain ⟨k, rfl | rfl⟩ := a.eq_nat_or_neg <;> obtain ⟨l, rfl | rfl⟩ := b.eq_nat_or_neg <;>
    simp only [Int.cast_neg, Int.cast_natCast, neg_div, div_neg, truncate_neg, naturals,
      Int.neg_tdiv, Int.tdiv_neg, Int.ofNat_tdiv]

/-! ## Quotients -/

theorem truncate_intCast (n : Int) : truncate n = n := by
  have whole := truncate_div n 1
  rwa [Int.cast_one, div_one, Int.tdiv_one] at whole

theorem round_eq_nearest (bounded : |nearest x| < 2 ^ 1024) : round x = finite (nearest x) := by
  by_cases exact_ : isExact x = true
  · rw [round, nearest, if_pos exact_, if_pos exact_]
  · rw [← abs_eq_abs] at bounded
    exact round_of_nearest_lt exact_ (by exact_mod_cast bounded)

/-- A fraction whose denominator fits the significand is not subnormal. -/
theorem normal_of_mul_eq (positive : 0 < d) (whole : x * d = n) (nonzero : x ≠ 0)
    (small : d ≤ 2 ^ 53) : (2 : Rat) ^ (-1022 : Int) ≤ |x| := by
  have scale : (0 : Rat) < d := Int.cast_pos.2 positive
  have numerator : n ≠ 0 := by
    rintro rfl
    rw [Int.cast_zero] at whole
    exact nonzero ((mul_eq_zero.1 whole).resolve_right scale.ne')
  have least : (1 : Rat) ≤ |x| * d := by
    have size : |x| * d = ((|n| : Int) : Rat) := by
      rw [Int.cast_abs, ← whole, abs_mul, abs_of_pos scale]
    rw [size]
    exact_mod_cast Int.one_le_abs numerator
  have small' : (d : Rat) ≤ 2 ^ 53 := by exact_mod_cast small
  have unit : (2 : Rat) ^ (-1022 : Int) * 2 ^ 53 ≤ 1 := by
    have power : (2 : Rat) ^ (-1022 : Int) ≤ 2 ^ (-53 : Int) :=
      zpow_le_zpow_right₀ (by decide) (by decide)
    exact (mul_le_mul_of_nonneg_right power (by positivity)).trans_eq (by norm_num)
  refine le_of_mul_le_mul_right ?_ scale
  calc (2 : Rat) ^ (-1022 : Int) * d
      ≤ 2 ^ (-1022 : Int) * 2 ^ 53 := mul_le_mul_of_nonneg_left small' (by positivity)
    _ ≤ 1 := unit
    _ ≤ |x| * d := least

/-- Rounding a quotient of two numbers that fit the significand leaves its integral part. -/
theorem trunc_round_div (nonzero : b ≠ 0) (dividend : a.natAbs < largestExact)
    (divisor : b.natAbs ≤ largestExact) :
    (round ((a : Rat) / b)).trunc = finite (a.tdiv b : Int) := by
  have limit : largestExact = 2 ^ 53 := rfl
  have scale : (b : Rat) ≠ 0 := Int.cast_ne_zero.2 nonzero
  by_cases fraction : (a : Rat) / b = (a.tdiv b : Int)
  · have small : (a.tdiv b).natAbs ≤ largestExact := by
      rw [Int.natAbs_tdiv]
      exact (Nat.div_le_self _ _).trans dividend.le
    rw [fraction, round_of_natAbs_le small, trunc, truncate_intCast]
  · have positive : 0 < |b| := abs_pos.2 nonzero
    have few : |b| ≤ 2 ^ 53 := by
      rw [Int.abs_eq_natAbs]
      omega
    have size : |(a : Rat) / b| * (|b| : Int) = (|a| : Int) := by
      rw [Int.cast_abs, Int.cast_abs, ← abs_mul, div_mul_cancel₀ _ scale]
    have whole : (a : Rat) / b * (|b| : Int) = (b.sign * a : Int) := by
      rw [← Int.sign_mul_self_eq_abs, Int.cast_mul, Int.cast_mul, mul_left_comm,
        div_mul_cancel₀ _ scale]
    have few' : ((|a| : Int) : Rat) < 2 ^ 53 := by
      have below : |a| < 2 ^ 53 := by
        rw [Int.abs_eq_natAbs]
        omega
      exact_mod_cast below
    have unit : (1 : Rat) ≤ (|b| : Int) := by exact_mod_cast positive
    have moved : |nearest ((a : Rat) / b) - a / b| * 2 ^ 53 ≤ |(a : Rat) / b| := by
      refine abs_nearest_sub_le (normal_of_mul_eq positive whole ?_ few)
      intro zero
      rw [div_eq_zero_iff, or_iff_left scale, Int.cast_eq_zero] at zero
      rw [zero, Int.zero_tdiv, Int.cast_zero, zero_div] at fraction
      exact fraction rfl
    have near : |nearest ((a : Rat) / b) - a / b| * (|b| : Int) < 1 := by
      have scaled := mul_le_mul_of_nonneg_right moved (zero_le_one.trans unit)
      rw [size] at scaled
      linarith
    have bounded : |nearest ((a : Rat) / b)| < 2 ^ 1024 := by
      have quotient : |(a : Rat) / b| < 2 ^ 53 :=
        (le_mul_of_one_le_right (abs_nonneg _) unit).trans_lt (size.trans_lt few')
      have triangle := abs_sub_abs_le_abs_sub (nearest ((a : Rat) / b)) (a / b)
      have power : (2 : Rat) ^ 54 ≤ 2 ^ 1024 := pow_le_pow_right₀ (by decide) (by decide)
      refine lt_of_lt_of_le ?_ power
      linarith
    rw [round_eq_nearest bounded, trunc, truncate_eq_of_near positive whole near
      (truncate_div a b) fraction]

/-! ## Remainders -/

theorem rem_intCast (nonzero : b ≠ 0) :
    (finite a).rem (finite b) = finite ((a.tmod b : Int) : Rat) := by
  have divisor : (b : Rat) ≠ 0 := Int.cast_ne_zero.2 nonzero
  rw [rem, if_neg divisor, truncate_div, Int.tmod_def]
  push_cast
  rfl

theorem tmod_add_tmod_of_pos (a : Int) (positive : 0 < b) :
    (a.tmod b + b).tmod b = a.fmod b := by
  have natural : 0 ≤ a.tmod b + b := by
    have low := Int.lt_tmod_of_pos a positive
    omega
  have parts := Int.tmod_def a b
  rw [Int.tmod_eq_emod_of_nonneg natural, Int.fmod_eq_emod_of_nonneg a positive.le,
    Int.add_emod_right, parts, Int.sub_mul_emod_self_left]

/-- Shifting the remainder by the divisor gives it the sign of the divisor. -/
theorem tmod_add_tmod (a : Int) (nonzero : b ≠ 0) : (a.tmod b + b).tmod b = a.fmod b := by
  rcases lt_or_gt_of_ne nonzero with negative | positive
  · have mirrored := tmod_add_tmod_of_pos (-a) (neg_pos.2 negative)
    rw [Int.neg_fmod_neg, Int.tmod_neg, Int.tmod_neg, Int.neg_tmod, ← neg_add, Int.neg_tmod]
      at mirrored
    exact neg_inj.1 mirrored
  · exact tmod_add_tmod_of_pos a positive

/-- What is computed for two integers is the remainder of division rounding down. -/
theorem floorRem_ofInt (nonzero : b ≠ 0) (dividend : a.natAbs ≤ largestExact)
    (divisor : 2 * b.natAbs ≤ largestExact) :
    (ofInt a).floorRem (ofInt b) = finite ((a.fmod b : Int) : Rat) := by
  have remainder : (a.tmod b).natAbs < b.natAbs := by
    rw [Int.natAbs_tmod]
    exact Nat.mod_lt _ (Int.natAbs_pos.2 nonzero)
  have small : (a.tmod b + b).natAbs ≤ largestExact := by omega
  have sum : (finite ((a.tmod b : Int) : Rat)).add (finite b) =
      finite ((a.tmod b + b : Int) : Rat) := by
    rw [add, exactSum_eq, ← Int.cast_add, round_of_natAbs_le small]
  rw [floorRem, ofInt_eq_finite dividend, ofInt_eq_finite (by omega), rem_intCast nonzero, sum,
    rem_intCast nonzero, tmod_add_tmod a nonzero]

end MessageMachine.Binary64
