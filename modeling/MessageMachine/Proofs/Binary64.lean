/-
# Rounding of whole numbers

Operands are computed in binary64 arithmetic, and nothing larger than the 53rd power
of two is read back from it. What matters is therefore that rounding is exact up to
that size and never brings a larger number below it. `Whole` collects the numbers that
sums and products of whole numbers can give, with the size that they have at least.
-/

import Mathlib
import MessageMachine.Binary64

namespace MessageMachine.Binary64

/-! ## Rounding once -/

theorem isExact_natCast (n : Nat) : isExact (n : Rat) = decide (n ≤ largestExact) := by
  rfl

/-- Natural numbers up to the 53rd power of two are not rounded. -/
theorem round_natCast {n : Nat} (small : n ≤ largestExact) : round (n : Rat) = finite n := by
  unfold round
  rw [isExact_natCast, if_pos (decide_eq_true small)]

/-- The exponent of a whole number is the length of its binary form. -/
theorem floorLog2_natCast {n : Nat} (positive : n ≠ 0) :
    floorLog2 (n : Rat) = (n.log2 : Int) := by
  have guess : ((n : Rat).num.natAbs.log2 : Int) - ((n : Rat).den.log2 : Int) = n.log2 := by
    have one : ((1 : Nat).log2 : Int) = 0 := by decide
    rw [Rat.num_natCast, Rat.den_natCast, Int.natAbs_natCast, one, Int.sub_zero]
  have power : (2 : Rat) ^ (n.log2 : Int) ≤ (n : Rat) := by
    rw [Rat.zpow_natCast]
    exact_mod_cast Nat.log2_self_le positive
  unfold floorLog2
  simp only [guess]
  exact if_neg (Rat.not_lt.2 power)

/-- Rounding to an integer is never more than one down. -/
theorem floor_le_roundHalfEven (x : Rat) : x.floor ≤ roundHalfEven x := by
  unfold roundHalfEven
  simp only
  split
  · exact Int.le_refl _
  · split
    · omega
    · split <;> omega

/-- A large whole number is rounded to a whole number, no smaller than a power of two
that it covers. -/
theorem nearest_natCast {n : Nat} (large : largestExact < n) :
    ∃ m : Nat, nearest (n : Rat) = m ∧ largestExact ≤ m := by
  have positive : n ≠ 0 := by omega
  have inexact : isExact (n : Rat) = false := by
    rw [isExact_natCast]
    exact decide_eq_false (Nat.not_le.2 large)
  have length : 53 ≤ n.log2 := (Nat.le_log2 positive).2 (Nat.le_of_lt large)
  obtain ⟨k, size⟩ : ∃ k, n.log2 = 52 + k := ⟨n.log2 - 52, by omega⟩
  have unit : unitExponent (n : Rat) = (k : Int) := by
    unfold unitExponent
    rw [Rat.abs_of_nonneg Rat.natCast_nonneg, floorLog2_natCast positive, size]
    omega
  have scale : (0 : Rat) < (2 : Rat) ^ k := Rat.pow_pos (by decide)
  have low : (((2 ^ 52 : Nat) : Int) : Rat) ≤ (n : Rat) / 2 ^ k := by
    apply Rat.le_of_mul_le_mul_right _ scale
    rw [Rat.div_mul_cancel (Rat.ne_of_gt scale)]
    have covers : 2 ^ 52 * 2 ^ k ≤ n := by
      rw [← Nat.pow_add, ← size]
      exact Nat.log2_self_le positive
    have covers' := Rat.natCast_le_natCast.2 covers
    rw [Rat.natCast_mul, Rat.natCast_pow 2 k] at covers'
    exact covers'
  have rounded : ((2 ^ 52 : Nat) : Int) ≤ roundHalfEven ((n : Rat) / 2 ^ k) :=
    Int.le_trans (Rat.le_floor_iff.2 low) (floor_le_roundHalfEven _)
  obtain ⟨r, whole⟩ := Int.eq_ofNat_of_zero_le (Int.le_trans (by decide) rounded)
  refine ⟨r * 2 ^ k, ?_, ?_⟩
  · unfold nearest
    rw [if_neg (by rw [inexact]; decide), unit]
    show (roundHalfEven ((n : Rat) / 2 ^ k) : Rat) * 2 ^ k = _
    rw [whole]
    rw [Rat.natCast_mul, Rat.natCast_pow]
    rfl
  · rw [whole] at rounded
    have covers : 2 ^ 52 ≤ r := by exact_mod_cast rounded
    have more : 2 ^ 1 ≤ 2 ^ k := Nat.pow_le_pow_right (by decide) (by omega)
    exact Nat.mul_le_mul covers more

/-! ## Safe integers -/

/-- Whole numbers up to the 53rd power of two, on both sides of zero, are not rounded. -/
theorem ofInt_eq_finite {n : Int} (small : n.natAbs ≤ largestExact) : ofInt n = finite n := by
  have exact_ : isExact (n : Rat) = true := by
    simp [isExact, small]
  unfold ofInt round
  rw [if_pos exact_]

theorem toInt?_ofInt {n : Int} (small : n.natAbs ≤ largestExact) : (ofInt n).toInt? = some n := by
  rw [ofInt_eq_finite small]
  rfl

section

variable {a b : Int}

theorem ofInt_inj (first : a.natAbs ≤ largestExact) (second : b.natAbs ≤ largestExact) :
    ofInt a = ofInt b ↔ a = b := by
  rw [ofInt_eq_finite first, ofInt_eq_finite second, finite.injEq, Rat.intCast_inj]

/-! The exact result is rounded once. -/

theorem add_ofInt (first : a.natAbs ≤ largestExact) (second : b.natAbs ≤ largestExact) :
    (ofInt a).add (ofInt b) = ofInt (a + b) := by
  rw [ofInt_eq_finite first, ofInt_eq_finite second, add, exactSum_eq, ← Rat.intCast_add]
  rfl

theorem sub_ofInt (first : a.natAbs ≤ largestExact) (second : b.natAbs ≤ largestExact) :
    (ofInt a).sub (ofInt b) = ofInt (a - b) := by
  rw [ofInt_eq_finite first, ofInt_eq_finite second, sub, neg, add, exactSum_eq,
    ← Rat.sub_eq_add_neg, ← Rat.intCast_sub]
  rfl

theorem mul_ofInt (first : a.natAbs ≤ largestExact) (second : b.natAbs ≤ largestExact) :
    (ofInt a).mul (ofInt b) = ofInt (a * b) := by
  rw [ofInt_eq_finite first, ofInt_eq_finite second, mul, exactProduct_eq, ← Rat.intCast_mul]
  rfl

end

/-- A safe integer is the number of one integer only. -/
theorem toSafeInteger?_eq_some_iff {a : Binary64} {n : Int} :
    a.toSafeInteger? = some n ↔ a = ofInt n ∧ n.natAbs ≤ maxSafeInteger.natAbs := by
  have exact_ (safe : n.natAbs ≤ maxSafeInteger.natAbs) : n.natAbs ≤ largestExact :=
    Nat.le_trans safe (by decide)
  constructor
  · intro read
    cases a with
    | nan => cases read
    | infinity negative => cases read
    | finite x =>
      unfold toSafeInteger? toInt? at read
      by_cases whole : x.den = 1
      · simp only [if_pos whole] at read
        split at read
        next safe =>
          cases read
          rw [ofInt_eq_finite (exact_ safe), ← eq_num_of_den_eq_one whole]
          exact ⟨rfl, safe⟩
        next => cases read
      · simp only [if_neg whole] at read
        cases read
  · rintro ⟨rfl, safe⟩
    unfold toSafeInteger?
    simp only [toInt?_ofInt (exact_ safe), if_pos safe]

/-! ## Sums and products of whole numbers -/

/-- A number that is whole and at least `low`, or that is too large to be any. -/
def Whole (low : Nat) : Binary64 → Prop
  | nan => True
  | infinity negative => negative = false
  | finite x => ∃ n : Nat, x = n ∧ low ≤ n

theorem Whole.mono {low low' : Nat} {a : Binary64} (whole : Whole low a) (le : low' ≤ low) :
    Whole low' a := by
  cases a with
  | nan => trivial
  | infinity negative => exact whole
  | finite x =>
    obtain ⟨n, rfl, least⟩ := whole
    exact ⟨n, rfl, Nat.le_trans le least⟩

/-- Rounding keeps a number whole, and above the largest exact one if it was there. -/
theorem whole_round (n : Nat) : Whole (min n largestExact) (round (n : Rat)) := by
  rcases Nat.lt_or_ge largestExact n with large | small
  · obtain ⟨m, rounded, least⟩ := nearest_natCast large
    have inexact : isExact (n : Rat) = false := by
      rw [isExact_natCast]
      exact decide_eq_false (Nat.not_le.2 large)
    unfold round
    rw [if_neg (by rw [inexact]; decide)]
    simp only [rounded]
    split
    · exact ⟨m, rfl, Nat.le_trans (Nat.min_le_right _ _) least⟩
    · exact decide_eq_false (Rat.not_lt.2 Rat.natCast_nonneg)
  · rw [round_natCast small]
    exact ⟨n, rfl, Nat.min_le_left _ _⟩

theorem Whole.add {low low' : Nat} {a b : Binary64} (first : Whole low a)
    (second : Whole low' b) : Whole (min (low + low') largestExact) (a.add b) := by
  cases a with
  | nan => trivial
  | infinity negative =>
    cases first
    cases b with
    | nan => trivial
    | infinity negative' =>
      cases second
      exact rfl
    | finite y => exact rfl
  | finite x =>
    obtain ⟨n, rfl, least⟩ := first
    cases b with
    | nan => trivial
    | infinity negative' => exact second
    | finite y =>
      obtain ⟨n', rfl, least'⟩ := second
      have sum : (finite (n : Rat)).add (finite (n' : Rat)) = round ((n + n' : Nat) : Rat) := by
        simp only [Binary64.add, exactSum_eq, Rat.natCast_add]
      rw [sum]
      exact (whole_round (n + n')).mono (by omega)

theorem Whole.mul {low low' : Nat} {a b : Binary64} (first : Whole low a)
    (second : Whole low' b) : Whole (min (low * low') largestExact) (a.mul b) := by
  have positive (n : Nat) : decide ((n : Rat) < 0) = false :=
    decide_eq_false (Rat.not_lt.2 Rat.natCast_nonneg)
  cases a with
  | nan => trivial
  | infinity negative =>
    cases first
    cases b with
    | nan => trivial
    | infinity negative' =>
      cases second
      exact rfl
    | finite y =>
      obtain ⟨n', rfl, -⟩ := second
      simp only [Binary64.mul, positive]
      split
      · trivial
      · exact rfl
  | finite x =>
    obtain ⟨n, rfl, least⟩ := first
    cases b with
    | nan => trivial
    | infinity negative' =>
      cases second
      simp only [Binary64.mul, positive]
      split
      · trivial
      · exact rfl
    | finite y =>
      obtain ⟨n', rfl, least'⟩ := second
      have product : (finite (n : Rat)).mul (finite (n' : Rat)) = round ((n * n' : Nat) : Rat) := by
        simp only [Binary64.mul, exactProduct_eq, Rat.natCast_mul]
      have covers : low * low' ≤ n * n' := Nat.mul_le_mul least least'
      rw [product]
      exact (whole_round (n * n')).mono (by omega)

/-- A whole number that is read back is at least its bound. -/
theorem Whole.toSafeInteger? {low : Nat} {a : Binary64} (whole : Whole low a) {n : Int}
    (safe : a.toSafeInteger? = some n) : (low : Int) ≤ n ∧ n ≤ maxSafeInteger := by
  unfold Binary64.toSafeInteger? at safe
  cases a with
  | nan => cases safe
  | infinity negative => cases safe
  | finite x =>
    obtain ⟨k, rfl, least⟩ := whole
    have found : (finite (k : Rat)).toInt? = some (k : Int) := rfl
    rw [found] at safe
    simp only at safe
    split at safe
    · cases safe
      refine ⟨by exact_mod_cast least, ?_⟩
      have : (maxSafeInteger.natAbs : Int) = maxSafeInteger := rfl
      omega
    · cases safe

end MessageMachine.Binary64
