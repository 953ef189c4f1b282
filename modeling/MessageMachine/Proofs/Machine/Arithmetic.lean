/-
# Integer primitives are exact or refuse

The operands of a primitive fit an immediate, so that sums, differences and products have
93 binary digits at most. Only products of more than 53 digits are rounded; they are out of
the range of an immediate, and still are when rounded, `inRange?_ofInt`. Hence they are
refused as the exact product would be. Quotients and remainders are those of integers by
`trunc_round_div` and `floorRem_ofInt`.

The format has two zeros, and an operation on integers may come to either. They are one
number here, because the handle of an integer never shows which it was: `Signed.pack_eq`.
-/

import MessageMachine.Proofs.Binary64.Quotient
import MessageMachine.Proofs.Machine.Guard

namespace MessageMachine

open Binary64

/-! ## Numbers that fit an immediate -/

namespace Value

/-- An immediate holds the integer. -/
def Fits (n : Int) : Prop :=
  minInteger ≤ n ∧ n ≤ maxInteger

instance (n : Int) : Decidable (Fits n) :=
  inferInstanceAs (Decidable (_ ∧ _))

theorem fits_iff {n : Int} : Fits n ↔ -2 ^ 46 ≤ n ∧ n ≤ 2 ^ 46 - 1 := Iff.rfl

variable {a b n : Int}

theorem Fits.natAbs_le (fits : Fits n) : n.natAbs ≤ 2 ^ 46 := by
  have range := fits_iff.1 fits
  omega

theorem Fits.natAbs_le_largestExact (fits : Fits n) : n.natAbs ≤ largestExact :=
  fits.natAbs_le.trans (by decide)

/-- Rounding brings no integer into the range. -/
theorem inRange?_ofInt (digits : n.natAbs < 2 ^ 200) :
    inRange? (.ofInt n) = if Fits n then some n else none := by
  rcases Nat.lt_or_ge largestExact n.natAbs with large | small
  · obtain ⟨r, rounded, beyond⟩ := exists_round_of_large large digits
    have limit : largestExact = 2 ^ 53 := rfl
    have outside : ¬ Fits n := fun fits => absurd fits.natAbs_le (by omega)
    have outside' : ¬ Fits r := fun fits => absurd fits.natAbs_le (by omega)
    rw [inRange?, ofInt, rounded, if_neg outside]
    exact if_neg outside'
  · rw [inRange?, toInt?_ofInt small]
    rfl

/-- Truncated division leaves the range at one place only. -/
theorem fits_tdiv_iff (dividend : Fits a) (nonzero : b ≠ 0) :
    Fits (a.tdiv b) ↔ ¬ (a = minInteger ∧ b = -1) := by
  have range := fits_iff.1 dividend
  have least : minInteger = -2 ^ 46 := rfl
  rw [fits_iff, least]
  by_cases plus : b = 1
  · rw [plus, Int.tdiv_one]
    omega
  · by_cases minus : b = -1
    · rw [minus, Int.tdiv_neg, Int.tdiv_one]
      omega
    · have half : (a.tdiv b).natAbs ≤ a.natAbs / 2 := by
        rw [Int.natAbs_tdiv]
        exact Nat.div_le_div_left (by omega) (by decide)
      generalize a.tdiv b = q at half
      omega

end Value

/-! ## The sign of zero -/

namespace Binary64

/-- A number with its sign bit. -/
structure Signed where
  number : Binary64
  negative : Bool

namespace Signed

/-- Only a zero takes the sign that is given; every other number has its own. -/
def of (number : Binary64) (zero : Bool) : Signed where
  number := number
  negative :=
    match number with
    | nan => false
    | infinity negative => negative
    | finite x => if x = 0 then zero else decide (x < 0)

def ofInt (n : Int) : Signed :=
  of (.ofInt n) false

/-- A product that is zero is negative if one of the factors is. -/
def mul (x y : Signed) : Signed :=
  of (x.number.mul y.number) (x.negative ^^ y.negative)

/-- A sum that is zero is negative if both summands are. -/
def add (x y : Signed) : Signed :=
  of (x.number.add y.number) (x.negative && y.negative)

/-- The handle of an integer, in the arithmetic that packs it. -/
def pack (x : Signed) : Signed :=
  (x.mul (ofInt 8)).add (ofInt 1)

theorem of_finite {x : Rat} (nonzero : x ≠ 0) (zero : Bool) :
    of (finite x) zero = of (finite x) false := by
  simp only [of, if_neg nonzero]

/-- Zeros of both signs are packed into the same handle. -/
theorem pack_eq {x : Signed} {n : Int} (fits : Value.Fits n) (same : x.number = .ofInt n) :
    x.pack = ofInt (n * 8 + 1) := by
  have bound := fits.natAbs_le
  have limit : largestExact = 2 ^ 53 := rfl
  have nonzero : ((n * 8 + 1 : Int) : Rat) ≠ 0 := Int.cast_ne_zero.2 (by omega)
  show of ((x.number.mul (.ofInt 8)).add (.ofInt 1)) _ = of (.ofInt (n * 8 + 1)) false
  rw [same, mul_ofInt fits.natAbs_le_largestExact (by decide), add_ofInt (by omega) (by decide),
    ofInt_eq_finite (by omega), of_finite nonzero]

/-- Minus five times zero is the negative zero. -/
example : (ofInt (-5)).mul (ofInt 0) = ⟨.ofInt 0, true⟩ := by
  rfl

end Signed

end Binary64

namespace Machine

open Value

variable {m : Machine} {a b n : Int} {p : Ref .primitive}

/-! ## Operators -/

/-- The integer that an operation stands for. -/
def exactResult (op : Arithmetic) (a b : Int) : Int :=
  match op with
  | .add => a + b
  | .subtract => a - b
  | .multiply => a * b

/-- The result of an operation is rounded once. -/
theorem arithmetic_ofInt (op : Arithmetic) (first : Fits a) (second : Fits b) :
    Operators.arithmetic op (.ofInt a) (.ofInt b) = .ofInt (exactResult op a b) := by
  cases op with
  | add => exact add_ofInt first.natAbs_le_largestExact second.natAbs_le_largestExact
  | subtract => exact sub_ofInt first.natAbs_le_largestExact second.natAbs_le_largestExact
  | multiply => exact mul_ofInt first.natAbs_le_largestExact second.natAbs_le_largestExact

theorem natAbs_exactResult_lt (op : Arithmetic) (first : Fits a) (second : Fits b) :
    (exactResult op a b).natAbs < 2 ^ 200 := by
  have small := first.natAbs_le
  have small' := second.natAbs_le
  cases op with
  | add =>
    rw [exactResult]
    omega
  | subtract =>
    rw [exactResult]
    omega
  | multiply =>
    rw [exactResult, Int.natAbs_mul]
    exact (Nat.mul_le_mul small small').trans_lt (by decide)

theorem quotient_ofInt (first : Fits a) (second : Fits b) (nonzero : b ≠ 0) :
    Operators.division .quotient (.ofInt a) (.ofInt b) = .ofInt (a.tdiv b) := by
  have divisor : (b : Rat) ≠ 0 := Int.cast_ne_zero.2 nonzero
  have small : (a.tdiv b).natAbs ≤ largestExact := by
    rw [Int.natAbs_tdiv]
    exact (Nat.div_le_self _ _).trans first.natAbs_le_largestExact
  rw [Operators.division, ofInt_eq_finite first.natAbs_le_largestExact,
    ofInt_eq_finite second.natAbs_le_largestExact, div, if_neg divisor,
    trunc_round_div nonzero (first.natAbs_le.trans_lt (by decide)) second.natAbs_le_largestExact,
    ofInt_eq_finite small]

/-- A remainder by rounding down has the sign of the divisor and is smaller. -/
theorem fmod_bounds (a : Int) (nonzero : b ≠ 0) :
    |a.fmod b| < |b| ∧ (0 < b → 0 ≤ a.fmod b) ∧ (b < 0 → a.fmod b ≤ 0) := by
  have positive (a : Int) {b : Int} (sign : 0 < b) : 0 ≤ a.fmod b ∧ a.fmod b < b :=
    ⟨Int.fmod_nonneg_of_pos a sign, Int.fmod_lt_of_pos a sign⟩
  rcases lt_or_gt_of_ne nonzero with negative | sign
  · have bounds := positive (-a) (neg_pos.2 negative)
    rw [Int.neg_fmod_neg] at bounds
    have low : a.fmod b ≤ 0 := by omega
    rw [abs_of_nonpos low, abs_of_neg negative]
    exact ⟨by omega, fun sign => absurd sign negative.asymm, fun _ => low⟩
  · have bounds := positive a sign
    rw [abs_of_nonneg bounds.1, abs_of_pos sign]
    exact ⟨bounds.2, fun _ => bounds.1, fun negative => absurd negative sign.asymm⟩

/-- Division rounding down is the floor of the quotient. -/
theorem fdiv_eq_floor (a b : Int) : a.fdiv b = ⌊(a : Rat) / b⌋ := by
  have natural (a : Int) (l : Nat) : a.fdiv l = ⌊(a : Rat) / (l : Int)⌋ := by
    rw [Int.fdiv_eq_ediv_of_nonneg a (Int.natCast_nonneg l)]
    exact (Rat.floor_intCast_div_natCast a l).symm
  obtain ⟨l, rfl | rfl⟩ := b.eq_nat_or_neg
  · exact natural a l
  · rw [← Int.neg_fdiv_neg, neg_neg, natural, Int.cast_neg, Int.cast_neg, div_neg, neg_div]

theorem modulo_ofInt (first : Fits a) (second : Fits b) (nonzero : b ≠ 0) :
    Operators.division .modulo (.ofInt a) (.ofInt b) = .ofInt (a.fmod b) := by
  have bound := (fmod_bounds a nonzero).1
  have small := second.natAbs_le
  have twice : 2 * b.natAbs ≤ largestExact :=
    (Nat.mul_le_mul_left 2 small).trans (by decide)
  have remainder : (a.fmod b).natAbs ≤ largestExact := by
    rw [Int.abs_eq_natAbs, Int.abs_eq_natAbs] at bound
    omega
  rw [Operators.division, floorRem_ofInt nonzero first.natAbs_le_largestExact twice,
    ofInt_eq_finite remainder]

/-! ## Primitives -/

/-- Answer an integer exactly, or give up because it does not fit. -/
def exactly (m : Machine) (n : Int) : Activity × Machine :=
  if Fits n then (.reply (.integer n), m) else (.abandon (.overflow ⟨.ofInt n⟩), m)

theorem answerNumber_ofInt (digits : n.natAbs < 2 ^ 200) :
    m.answerNumber (.ofInt n) = m.exactly n := by
  rw [answerNumber, ofNumber, inRange?_ofInt digits, exactly]
  by_cases fits : Fits n
  · rw [if_pos fits, if_pos fits]
    rfl
  · rw [if_neg fits, if_neg fits]

theorem arithmetic_integers (op : Arithmetic) (name : String) (first : Fits a)
    (second : Fits b) :
    m.arithmetic op name (.integer a) (.integer b) = m.exactly (exactResult op a b) := by
  show m.answerNumber (Operators.arithmetic op (.ofInt a) (.ofInt b)) = _
  rw [arithmetic_ofInt op first second, answerNumber_ofInt (natAbs_exactResult_lt op first second)]

theorem quotient_integers (name : String) (first : Fits a) (second : Fits b) (nonzero : b ≠ 0) :
    m.division .quotient name (.integer a) (.integer b) = m.exactly (a.tdiv b) := by
  have digits : (a.tdiv b).natAbs < 2 ^ 200 := by
    rw [Int.natAbs_tdiv]
    exact (Nat.div_le_self _ _).trans_lt (first.natAbs_le.trans_lt (by decide))
  show (if b = 0 then _ else m.answerNumber (Operators.division .quotient _ _)) = _
  rw [if_neg nonzero, quotient_ofInt first second nonzero, answerNumber_ofInt digits]

theorem modulo_integers (name : String) (first : Fits a) (second : Fits b) (nonzero : b ≠ 0) :
    m.division .modulo name (.integer a) (.integer b) = m.answer (.integer (a.fmod b)) := by
  have bound := (fmod_bounds a nonzero).1
  rw [Int.abs_eq_natAbs, Int.abs_eq_natAbs] at bound
  have small := second.natAbs_le
  have digits : (a.fmod b).natAbs < 2 ^ 46 := by omega
  have fits : Fits (a.fmod b) := by
    rw [fits_iff]
    omega
  show (if b = 0 then _ else m.answerNumber (Operators.division .modulo _ _)) = _
  rw [if_neg nonzero, modulo_ofInt first second nonzero,
    answerNumber_ofInt (digits.trans (by decide)), exactly, if_pos fits]
  rfl

theorem division_by_zero (op : Division) (name : String) :
    m.division op name (.integer a) (.integer 0) = m.decline name "division by zero" :=
  rfl

theorem comparison_integers (op : Comparison) (name : String) :
    m.comparison op name (.integer a) (.integer b) =
      m.answer (.boolean (Operators.comparison op a b)) :=
  rfl

/-! ## Calls -/

/-- What comes of calling the standard primitive of integers that has the name. -/
inductive Calls (m : Machine) (name : String) (a b : Int) : Activity × Machine → Prop
  | standard (p : Ref .primitive) :
      (m.heap.primitive p).IsStandard .integer → (m.heap.primitive p).name = name →
      Calls m name a b (m.callPrimitive p [.integer a, .integer b])

variable {name : String} {next : Activity × Machine}

/-- A name that is given once determines what is performed. -/
theorem Calls.eq_perform (calls : Calls m name a b next) (behaviour : Behaviour)
    (only : ∀ arity other, (Tag.integer, name, arity, other) ∈ Image.standardPrimitives →
      arity = some 2 ∧ other = behaviour) :
    next = m.perform behaviour name [.integer a, .integer b] := by
  obtain ⟨p, standard, rfl⟩ := calls
  obtain ⟨arity, performed⟩ := only _ _ standard
  rw [callPrimitive_of_accepts, performed]
  intro expected given
  rw [arity] at given
  exact (Option.some.inj given).symm

/-- The integer that is zero is one value only, the one that packs into the handle 1. -/
theorem eq_zero_of_asInteger? {v : Value} (zero : v.asInteger? = some 0) :
    ofNumber (.ofInt 0) = .ok v ∧ v.handle? = some (.ofInt 1) ∧
      ∀ x : Signed, x.number = .ofInt 0 → x.pack = .ofInt 1 := by
  cases v with
  | integer n =>
    cases zero
    exact ⟨rfl, rfl, fun x same => Signed.pack_eq (by decide) same⟩
  | _ => cases zero

/-- What the standard primitives of integers come to, given two integers. -/
structure ExactOrRefused (m : Machine) (a b : Int) : Prop where
  sum : ∀ next, Calls m "+" a b next → next = m.exactly (a + b)
  difference : ∀ next, Calls m "-" a b next → next = m.exactly (a - b)
  product : ∀ next, Calls m "*" a b next → next = m.exactly (a * b)
  quotient : b ≠ 0 → ∀ next, Calls m "/" a b next → next = m.exactly (a.tdiv b)
  /-- There is one quotient that does not fit. -/
  quotient_fits : b ≠ 0 → (Fits (a.tdiv b) ↔ ¬ (a = minInteger ∧ b = -1))
  remainder : b ≠ 0 → ∃ r : Int, r = a - b * ⌊(a : Rat) / b⌋ ∧
    (|r| < |b| ∧ (0 < b → 0 ≤ r) ∧ (b < 0 → r ≤ 0)) ∧
      ∀ next, Calls m "mod" a b next → next = (.reply (.integer r), m)
  /-- A zero divisor is reported once and nil is answered. -/
  by_zero : b = 0 → ∀ name ∈ ["/", "mod"], ∀ next, Calls m name a b next →
    next = (.reply .nil, m.report .primitiveFailed s!"{name}: division by zero")
  less : ∀ next, Calls m "<" a b next → next = (.reply (.boolean (decide (a < b))), m)
  greater : ∀ next, Calls m ">" a b next → next = (.reply (.boolean (decide (a > b))), m)
  lessEqual : ∀ next, Calls m "<=" a b next → next = (.reply (.boolean (decide (a ≤ b))), m)
  greaterEqual : ∀ next, Calls m ">=" a b next → next = (.reply (.boolean (decide (a ≥ b))), m)
  /-- A zero is answered as one value, with one handle, whichever of the zeros was computed. -/
  zero : ∀ name next v, Calls m name a b next → next.1 = .reply v → v.asInteger? = some 0 →
    ofNumber (.ofInt 0) = .ok v ∧ v.handle? = some (.ofInt 1) ∧
      ∀ x : Signed, x.number = .ofInt 0 → x.pack = .ofInt 1

/-- Operations on integers answer the exact result or refuse it. -/
theorem exactOrRefused_of_fits (m : Machine) (first : Fits a) (second : Fits b) :
    ExactOrRefused m a b where
  sum next calls := by
    rw [calls.eq_perform (.arithmetic .add) (by simp [Image.standardPrimitives])]
    exact arithmetic_integers .add "+" first second
  difference next calls := by
    rw [calls.eq_perform (.arithmetic .subtract) (by simp [Image.standardPrimitives])]
    exact arithmetic_integers .subtract "-" first second
  product next calls := by
    rw [calls.eq_perform (.arithmetic .multiply) (by simp [Image.standardPrimitives])]
    exact arithmetic_integers .multiply "*" first second
  quotient nonzero next calls := by
    rw [calls.eq_perform (.division .quotient) (by simp [Image.standardPrimitives])]
    exact quotient_integers "/" first second nonzero
  quotient_fits := fits_tdiv_iff first
  remainder nonzero := by
    refine ⟨a.fmod b, by rw [Int.fmod_def, fdiv_eq_floor], fmod_bounds a nonzero, ?_⟩
    intro next calls
    rw [calls.eq_perform (.division .modulo) (by simp [Image.standardPrimitives])]
    exact modulo_integers "mod" first second nonzero
  by_zero := by
    rintro rfl name either next calls
    rcases List.mem_pair.1 either with rfl | rfl
    · rw [calls.eq_perform (.division .quotient) (by simp [Image.standardPrimitives])]
      exact division_by_zero .quotient "/"
    · rw [calls.eq_perform (.division .modulo) (by simp [Image.standardPrimitives])]
      exact division_by_zero .modulo "mod"
  less next calls := by
    rw [calls.eq_perform (.comparison .less) (by simp [Image.standardPrimitives])]
    exact comparison_integers .less "<"
  greater next calls := by
    rw [calls.eq_perform (.comparison .greater) (by simp [Image.standardPrimitives])]
    exact comparison_integers .greater ">"
  lessEqual next calls := by
    rw [calls.eq_perform (.comparison .lessEqual) (by simp [Image.standardPrimitives])]
    exact comparison_integers .lessEqual "<="
  greaterEqual next calls := by
    rw [calls.eq_perform (.comparison .greaterEqual) (by simp [Image.standardPrimitives])]
    exact comparison_integers .greaterEqual ">="
  zero _ _ _ _ _ := eq_zero_of_asInteger?

/-- The least integer divided by minus one is refused, although it is a quotient of two
integers that fit. -/
theorem exactOrRefused_least :
    let m : Machine := .idle (Image.create .empty none false).1 (Image.create .empty none false).2
      .standard
    Fits minInteger ∧ Fits (-1) ∧ ExactOrRefused m minInteger (-1) ∧
      Calls m "/" minInteger (-1) (m.callPrimitive ⟨12⟩ [.integer minInteger, .integer (-1)]) ∧
      m.callPrimitive ⟨12⟩ [.integer minInteger, .integer (-1)] =
        (.abandon (.overflow ⟨.ofInt 70368744177664⟩), m) := by
  intro m
  have least : Fits minInteger := by decide
  have minus : Fits (-1) := by decide
  have exact_ := exactOrRefused_of_fits m least minus
  have called : Calls m "/" minInteger (-1)
      (m.callPrimitive ⟨12⟩ [.integer minInteger, .integer (-1)]) :=
    .standard ⟨12⟩ (by decide +kernel) rfl
  exact ⟨least, minus, exact_, called, exact_.quotient (by decide) _ called⟩

end Machine

end MessageMachine
