/-
# Binary64 numbers

The machine's immediates are packed into the 64-bit binary floating-point
format, and operand arithmetic, integer primitives and jump targets are carried
out in it. This module gives that format as a plain mathematical object: a
finite number is the rational it denotes, and every operation is the exact
rational operation followed by one rounding to the nearest representable
number, ties going to the even significand.

Two things of the usual format are left out because nothing in the machine can
tell them apart: the sign of zero, which packing a number into a handle absorbs,
and the payload of a not-a-number.
-/

namespace MessageMachine

/-- A number of the 64-bit binary format, seen through the value it denotes. -/
inductive Binary64
  | nan
  | infinity (negative : Bool)
  | finite (value : Rat)
  deriving DecidableEq

namespace Binary64

instance : Inhabited Binary64 := ⟨finite 0⟩

/-! ## Rounding -/

/-- The largest `e` with `2 ^ e ≤ x`, for a positive `x`. The bit lengths of
numerator and denominator place it within one of the answer. -/
def floorLog2 (x : Rat) : Int :=
  let guess : Int := (x.num.natAbs.log2 : Int) - (x.den.log2 : Int)
  if x < (2 : Rat) ^ guess then guess - 1 else guess

/-- The integer nearest to `x`; a tie goes to the even neighbour. -/
def roundHalfEven (x : Rat) : Int :=
  let low := x.floor
  let rest := x - low
  if rest < 1 / 2 then low
  else if 1 / 2 < rest then low + 1
  else if low % 2 = 0 then low
  else low + 1

/-- The exponent of the last significand bit of numbers the size of `x`: 53
bits below the leading one, but never below the subnormal step `2 ^ -1074`. -/
def unitExponent (x : Rat) : Int :=
  max (-1074) (floorLog2 x.abs - 52)

/-- The 53rd power of two. Integers up to this size fit the significand. -/
@[noinline] def largestExact : Nat := 9007199254740992

/-- Whether a number is an integer that fits the significand, and so needs no
rounding. -/
def isExact (x : Rat) : Bool :=
  x.den == 1 && decide (x.num.natAbs ≤ largestExact)

/-- The closest multiple of the unit in the last place, the exponent range
being unbounded above. -/
def nearest (x : Rat) : Rat :=
  if isExact x then x
  else
    let unit := (2 : Rat) ^ unitExponent x
    (roundHalfEven (x / unit) : Rat) * unit

/-- The representable number nearest to an exact result. -/
def round (x : Rat) : Binary64 :=
  if isExact x then finite x
  else
    let y := nearest x
    if y.abs < (2 : Rat) ^ (1024 : Nat) then finite y else infinity (decide (y < 0))

/-- The number nearest to an integer. -/
def ofInt (n : Int) : Binary64 :=
  round n

/-! ## Exact results

Nearly all numbers are whole, and those need no common denominator. -/

theorem eq_num_of_den_eq_one {x : Rat} (h : x.den = 1) : x = (x.num : Rat) :=
  Rat.ext rfl h

/-- The exact sum. -/
def exactSum (x y : Rat) : Rat :=
  if x.den = 1 ∧ y.den = 1 then ((x.num + y.num : Int) : Rat) else x + y

@[simp] theorem exactSum_eq (x y : Rat) : exactSum x y = x + y := by
  unfold exactSum
  split
  next h =>
    rw [Rat.intCast_add, ← eq_num_of_den_eq_one h.1, ← eq_num_of_den_eq_one h.2]
  next => rfl

/-- The exact product. -/
def exactProduct (x y : Rat) : Rat :=
  if x.den = 1 ∧ y.den = 1 then ((x.num * y.num : Int) : Rat) else x * y

@[simp] theorem exactProduct_eq (x y : Rat) : exactProduct x y = x * y := by
  unfold exactProduct
  split
  next h =>
    rw [Rat.intCast_mul, ← eq_num_of_den_eq_one h.1, ← eq_num_of_den_eq_one h.2]
  next => rfl

/-! ## Arithmetic -/

def neg : Binary64 → Binary64
  | nan => nan
  | infinity negative => infinity (!negative)
  | finite x => finite (-x)

def add : Binary64 → Binary64 → Binary64
  | nan, _ => nan
  | _, nan => nan
  | infinity s, infinity t => if s = t then infinity s else nan
  | infinity s, finite _ => infinity s
  | finite _, infinity t => infinity t
  | finite x, finite y => round (exactSum x y)

def sub (a b : Binary64) : Binary64 :=
  add a (neg b)

def mul : Binary64 → Binary64 → Binary64
  | nan, _ => nan
  | _, nan => nan
  | infinity s, infinity t => infinity (s ^^ t)
  | infinity s, finite y => if y = 0 then nan else infinity (s ^^ decide (y < 0))
  | finite x, infinity t => if x = 0 then nan else infinity (decide (x < 0) ^^ t)
  | finite x, finite y => round (exactProduct x y)

/-- Quotient. There being one zero, dividing by it keeps the dividend's sign. -/
def div : Binary64 → Binary64 → Binary64
  | nan, _ => nan
  | _, nan => nan
  | infinity _, infinity _ => nan
  | infinity s, finite y => infinity (s ^^ decide (y < 0))
  | finite _, infinity _ => finite 0
  | finite x, finite y =>
    if y = 0 then (if x = 0 then nan else infinity (decide (x < 0))) else round (x / y)

/-- The integer part of a rational, toward zero. -/
def truncate (x : Rat) : Int :=
  if x < 0 then -(-x).floor else x.floor

/-- The integral part, toward zero. -/
def trunc : Binary64 → Binary64
  | finite x => finite (truncate x)
  | other => other

/-- The remainder that has the sign of the dividend. It is representable
whenever its operands are, so it needs no rounding. -/
def rem : Binary64 → Binary64 → Binary64
  | finite x, finite y => if y = 0 then nan else finite (x - y * truncate (x / y))
  | finite x, infinity _ => finite x
  | _, _ => nan

/-- The remainder that has the sign of the divisor, computed by shifting the
other remainder up by one divisor: each of the three operations rounds. -/
def floorRem (a m : Binary64) : Binary64 :=
  rem (add (rem a m) m) m

/-! ## Integers among the numbers -/

/-- The integer that a number is, if it is one. -/
def toInt? : Binary64 → Option Int
  | finite x => if x.den = 1 then some x.num else none
  | _ => none

/-- The largest safe integer, one less than the 53rd power of two: no other
integer rounds to it or to any integer of smaller size. -/
def maxSafeInteger : Int := 9007199254740991

/-- The integer that a number is, provided its size leaves no doubt about it. -/
def toSafeInteger? (a : Binary64) : Option Int :=
  match a.toInt? with
  | some n => if n.natAbs ≤ maxSafeInteger.natAbs then some n else none
  | none => none

end Binary64

end MessageMachine
