/-
# Decimal text of binary64 numbers

A finite number is written with the fewest decimal digits that read back as
that number; among those of equal length, with the digits nearest to it. The
search is by definition: for one digit, two digits and so on, the two
neighbours of the number on that decimal grid are read back through
`Binary64.nearest`, and the first grid with a hit wins.

How the digits are laid out, with a point or with an exponent, is a matter of
convention and sits in one record, `DecimalLayout`.
-/

import MessageMachine.Binary64

namespace MessageMachine

/-- The number `digits * 10 ^ exponent`. -/
structure Decimal where
  digits : Nat
  exponent : Int
  deriving DecidableEq, Inhabited

namespace Decimal

def value (d : Decimal) : Rat :=
  (d.digits : Rat) * (10 : Rat) ^ d.exponent

/-! ## Shortest digits -/

/-- The largest `e` with `10 ^ e ≤ x`, for a positive `x`. -/
def floorLog10 (x : Rat) : Int :=
  let length (n : Nat) : Int := (Nat.toDigits 10 n).length
  let guess := length x.num.natAbs - length x.den
  if x < (10 : Rat) ^ guess then guess - 1 else guess

/-- The decimal on the grid of step `10 ^ exponent` that reads back as `x`. Of
two such neighbours the nearer is taken, and the even one if both are as near. -/
def onGrid? (x : Rat) (exponent : Int) : Option Decimal :=
  let scaled := x / (10 : Rat) ^ exponent
  let middle := Binary64.roundHalfEven scaled
  let low := scaled.floor
  [middle, low, low + 1].findSome? fun n =>
    let candidate : Decimal := ⟨n.toNat, exponent⟩
    if Binary64.nearest candidate.value = x then some candidate else none

/-- The fewest digits that read back as the positive number `x`. Seventeen
always suffice, so the last alternative only makes the function total. -/
def shortest (x : Rat) : Decimal :=
  let top := floorLog10 x
  let lengths := List.range' 1 17
  match lengths.findSome? fun (k : Nat) => onGrid? x (top + 1 - (k : Int)) with
  | some found => found
  | none => ⟨(Binary64.roundHalfEven (x / (10 : Rat) ^ (top - 16))).toNat, top - 16⟩

/-- The digits without the zeros at their end. -/
def significant (d : Decimal) : List Char :=
  ((Nat.toDigits 10 d.digits).reverse.dropWhile (· = '0')).reverse

/-- The place of the decimal point, counted from the first digit. -/
def pointPlace (d : Decimal) : Int :=
  (Nat.toDigits 10 d.digits).length + d.exponent

end Decimal

/-! ## Layout -/

/-- Where positional notation ends: the point may stand at most `maxPlace`
digits after the first digit, and more than `minPlace` digits (a negative
number) before it. -/
structure DecimalLayout where
  minPlace : Int
  maxPlace : Int

namespace DecimalLayout

/-- The convention of the machine's listings and messages: plain digits up to
21 places, five leading zeros in a fraction, an exponent beyond. -/
def standard : DecimalLayout := ⟨-6, 21⟩

def zeros (n : Int) : List Char :=
  List.replicate n.toNat '0'

/-- The exponent form: one digit, the others after a point, a signed exponent. -/
def scientific (digits : List Char) (place : Int) : List Char :=
  let power := place - 1
  let mantissa :=
    match digits with
    | first :: second :: others => first :: '.' :: second :: others
    | short => short
  let sign := if power < 0 then '-' else '+'
  mantissa ++ 'e' :: sign :: Nat.toDigits 10 power.natAbs

/-- The text of `0.digits * 10 ^ place`. -/
def write (layout : DecimalLayout) (digits : List Char) (place : Int) : List Char :=
  if layout.maxPlace < place ∨ place ≤ layout.minPlace then scientific digits place
  else if place ≤ 0 then '0' :: '.' :: zeros (-place) ++ digits
  else if (digits.length : Int) ≤ place then digits ++ zeros (place - digits.length)
  else digits.take place.toNat ++ '.' :: digits.drop place.toNat

end DecimalLayout

namespace Binary64

/-- The text of a number. -/
def toText : Binary64 → String
  | nan => "NaN"
  | infinity negative => if negative then "-Infinity" else "Infinity"
  | finite x =>
    if x = 0 then "0"
    else
      let d := Decimal.shortest x.abs
      let text := DecimalLayout.standard.write d.significant d.pointPlace
      String.ofList (if x < 0 then '-' :: text else text)

end Binary64

end MessageMachine
