/-
# How exact signed operands are

A signed operand is read by adding up all its groups as if they were unsigned and then
taking the next power of 128 away when the last of them has its sign bit set. Sums are
rounded, so what is taken away comes too late: the sum of a negative operand of eight
groups has up to 56 digits, three more than fit.

`SpellsSigned` is what groups stand for in exact arithmetic, padding included. Whatever is
read from groups without the sign bit is what they stand for: a sum that is safe was never
rounded. With the sign bit it is a multiple of `2 ^ (7 * k - 53)`, k being the number of
groups, and less than one such step from the exact number; `Near` carries that along the
groups. So up to seven groups are read exactly, and of longer ones just those on the grid.

Written operands have eight groups below `-2 ^ 48`. What is read there is the nearest
multiple of eight, `readBack`, and nothing at all where that is no safe integer.
-/

import MessageMachine.Proofs.Binary64.Grid
import MessageMachine.Proofs.Leb128

namespace MessageMachine.Leb128

open Binary64

/-! ## What groups stand for -/

/-- Groups of seven bits, all but the last marked as followed by another, and the integer
that they stand for: bit 6 of the last one counts negative. -/
inductive SpellsSigned : List UInt8 → Int → Prop
  | last {byte : UInt8} : byte.toNat < 128 →
      SpellsSigned [byte] (if byte.toNat < 64 then byte.toNat else byte.toNat - 128)
  | more {byte : UInt8} {rest : List UInt8} {v : Int} : 128 ≤ byte.toNat →
      SpellsSigned rest v → SpellsSigned (byte :: rest) (byte.toNat % 128 + 128 * v)

variable {bytes : List UInt8} {v : Int} {n k : Nat}

/-- The sign bit of the last group is set. -/
def Negative (bytes : List UInt8) : Prop :=
  ∃ last, bytes.getLast? = some last ∧ 64 ≤ last.toNat % 128

/-- Groups stand for an integer and for a natural number. The sign bit tells which of
the two is meant, and how far apart they are. -/
theorem SpellsSigned.spells (spells : SpellsSigned bytes v) :
    0 ≤ v ∧ Positive bytes ∧ Spells bytes v.toNat ∨
      v < 0 ∧ Negative bytes ∧ Spells bytes (v + 128 ^ bytes.length).toNat ∧
        0 ≤ v + 128 ^ bytes.length := by
  induction spells with
  | @last byte low =>
    split_ifs with clear
    · exact .inl ⟨by omega, ⟨byte, rfl, by omega⟩, .last low⟩
    · have same : ((byte.toNat : Int) - 128 + 128 ^ [byte].length).toNat = byte.toNat := by
        rw [List.length_singleton, pow_one]
        omega
      refine .inr ⟨by omega, ⟨byte, rfl, by omega⟩, ?_, ?_⟩
      · rw [same]
        exact .last low
      · rw [List.length_singleton, pow_one]
        omega
  | @more byte rest v marked spells ih =>
    have ends (other : List UInt8) (some_ : other ≠ []) :
        (byte :: other).getLast? = other.getLast? := by
      obtain ⟨next, others, rfl⟩ := List.exists_cons_of_ne_nil some_
      exact List.getLast?_cons_cons
    rcases ih with ⟨natural, ⟨last, found, clear⟩, unsigned⟩ | ⟨negative, ⟨last, found, set⟩, unsigned, least⟩
    · have same : (byte.toNat % 128 + 128 * v : Int).toNat = byte.toNat % 128 + 128 * v.toNat := by
        omega
      refine .inl ⟨by omega, ⟨last, (ends rest unsigned.ne_nil).trans found, clear⟩, ?_⟩
      rw [same]
      exact .more marked unsigned
    · rw [List.length_cons, pow_succ]
      generalize (128 : Int) ^ rest.length = scale at unsigned least
      have same : (byte.toNat % 128 + 128 * v + scale * 128 : Int).toNat =
          byte.toNat % 128 + 128 * (v + scale).toNat := by omega
      refine .inr ⟨by omega, ⟨last, (ends rest unsigned.ne_nil).trans found, set⟩, ?_, by omega⟩
      rw [same]
      exact .more marked unsigned

/-- The bytes of an operand stand for an integer, and more bytes may follow. -/
theorem spellsSigned_of_groups {bytes rest : List UInt8} (found : groups bytes = some rest) :
    (∃ v, SpellsSigned rest v) ∧ ∃ after, bytes = rest ++ after := by
  induction bytes generalizing rest with
  | nil => cases found
  | cons byte bytes ih =>
    rw [groups] at found
    split_ifs at found with low
    · cases found
      have low' : byte.toNat < 128 := UInt8.lt_iff_toNat_lt.1 low
      exact ⟨⟨_, .last low'⟩, bytes, rfl⟩
    · obtain ⟨others, found', rfl⟩ := Option.map_eq_some_iff.1 found
      have marked : 128 ≤ byte.toNat := Nat.le_of_not_lt fun less => low (UInt8.lt_iff_toNat_lt.2 less)
      obtain ⟨⟨v, spells⟩, after, rfl⟩ := ih found'
      exact ⟨⟨_, .more marked spells⟩, after, rfl⟩

/-! ## Scales -/

/-- The scale of a group, as far as there are numbers for it. -/
def power (k : Nat) : Binary64 :=
  if k < 147 then finite ((128 ^ k : Nat) : Rat) else infinity false

theorem power_of_lt (few : k < 147) : power k = finite ((128 ^ k : Nat) : Rat) :=
  if_pos few

theorem ofInt_base : ofInt 128 = finite ((128 : Nat) : Rat) :=
  ofInt_natCast (n := 128) (by decide)

theorem pow_eq (k : Nat) : 128 ^ k = 2 ^ (7 * k) :=
  (pow_mul 2 7 k).symm

/-- A few units of a scale are not rounded, and a unit of the next is none too many. -/
theorem round_mul_pow {g : Nat} (group : g ≤ 128) (few : k < 146) :
    Binary64.round ((g * 128 ^ k : Nat) : Rat) = finite ((g * 128 ^ k : Nat) : Rat) := by
  have whole : 2 ^ (7 * (k + 1) - 53) ∣ g * 128 ^ k := by
    rw [pow_eq]
    exact (Nat.pow_dvd_pow 2 (by omega)).trans (Nat.dvd_mul_left _ _)
  have small : g * 128 ^ k ≤ 2 ^ (53 + (7 * (k + 1) - 53)) :=
    calc
      g * 128 ^ k ≤ 128 * 128 ^ k := Nat.mul_le_mul_right _ group
      _ = 2 ^ (7 * (k + 1)) := by rw [← pow_eq, pow_succ, Nat.mul_comm]
      _ ≤ _ := Nat.pow_le_pow_right (by decide) (by omega)
  exact round_of_dvd (n := ((g * 128 ^ k : Nat) : Int)) (by exact_mod_cast whole) small (by omega)

theorem power_succ (k : Nat) : (power k).mul (ofInt 128) = power (k + 1) := by
  rw [ofInt_base]
  rcases Nat.lt_trichotomy k 146 with few | rfl | many
  · rw [power_of_lt (by omega), power_of_lt (by omega), mul, exactProduct_eq, ← Rat.natCast_mul,
      Nat.mul_comm, round_mul_pow (le_refl _) few, pow_succ, Nat.mul_comm]
  · decide +kernel
  · rw [power, if_neg (by omega), power, if_neg (by omega)]
    rfl

/-- A group at its scale. -/
theorem group_mul_power {g : Nat} (group : g < 128) (few : k < 146) :
    (ofInt ((g : Nat) : Int)).mul (power k) = finite ((g * 128 ^ k : Nat) : Rat) := by
  have small : g ≤ largestExact := group.le.trans (by decide)
  rw [ofInt_natCast small, power_of_lt (by omega), mul, exactProduct_eq, ← Rat.natCast_mul,
    round_mul_pow group.le few]

/-- The scale after some groups depends on their number only. -/
theorem scale_foldl_power (bytes : List UInt8) (value : Binary64) (k : Nat) :
    (bytes.foldl Sum.add ⟨value, power k⟩).scale = power (k + bytes.length) := by
  induction bytes generalizing value k with
  | nil => rfl
  | cons byte rest ih =>
    rw [List.foldl_cons, Sum.add, power_succ, ih, List.length_cons]
    congr 1
    omega

theorem sum_eq (bytes : List UInt8) :
    sum bytes = bytes.foldl Sum.add ⟨finite ((0 : Nat) : Rat), power 0⟩ := by
  have value : ofInt 0 = finite ((0 : Nat) : Rat) := ofInt_natCast (n := 0) (by decide)
  have scale : ofInt 1 = power 0 := by decide +kernel
  rw [sum, value, scale]

theorem scale_sum (bytes : List UInt8) : (sum bytes).scale = power bytes.length := by
  rw [sum_eq, scale_foldl_power, Nat.zero_add]

/-! ## Without the sign bit -/

theorem foldl_nan (bytes : List UInt8) (scale : Binary64) :
    (bytes.foldl Sum.add ⟨nan, scale⟩).value = nan := by
  induction bytes generalizing scale with
  | nil => rfl
  | cons byte rest ih => exact ih _

/-- A group of zeros adds nothing, but it spoils the sum when its scale is infinite. -/
theorem zero_mul_power (k : Nat) :
    (ofInt ((0 : Nat) : Int)).mul (power k) =
      if k < 147 then finite ((0 : Nat) : Rat) else nan := by
  rw [ofInt_natCast (n := 0) (by decide), power]
  split_ifs with few
  · rw [mul, exactProduct_eq, ← Rat.natCast_mul, Nat.zero_mul,
      Binary64.round_natCast (by decide)]
  · rfl

/-- A scaled group that fits what is left of the safe integers is exact, unless it is one
of zeros that spoils the sum. -/
theorem group_mul_power_of_le {g : Nat} (group : g < 128) (small : g * 128 ^ k ≤ largestExact) :
    (ofInt ((g : Nat) : Int)).mul (power k) =
      if k < 147 then finite ((g * 128 ^ k : Nat) : Rat) else nan := by
  rcases Nat.eq_zero_or_pos g with rfl | positive
  · rw [Nat.zero_mul]
    exact zero_mul_power k
  · have scale : 128 ^ k < 128 ^ 8 :=
      ((Nat.le_mul_of_pos_left _ positive).trans small).trans_lt (by decide)
    have few := (Nat.pow_lt_pow_iff_right (by decide)).1 scale
    rw [if_pos (by omega), group_mul_power group (by omega)]

/-- A group that keeps the sum in the safe range is added exactly, while its scale is a number. -/
theorem add_of_fits {value : Nat} {byte : UInt8}
    (fits : value + byte.toNat % 128 * 128 ^ k ≤ largestExact) :
    Sum.add ⟨finite value, power k⟩ byte =
      ⟨if k < 147 then finite ((value + byte.toNat % 128 * 128 ^ k : Nat) : Rat) else nan,
        power (k + 1)⟩ := by
  have group : byte.toNat % 128 < 128 := Nat.mod_lt _ (by decide)
  rw [Sum.add, power_succ]
  simp only
  rw [group_mul_power_of_le group ((Nat.le_add_left _ value).trans fits)]
  split_ifs with few
  · rw [add, exactSum_eq, ← Rat.natCast_add, Binary64.round_natCast fits]
  · rfl

/-- A sum of safe size is not rounded on the way. It is lost only where there are more groups than
scales. -/
theorem Spells.value_foldl (spells : Spells bytes n) (value : Nat) (k : Nat)
    (small : value + 128 ^ k * n ≤ largestExact) :
    (bytes.foldl Sum.add ⟨finite value, power k⟩).value =
      if k + bytes.length ≤ 147 then finite ((value + 128 ^ k * n : Nat) : Rat) else nan := by
  induction spells generalizing value k with
  | @last byte low =>
    have group : byte.toNat % 128 = byte.toNat := Nat.mod_eq_of_lt low
    rw [Nat.mul_comm] at small ⊢
    rw [List.foldl_cons, List.foldl_nil, add_of_fits (by rwa [group]), group]
    exact if_congr Iff.rfl rfl rfl
  | @more byte rest n marked spells ih =>
    have expand : 128 ^ k * (byte.toNat % 128 + 128 * n) =
        byte.toNat % 128 * 128 ^ k + 128 ^ (k + 1) * n := by
      ring
    have length : k + (byte :: rest).length = k + 1 + rest.length := by
      rw [List.length_cons]
      omega
    rw [expand, ← Nat.add_assoc] at small ⊢
    rw [length, List.foldl_cons, add_of_fits ((Nat.le_add_right _ _).trans small)]
    by_cases few : k < 147
    · rw [if_pos few]
      exact ih _ _ small
    · rw [if_neg few, if_neg (by omega)]
      exact foldl_nan rest _

theorem eq_of_toSafeInteger?_finite {m read : Int}
    (safe : (finite (m : Rat)).toSafeInteger? = some read) : read = m := by
  obtain ⟨same, small⟩ := toSafeInteger?_eq_some_iff.1 safe
  rw [ofInt_eq_finite (small.trans (by decide))] at same
  injection same with same
  exact (Rat.intCast_inj.1 same).symm

/-- A natural number that is read from groups is what they stand for. -/
theorem Spells.eq_of_toSafeInteger? (spells : Spells bytes n) {read : Int}
    (safe : (sum bytes).value.toSafeInteger? = some read) : read = n := by
  have whole : Whole (min (0 + 1 * n) largestExact) (sum bytes).value :=
    spells.whole_foldl ⟨0, rfl, le_refl _⟩ ⟨1, rfl, le_refl _⟩
  obtain ⟨least, most⟩ := whole.toSafeInteger? safe
  have limit : maxSafeInteger < largestExact := by decide
  have small : 0 + 128 ^ 0 * n ≤ largestExact := by omega
  rw [sum_eq] at safe
  rw [spells.value_foldl 0 0 small, pow_zero, Nat.one_mul, Nat.zero_add, Nat.zero_add] at safe
  split_ifs at safe
  · exact eq_of_toSafeInteger?_finite (m := n) safe
  · cases safe

/-! ## With the sign bit -/

/-- A sum that is close to the exact one: less than a step of the grid away, on which
numbers of its size are. -/
structure Near (k exact_ : Nat) (value : Nat) : Prop where
  le : value ≤ 128 ^ k
  close : |(value : Int) - exact_| < 2 ^ (7 * k - 53)

/-- One more group keeps a sum close, and brings it to the grid if its top bit is set. -/
theorem Near.add {exact_ value g : Nat} (near : Near k exact_ value) (group : g < 128)
    (few : k < 146) :
    ∃ value' : Nat,
      (finite value).add ((ofInt (g : Int)).mul (power k)) = finite value' ∧
        Near (k + 1) (exact_ + 128 ^ k * g) value' ∧
        (64 ≤ g → 2 ^ (7 * (k + 1) - 53) ∣ value') := by
  obtain ⟨le, close⟩ := near
  have scaled : g * 128 ^ k ≤ 127 * 128 ^ k := Nat.mul_le_mul_right _ (by omega)
  have total : value + g * 128 ^ k ≤ 128 ^ (k + 1) := by
    rw [pow_succ]
    omega
  rw [group_mul_power group few, Binary64.add, exactSum_eq, ← Rat.natCast_add]
  have apart : ((value + g * 128 ^ k : Nat) : Int) - (exact_ + 128 ^ k * g : Nat) =
      value - exact_ := by
    push_cast
    ring
  rcases Nat.lt_or_ge k 7 with low | high
  · have none_ : 7 * (k + 1) - 53 = 0 := by omega
    have small : value + g * 128 ^ k ≤ largestExact :=
      total.trans ((Nat.pow_le_pow_right (by decide) (by omega : k + 1 ≤ 7)).trans (by decide))
    refine ⟨value + g * 128 ^ k, Binary64.round_natCast small, ⟨total, ?_⟩, fun _ => ?_⟩
    · rw [apart, none_]
      rwa [show 7 * k - 53 = 0 by omega] at close
    · rw [none_]
      exact one_dvd _
  · obtain ⟨j, digits⟩ : ∃ j, 7 * (k + 1) = 53 + j := ⟨7 * (k + 1) - 53, by omega⟩
    have scale : 128 ^ (k + 1) = 2 ^ (53 + j) := by rw [pow_eq, digits]
    rw [digits, Nat.add_sub_cancel_left]
    rw [scale] at total
    obtain ⟨r, rounded, most, near, grid⟩ := exists_round total (by omega)
    refine ⟨r, rounded, ⟨scale ▸ most, ?_⟩, fun top => grid ?_⟩
    · rw [digits, Nat.add_sub_cancel_left]
      have finer : (2 : Int) * 2 ^ (7 * k - 53) ≤ 2 ^ j := by
        rw [← pow_succ']
        exact pow_le_pow_right₀ (by decide) (by omega)
      have moved := abs_sub_le (r : Int) ((value + g * 128 ^ k : Nat) : Int)
        (exact_ + 128 ^ k * g : Nat)
      rw [apart] at moved
      linarith
    · have half : 64 * 128 ^ k ≤ g * 128 ^ k := Nat.mul_le_mul_right _ top
      rw [pow_succ, show 53 + j = 52 + j + 1 by omega, pow_succ] at scale
      omega

/-- The sum of an operand with its sign bit set is close to the exact one, and on the grid. -/
theorem Spells.near_foldl (spells : Spells bytes n) (negative : Negative bytes)
    {exact_ value : Nat} (near : Near k exact_ value) (few : k + bytes.length < 147) :
    ∃ value' : Nat,
      (bytes.foldl Sum.add ⟨finite value, power k⟩).value = finite value' ∧
        Near (k + bytes.length) (exact_ + 128 ^ k * n) value' ∧
        2 ^ (7 * (k + bytes.length) - 53) ∣ value' := by
  induction spells generalizing k exact_ value with
  | @last byte low =>
    have group : byte.toNat % 128 = byte.toNat := Nat.mod_eq_of_lt low
    have set : 64 ≤ byte.toNat := by
      obtain ⟨last, found, set⟩ := negative
      rw [List.getLast?_singleton, Option.some.injEq] at found
      rwa [← found, group] at set
    rw [List.length_singleton] at few ⊢
    obtain ⟨value', sum, near', grid⟩ := near.add low (by omega)
    refine ⟨value', ?_, near', grid set⟩
    rw [List.foldl_cons, List.foldl_nil, Sum.add, group]
    exact sum
  | @more byte rest n marked spells ih =>
    have after : Negative rest := by
      obtain ⟨last, found, set⟩ := negative
      obtain ⟨next, others, rfl⟩ := List.exists_cons_of_ne_nil spells.ne_nil
      rw [List.getLast?_cons_cons] at found
      exact ⟨last, found, set⟩
    have length : k + (byte :: rest).length = k + 1 + rest.length := by
      rw [List.length_cons]
      omega
    have expand : exact_ + 128 ^ k * (byte.toNat % 128 + 128 * n) =
        exact_ + 128 ^ k * (byte.toNat % 128) + 128 ^ (k + 1) * n := by
      ring
    rw [length] at few
    obtain ⟨value', sum, near', -⟩ :=
      near.add (Nat.mod_lt byte.toNat (by decide : 0 < 128)) (by omega)
    rw [length, expand, List.foldl_cons, Sum.add, power_succ, sum]
    exact ih after near' few

/-- Nothing is left when an infinite scale is taken away. -/
theorem toSafeInteger?_sub_infinity (a : Binary64) :
    (a.sub (infinity false)).toSafeInteger? = none := by
  cases a with
  | infinity negative => cases negative <;> rfl
  | _ => rfl

/-- What is read from groups with the sign bit set is a number on the grid, less than a
step from the one that they stand for. -/
theorem Spells.near_sub (spells : Spells bytes n) (negative : Negative bytes) {read : Int}
    (safe : ((sum bytes).value.sub (sum bytes).scale).toSafeInteger? = some read) :
    (2 : Int) ^ (7 * bytes.length - 53) ∣ read ∧
      |read - ((n : Int) - 128 ^ bytes.length)| < 2 ^ (7 * bytes.length - 53) := by
  rw [scale_sum] at safe
  rcases Nat.lt_or_ge bytes.length 147 with few | many
  · have start : Near 0 0 0 := ⟨by decide, by decide⟩
    obtain ⟨r, sum, ⟨le, close⟩, grid⟩ :=
      spells.near_foldl negative start (by rwa [Nat.zero_add])
    rw [Nat.zero_add] at le close grid
    rw [pow_zero, Nat.one_mul, Nat.zero_add] at close
    rw [sum_eq, sum, power_of_lt few] at safe
    have whole : (2 : Int) ^ (7 * bytes.length - 53) ∣ (r : Int) - (128 ^ bytes.length : Nat) := by
      refine Int.dvd_sub (by exact_mod_cast grid) ?_
      rw [pow_eq]
      exact_mod_cast Nat.pow_dvd_pow 2 (Nat.sub_le _ _)
    have small : ((r : Int) - (128 ^ bytes.length : Nat)).natAbs ≤
        2 ^ (53 + (7 * bytes.length - 53)) := by
      have range : 128 ^ bytes.length ≤ 2 ^ (53 + (7 * bytes.length - 53)) := by
        rw [pow_eq]
        exact Nat.pow_le_pow_right (by decide) (by omega)
      omega
    have difference : (finite (r : Rat)).sub (finite ((128 ^ bytes.length : Nat) : Rat)) =
        finite (((r : Int) - (128 ^ bytes.length : Nat) : Int) : Rat) := by
      rw [← round_of_dvd whole small (by omega), sub, neg, Binary64.add, exactSum_eq,
        Rat.intCast_sub, sub_eq_add_neg]
      rfl
    rw [difference] at safe
    have same := eq_of_toSafeInteger?_finite safe
    push_cast at same
    rw [same]
    refine ⟨by exact_mod_cast whole, ?_⟩
    rwa [sub_sub_sub_cancel_right]
  · rw [power, if_neg (Nat.not_lt.2 many), toSafeInteger?_sub_infinity] at safe
    cases safe

/-! ## What is read -/

theorem signedValue_of_positive (positive : Positive bytes) :
    signedValue bytes = (sum bytes).value := by
  obtain ⟨last, found, clear⟩ := positive
  rw [signedValue, found]
  exact if_pos clear

theorem signedValue_of_negative (negative : Negative bytes) :
    signedValue bytes = (sum bytes).value.sub (sum bytes).scale := by
  obtain ⟨last, found, set⟩ := negative
  rw [signedValue, found]
  exact if_neg (Nat.not_lt.2 set)

/-- What is read from groups is less than a step of the grid from what they stand for. It is
exact without the sign bit, and a multiple of the step with it. -/
theorem SpellsSigned.near (spells : SpellsSigned bytes v) {read : Int}
    (safe : (signedValue bytes).toSafeInteger? = some read) :
    |read - v| < 2 ^ (7 * bytes.length - 53) ∧
      (0 ≤ v ∧ read = v ∨ v < 0 ∧ (2 : Int) ^ (7 * bytes.length - 53) ∣ read) := by
  rcases spells.spells with ⟨natural, positive, unsigned⟩ | ⟨below, negative, unsigned, least⟩
  · rw [signedValue_of_positive positive] at safe
    have same : read = v := (unsigned.eq_of_toSafeInteger? safe).trans (Int.toNat_of_nonneg natural)
    refine ⟨?_, .inl ⟨natural, same⟩⟩
    rw [same, sub_self, abs_zero]
    positivity
  · rw [signedValue_of_negative negative] at safe
    obtain ⟨grid, close⟩ := unsigned.near_sub negative safe
    rw [Int.toNat_of_nonneg least, add_sub_cancel_right] at close
    exact ⟨close, .inr ⟨below, grid⟩⟩

/-- Exactly the integers on the grid are read as what they are, if they are negative. -/
theorem SpellsSigned.eq_iff (spells : SpellsSigned bytes v) {read : Int}
    (safe : (signedValue bytes).toSafeInteger? = some read) :
    read = v ↔ 0 ≤ v ∨ (2 : Int) ^ (7 * bytes.length - 53) ∣ v := by
  obtain ⟨close, ⟨natural, same⟩ | ⟨negative, grid⟩⟩ := spells.near safe
  · exact ⟨fun _ => .inl natural, fun _ => same⟩
  · constructor
    · rintro rfl
      exact .inr grid
    · rintro (natural | whole)
      · exact absurd natural (Int.not_le.2 negative)
      · exact sub_eq_zero.1 (Int.eq_zero_of_abs_lt_dvd (Int.dvd_sub grid whole) close)

/-! ## What is written -/

/-- Integers are written in groups that stand for them. -/
theorem spellsSigned_encodeInt (v : Int) : SpellsSigned (encodeInt v) v := by
  generalize size : v.natAbs = m
  induction m using Nat.strongRecOn generalizing v with
  | ind m ih =>
    have low : (v % 128).toNat < 128 := by omega
    rw [encodeInt]
    split
    next ends =>
      have byte : (v % 128).toNat.toUInt8.toNat = (v % 128).toNat := toNat_toUInt8 (by omega)
      have spelling := SpellsSigned.last (by omega : (v % 128).toNat.toUInt8.toNat < 128)
      have same : (if (v % 128).toNat < 64 then ((v % 128).toNat : Int)
          else (v % 128).toNat - 128) = v := by
        split_ifs <;> omega
      rwa [byte, same] at spelling
    next goes =>
      have byte : ((v % 128).toNat + 128).toUInt8.toNat = (v % 128).toNat + 128 :=
        toNat_toUInt8 (by omega)
      have spelling := SpellsSigned.more (by omega : 128 ≤ ((v % 128).toNat + 128).toUInt8.toNat)
        (ih (v / 128).natAbs (by omega) (v / 128) rfl)
      have same : ((((v % 128).toNat + 128 : Nat) : Int) % 128 + 128 * (v / 128)) = v := by omega
      rwa [byte, same] at spelling

/-- The sum of up to eight groups is rounded once, when the last one is added. -/
theorem Spells.round_foldl (spells : Spells bytes n) {value : Nat} (below : value < 128 ^ k)
    (few : k + bytes.length ≤ 8) :
    (bytes.foldl Sum.add ⟨finite value, power k⟩).value =
      Binary64.round ((value + 128 ^ k * n : Nat) : Rat) := by
  induction spells generalizing k value with
  | @last byte low =>
    have group : byte.toNat % 128 = byte.toNat := Nat.mod_eq_of_lt low
    rw [List.length_singleton] at few
    rw [List.foldl_cons, List.foldl_nil, Sum.add, group, group_mul_power low (by omega),
      Binary64.add, exactSum_eq, ← Rat.natCast_add, Nat.mul_comm]
  | @more byte rest n marked spells ih =>
    have group : byte.toNat % 128 < 128 := Nat.mod_lt _ (by decide)
    have others : 0 < rest.length := List.length_pos_of_ne_nil spells.ne_nil
    rw [List.length_cons] at few
    have next : value + byte.toNat % 128 * 128 ^ k < 128 ^ (k + 1) := by
      have scaled : byte.toNat % 128 * 128 ^ k ≤ 127 * 128 ^ k := Nat.mul_le_mul_right _ (by omega)
      rw [pow_succ]
      omega
    have small : value + byte.toNat % 128 * 128 ^ k ≤ largestExact :=
      next.le.trans ((Nat.pow_le_pow_right (by decide) (by omega : k + 1 ≤ 7)).trans (by decide))
    have expand : value + 128 ^ k * (byte.toNat % 128 + 128 * n) =
        value + byte.toNat % 128 * 128 ^ k + 128 ^ (k + 1) * n := by
      ring
    rw [List.foldl_cons, Sum.add, power_succ, group_mul_power group (by omega), Binary64.add,
      exactSum_eq, ← Rat.natCast_add, Binary64.round_natCast small, ih next (by omega), expand]

/-- The integer that is read where one was written. -/
def readBack (v : Int) : Int :=
  if v < -2 ^ 48 then 8 * roundHalfEven (v / 8) else v

/-- What was written is read again up to the size of seven groups, and beyond on the grid
of eight. -/
theorem readBack_eq_iff (v : Int) : readBack v = v ↔ -2 ^ 48 ≤ v ∨ 8 ∣ v := by
  rw [readBack]
  split_ifs with below
  · constructor
    · intro same
      exact .inr ⟨_, same.symm⟩
    · rintro (above | ⟨q, rfl⟩)
      · exact absurd below (Int.not_lt.2 above)
      · have quotient : ((8 * q : Int) : Rat) / 8 = q := by
          push_cast
          exact mul_div_cancel_left₀ _ (by decide)
        rw [quotient, roundHalfEven_intCast]
  · exact ⟨fun _ => .inl (Int.not_lt.1 below), fun _ => rfl⟩

theorem eighth_bounds {v : Int} (below : v < -2 ^ 48) (safe : v.natAbs ≤ maxSafeInteger.natAbs) :
    -2 ^ 50 ≤ roundHalfEven ((v : Rat) / 8) ∧ roundHalfEven ((v : Rat) / 8) ≤ 0 := by
  have limit : (maxSafeInteger.natAbs : Int) = 9007199254740991 := rfl
  constructor
  · apply le_roundHalfEven
    rw [le_div_iff₀ (by decide)]
    exact_mod_cast (by omega : (-2 ^ 50 * 8 : Int) ≤ v)
  · apply roundHalfEven_le
    rw [div_le_iff₀ (by decide)]
    exact_mod_cast (by omega : v ≤ 0 * 8)

/-- What is read has the size of a safe integer, or is minus the first power of two beyond. -/
theorem readBack_bounds {v : Int} (safe : v.natAbs ≤ maxSafeInteger.natAbs) :
    -2 ^ 53 ≤ readBack v ∧ readBack v < 2 ^ 53 := by
  have limit : (maxSafeInteger.natAbs : Int) = 9007199254740991 := rfl
  rw [readBack]
  split_ifs with below
  · have bounds := eighth_bounds below safe
    omega
  · omega

/-- An operand of eight groups with its sign bit set loses the last three bits of its sum. -/
theorem signedValue_of_lt {v : Int} (below : v < -2 ^ 48)
    (safe : v.natAbs ≤ maxSafeInteger.natAbs) :
    signedValue (encodeInt v) = finite ((8 * roundHalfEven (v / 8) : Int) : Rat) := by
  have limit : (maxSafeInteger.natAbs : Int) = 9007199254740991 := rfl
  have length : (encodeInt v).length = 8 := by
    have most := (length_encodeInt_le_iff v 7).2 ⟨by omega, by omega⟩
    have more : ¬ (encodeInt v).length ≤ 6 + 1 := fun few =>
      absurd ((length_encodeInt_le_iff v 6).1 few).1 (by omega)
    omega
  rcases (spellsSigned_encodeInt v).spells with
    ⟨natural, -, -⟩ | ⟨-, negative, unsigned, least⟩
  · omega
  rw [length] at unsigned least
  have total : (((v + 128 ^ 8).toNat : Nat) : Int) = v + 2 ^ 53 * 8 := by omega
  generalize (v + 128 ^ 8).toNat = n at unsigned total
  have bounds : 2 ^ 55 ≤ n ∧ n < 2 ^ 56 := by omega
  have size : ((n : Int)).natAbs.log2 = 52 + 3 := (Nat.log2_eq_iff (by omega)).2 bounds
  have large : largestExact < ((n : Int)).natAbs := (by decide : _ < 2 ^ 55).trans_le bounds.1
  have quotient : ((n : Int) : Rat) / 2 ^ 3 = v / 8 + ((2 ^ 53 : Int) : Rat) := by
    rw [total]
    push_cast
    ring
  have sum : (sum (encodeInt v)).value =
      finite (((roundHalfEven (v / 8) + 2 ^ 53) * 2 ^ 3 : Int) : Rat) := by
    have rounded := round_of_large large size (by decide)
    rw [quotient, roundHalfEven_add_even _ (by decide)] at rounded
    rw [sum_eq, unsigned.round_foldl (by decide) (by omega), pow_zero, Nat.one_mul, Nat.zero_add]
    exact rounded
  obtain ⟨low, high⟩ := eighth_bounds below safe
  generalize roundHalfEven ((v : Rat) / 8) = r at sum low high
  have fits : (8 * r).natAbs ≤ largestExact := by
    have size : (largestExact : Int) = 2 ^ 53 := rfl
    omega
  have difference : (((r + 2 ^ 53) * 2 ^ 3 : Int) : Rat) + -((128 ^ 8 : Nat) : Rat) =
      ((8 * r : Int) : Rat) := by
    push_cast
    ring
  rw [signedValue_of_negative negative, scale_sum, length, sum, power_of_lt (by decide), sub, neg,
    Binary64.add, exactSum_eq, difference, round_of_natAbs_le fits]

/-- What is read where a safe integer was written, before it is checked. -/
theorem signedValue_encodeInt_eq {v : Int} (safe : v.natAbs ≤ maxSafeInteger.natAbs) :
    signedValue (encodeInt v) = finite (readBack v) := by
  have small : v.natAbs ≤ largestExact := safe.trans (by decide)
  rw [readBack]
  split_ifs with below
  · exact signedValue_of_lt below safe
  · rcases lt_or_ge v 0 with negative | natural
    · have few : (encodeInt v).length ≤ 7 :=
        (length_encodeInt_le_iff v 6).2 ⟨by omega, by omega⟩
      rw [signedValue_encodeInt few, ofInt_eq_finite small]
    · obtain ⟨n, rfl⟩ := Int.eq_ofNat_of_zero_le natural
      obtain ⟨spells, brief, positive⟩ := spells_encodeInt n
      rw [signedValue_of_positive positive, spells.value_sum brief (Nat.lt_succ_of_le safe)]
      rfl

/-- Where a safe integer was written, `readBack` is what is read if it is safe. -/
theorem decodeSigned_readBack {v : Int} {code : Array UInt8} {offset : Nat} {rest : List UInt8}
    (safe : v.natAbs ≤ maxSafeInteger.natAbs)
    (there : code.toList.drop offset = encodeInt v ++ rest) :
    decodeSigned code offset =
      if readBack v = -2 ^ 53 then .error (.at .oversizedOperand offset)
      else .ok ⟨readBack v, (encodeInt v).length⟩ := by
  obtain ⟨n, spells⟩ := exists_spells_encodeInt v
  rw [decodeSigned, Leb128.read, groupsAt_ofNat, there, spells.groups_append]
  obtain ⟨least, most⟩ := readBack_bounds safe
  have limit : (maxSafeInteger.natAbs : Int) = 9007199254740991 := rfl
  have fits : (readBack v).natAbs ≤ largestExact := by
    have size : (largestExact : Int) = 2 ^ 53 := rfl
    omega
  simp only [signedValue_encodeInt_eq safe, toSafeInteger?, ← ofInt_eq_finite fits, toInt?_ofInt fits]
  by_cases lost : readBack v = -2 ^ 53
  · rw [if_pos lost, if_neg (by omega)]
  · rw [if_neg lost, if_pos (by omega)]

/-- An operand is made of groups that stand for an integer, and what is read is
that integer if it is natural or on the grid, and otherwise less than a step of the grid away.
Where a safe integer was written, `readBack` is what is read, if that is safe. -/
theorem decodeSigned_near (code : Array UInt8) (offset : Nat) :
    (∀ operand, decodeSigned code offset = .ok operand →
      ∃ bytes rest v, code.toList.drop offset = bytes ++ rest ∧ operand.size = bytes.length ∧
        SpellsSigned bytes v ∧ |operand.value - v| < 2 ^ (7 * bytes.length - 53) ∧
        (operand.value = v ↔ 0 ≤ v ∨ (2 : Int) ^ (7 * bytes.length - 53) ∣ v)) ∧
      ∀ v : Int, v.natAbs ≤ maxSafeInteger.natAbs →
        ∃ bytes, encodeSigned (ofInt v) = .ok bytes ∧ SpellsSigned bytes v ∧
          (∀ before after : List UInt8,
            decodeSigned (before ++ bytes ++ after).toArray before.length =
              if readBack v = -2 ^ 53 then .error (.at .oversizedOperand before.length)
              else .ok ⟨readBack v, bytes.length⟩) ∧
          (readBack v = v ↔ -2 ^ 48 ≤ v ∨ 8 ∣ v) := by
  constructor
  · intro operand read
    rw [decodeSigned, Leb128.read, groupsAt_ofNat] at read
    cases found : groups (code.toList.drop offset) with
    | none =>
      rw [found] at read
      cases read
    | some bytes =>
      obtain ⟨⟨v, spells⟩, rest, there⟩ := spellsSigned_of_groups found
      rw [found] at read
      simp only at read
      split at read
      · cases read
      next value safe =>
        cases read
        exact ⟨bytes, rest, v, there, rfl, spells, (spells.near safe).1, spells.eq_iff safe⟩
  · intro v safe
    have encoded : encodeSigned (ofInt v) = .ok (encodeInt v) := by
      rw [encodeSigned, signed, toSafeInteger?_eq_some_iff.2 ⟨rfl, safe⟩]
      rfl
    refine ⟨encodeInt v, encoded, spellsSigned_encodeInt v, fun before after => ?_, readBack_eq_iff v⟩
    have there : (before ++ encodeInt v ++ after).toArray.toList.drop before.length =
        encodeInt v ++ after := by
      rw [List.toList_toArray, List.append_assoc, List.drop_left]
    exact decodeSigned_readBack safe there

/-- An operand of eight groups that is read as another number than was written, and padding
that turns minus one into zero. -/
theorem decodeSigned_encodeSigned_rounded :
    encodeSigned (ofInt (-281474976710657)) = .ok [255, 255, 255, 255, 255, 255, 191, 127] ∧
      decodeSigned #[255, 255, 255, 255, 255, 255, 191, 127] 0 = .ok ⟨-281474976710656, 8⟩ ∧
      SpellsSigned [255, 255, 255, 255, 255, 255, 255, 127] (-1) ∧
      decodeSigned #[255, 255, 255, 255, 255, 255, 255, 127] 0 = .ok ⟨0, 8⟩ := by
  refine ⟨by decide +kernel, by decide +kernel, ?_, by decide +kernel⟩
  have marked : 128 ≤ (255 : UInt8).toNat := by decide
  have ends : SpellsSigned [127] (-1) := @SpellsSigned.last 127 (by decide)
  exact .more marked (.more marked (.more marked (.more marked (.more marked (.more marked
    (.more marked ends))))))

end MessageMachine.Leb128
