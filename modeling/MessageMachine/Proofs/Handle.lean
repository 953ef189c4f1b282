/-
# Which numbers are handles

Every number is read as a value, so the question is which numbers a tag stands for.
`Packed` lists the forms: a payload over a direct tag, a content over an extended one.
A number has the tag of an immediate exactly when it has one of its forms, has the
unknown tag when it has none, and is packed again into itself.

Two of the forms reach further than the constructors of values. An integer handle is
recognised by its direct tag alone, so its payload is any that leaves the handle a safe
integer, sixteen times the range of `Value.ofNumber` on both sides; and a boolean handle
is bounded from above only. `tag_ofHandle_beyond` has one number of each kind.

Handles are taken apart in binary64 arithmetic, and `computedTag` is what that comes to.
On safe integers it is division with remainder, by which `Value.ofHandle` reads them, and
other numbers are read as malformed before: `tag_ofHandle_eq`.
-/

import MessageMachine.Value
import MessageMachine.Proofs.Binary64.Quotient

namespace MessageMachine

namespace Binary64

/-! ## Comparison -/

def less : Binary64 → Binary64 → Bool
  | finite x, finite y => decide (x < y)
  | finite _, infinity negative => !negative
  | infinity negative, finite _ => negative
  | infinity negative, infinity negative' => negative && !negative'
  | nan, _ | _, nan => false

def lessEqual (a b : Binary64) : Bool :=
  less a b || decide (a = b ∧ a ≠ nan)

variable {a b : Int}

theorem less_ofInt (first : a.natAbs ≤ largestExact) (second : b.natAbs ≤ largestExact) :
    less (ofInt a) (ofInt b) = decide (a < b) := by
  simp only [ofInt_eq_finite first, ofInt_eq_finite second, less, Int.cast_lt]

theorem lessEqual_ofInt (first : a.natAbs ≤ largestExact) (second : b.natAbs ≤ largestExact) :
    lessEqual (ofInt a) (ofInt b) = decide (a ≤ b) := by
  have number : ofInt a ≠ nan := by
    rw [ofInt_eq_finite first]
    exact nofun
  rw [lessEqual, less_ofInt first second, Bool.eq_iff_iff]
  simp only [Bool.or_eq_true, decide_eq_true_eq, ofInt_inj first second, and_iff_left number]
  exact Int.le_iff_lt_or_eq.symm

/-- Division without a remainder. -/
theorem div_ofInt {c : Int} (nonzero : c ≠ 0) (whole : a = b * c)
    (first : a.natAbs ≤ largestExact) (second : c.natAbs ≤ largestExact) :
    (ofInt a).div (ofInt c) = ofInt b := by
  have divisor : (c : Rat) ≠ 0 := Int.cast_ne_zero.2 nonzero
  have quotient : (a : Rat) / c = b := by
    rw [whole, Int.cast_mul]
    exact mul_div_cancel_right₀ _ divisor
  rw [ofInt_eq_finite first, ofInt_eq_finite second, div, if_neg divisor, quotient]
  rfl

end Binary64

namespace Value

open Binary64

variable {n : Int}

theorem natAbs_le_of_safe (safe : n.natAbs ≤ maxSafeInteger.natAbs) : n.natAbs ≤ largestExact :=
  Nat.le_trans safe (by decide)

theorem floorRem_of_safe (safe : n.natAbs ≤ maxSafeInteger.natAbs) {m : Nat} (positive : m ≠ 0)
    (small : m ≤ 16) : (ofInt n).floorRem (ofInt m) = ofInt (n % m) := by
  have limit : largestExact = 9007199254740992 := rfl
  rw [floorRem_ofInt (by omega) (natAbs_le_of_safe safe) (by omega),
    Int.fmod_eq_emod_of_nonneg n (Int.natCast_nonneg m)]
  have range := Int.emod_nonneg n (b := m) (by omega)
  have below := Int.emod_lt_of_pos n (b := m) (by omega)
  rw [ofInt_eq_finite (by omega)]

/-- The direct tag of a safe integer is its remainder by eight. -/
theorem directTag_eq (safe : n.natAbs ≤ maxSafeInteger.natAbs) :
    directTag (ofInt n) = ofInt (n % 8) :=
  floorRem_of_safe safe (by decide) (by decide)

/-- The payload of a safe integer is its quotient by eight. -/
theorem directPayload_eq (safe : n.natAbs ≤ maxSafeInteger.natAbs) :
    directPayload (ofInt n) = ofInt (n / 8) := by
  have bound : (maxSafeInteger.natAbs : Int) = 9007199254740991 := rfl
  have limit : largestExact = 9007199254740992 := rfl
  have whole : n - n % 8 = n / 8 * 8 := by omega
  rw [directPayload, directTag_eq safe, sub_ofInt (natAbs_le_of_safe safe) (by omega),
    div_ofInt (by decide) whole (by omega) (by decide)]

/-! ## The arithmetic of tags -/

/-- The code point of a character, as the arithmetic finds it. -/
def computedCode (handle : Binary64) : Binary64 :=
  ((directPayload handle).sub (.ofInt 3)).div (.ofInt 16)

/-- The tag that the arithmetic finds for a number. -/
def computedTag (handle : Binary64) : Tag :=
  if handle.toSafeInteger? = none then .unknown
  else if directTag handle = .ofInt 1 then .integer
  else if directTag handle ≠ .ofInt 2 then .unknown
  else
    let payload := directPayload handle
    let mark := payload.floorRem (.ofInt 16)
    if mark = .ofInt 0 then if payload = .ofInt 0 then .nil else .unknown
    else if mark = .ofInt 1 ∨ mark = .ofInt 2 then
      if payload.less (.ofInt 16) then .boolean else .unknown
    else if mark = .ofInt 3 then
      let code := computedCode handle
      if lessEqual (.ofInt 0) code && lessEqual code (.ofInt maxCodePoint) then .char else .unknown
    else .unknown

theorem computedCode_eq (safe : n.natAbs ≤ maxSafeInteger.natAbs) (mark : n / 8 % 16 = 3) :
    computedCode (ofInt n) = ofInt (n / 8 / 16) := by
  have bound : (maxSafeInteger.natAbs : Int) = 9007199254740991 := rfl
  have limit : largestExact = 9007199254740992 := rfl
  have whole : n / 8 - 3 = n / 8 / 16 * 16 := by omega
  rw [computedCode, directPayload_eq safe, sub_ofInt (by omega) (by decide),
    div_ofInt (by decide) whole (by omega) (by decide)]

/-- Numbers are read with the tag that the arithmetic finds. -/
theorem tag_ofHandle_eq (handle : Binary64) : (ofHandle handle).tag = computedTag handle := by
  unfold ofHandle computedTag
  cases read : handle.toSafeInteger? with
  | none => rfl
  | some n =>
    obtain ⟨rfl, safe⟩ := toSafeInteger?_eq_some_iff.1 read
    have bound : (maxSafeInteger.natAbs : Int) = 9007199254740991 := rfl
    have limit : largestExact = 9007199254740992 := rfl
    have payload : (n / 8).natAbs ≤ maxSafeInteger.natAbs := by omega
    have mark : (ofInt (n / 8)).floorRem (.ofInt 16) = ofInt (n / 8 % 16) :=
      floorRem_of_safe payload (by decide) (by decide)
    have direct (k : Int) (small : k.natAbs ≤ 16) : ofInt (n % 8) = ofInt k ↔ n % 8 = k :=
      ofInt_inj (by omega) (by omega)
    have extended (k : Int) (small : k.natAbs ≤ 16) :
        ofInt (n / 8 % 16) = ofInt k ↔ n / 8 % 16 = k :=
      ofInt_inj (by omega) (by omega)
    have zero : ofInt (n / 8) = ofInt 0 ↔ n / 8 = 0 := ofInt_inj (by omega) (by decide)
    have below : less (ofInt (n / 8)) (ofInt 16) = decide (n / 8 < 16) :=
      less_ofInt (by omega) (by decide)
    simp only [directTag_eq safe, directPayload_eq safe, mark, below, zero, direct 1 (by decide),
      direct 2 (by decide), extended 0 (by decide), extended 1 (by decide),
      extended 2 (by decide), extended 3 (by decide), reduceCtorEq, if_false, ne_eq, ite_not,
      decide_eq_true_eq]
    by_cases tagged : n % 8 = 1
    · rw [if_pos tagged, if_pos tagged]
      rfl
    rw [if_neg tagged, if_neg tagged]
    by_cases marked : n % 8 = 2
    · rw [if_pos marked, if_pos marked]
      split
      next zero =>
        rw [if_pos zero]
        split <;> rfl
      next one =>
        have other : ¬ n / 8 % 16 = 0 := by omega
        have known : n / 8 % 16 = 1 ∨ n / 8 % 16 = 2 := .inl one
        rw [if_neg other, if_pos known]
        split
        · have low : n / 8 < 16 := by omega
          rw [if_pos low]
          rfl
        · split <;> rfl
      next two =>
        have other : ¬ n / 8 % 16 = 0 := by omega
        have known : n / 8 % 16 = 1 ∨ n / 8 % 16 = 2 := .inr two
        rw [if_neg other, if_pos known]
        split
        · have low : n / 8 < 16 := by omega
          rw [if_pos low]
          rfl
        · split <;> rfl
      next three =>
        have code : maxCodePoint = 1114111 := rfl
        have low : lessEqual (ofInt 0) (ofInt (n / 8 / 16)) = decide (0 ≤ n / 8 / 16) :=
          lessEqual_ofInt (by decide) (by omega)
        have high : lessEqual (ofInt (n / 8 / 16)) (ofInt maxCodePoint) =
            decide (n / 8 / 16 ≤ maxCodePoint) :=
          lessEqual_ofInt (by omega) (by decide)
        have other : ¬ n / 8 % 16 = 0 := by omega
        have unknown : ¬ (n / 8 % 16 = 1 ∨ n / 8 % 16 = 2) := by omega
        rw [if_neg other, if_neg unknown, if_pos three, computedCode_eq safe three, low, high,
          ← Bool.decide_and]
        simp only [decide_eq_true_eq]
        split <;> rfl
      next zero one two three =>
        rw [if_neg zero, if_neg (not_or_intro one two), if_neg three]
        rfl
    · rw [if_neg marked, if_neg marked]
      rfl

/-- What is read is what the arithmetic takes out of the number. -/
theorem content_ofHandle (handle : Binary64) :
    (∀ n, ofHandle handle = integer n → directPayload handle = .ofInt n) ∧
      ∀ code, ofHandle handle = char code → computedCode handle = .ofInt code := by
  cases read : handle.toSafeInteger? with
  | none =>
    simp only [ofHandle, read]
    exact ⟨nofun, nofun⟩
  | some n =>
    obtain ⟨rfl, safe⟩ := toSafeInteger?_eq_some_iff.1 read
    simp only [ofHandle, read]
    by_cases tagged : n % 8 = 1
    · rw [if_pos tagged]
      refine ⟨?_, nofun⟩
      rintro k same
      rw [directPayload_eq safe, Value.integer.inj same]
    rw [if_neg tagged]
    by_cases marked : n % 8 = 2
    · rw [if_pos marked]
      split
      next =>
        split
        · exact ⟨nofun, nofun⟩
        · exact ⟨nofun, nofun⟩
      next =>
        split
        · exact ⟨nofun, nofun⟩
        · split
          · exact ⟨nofun, nofun⟩
          · exact ⟨nofun, nofun⟩
      next =>
        split
        · exact ⟨nofun, nofun⟩
        · split
          · exact ⟨nofun, nofun⟩
          · exact ⟨nofun, nofun⟩
      next three =>
        split
        next inside =>
          refine ⟨nofun, ?_⟩
          rintro code same
          rw [computedCode_eq safe three, ← Value.char.inj same, Int.toNat_of_nonneg inside.1]
        next => exact ⟨nofun, nofun⟩
      next => exact ⟨nofun, nofun⟩
    · rw [if_neg marked]
      exact ⟨nofun, nofun⟩

/-! ## The forms of handles -/

/-- The handles of each tag. -/
inductive Packed : Tag → Binary64 → Prop
  | nil : Packed .nil (.ofInt (packExtended 0 0))
  /-- The content of true and false is zero; below it are the stray booleans. -/
  | boolean {mark content : Int} : mark = 1 ∨ mark = 2 → -2 ^ 46 ≤ content → content ≤ 0 →
      Packed .boolean (.ofInt (packExtended mark content))
  | integer {payload : Int} : -2 ^ 50 ≤ payload → payload < 2 ^ 50 →
      Packed .integer (.ofInt (payload * 8 + 1))
  | char {code : Nat} : (code : Int) ≤ maxCodePoint →
      Packed .char (.ofInt (packExtended 3 code))

/-- A handle that packs a content over an extended tag comes apart into them. -/
theorem packExtended_parts (mark content : Int) (low : 0 ≤ mark) (high : mark < 16) :
    packExtended mark content % 8 = 2 ∧ packExtended mark content / 8 = content * 16 + mark ∧
      (content * 16 + mark) % 16 = mark ∧ (content * 16 + mark) / 16 = content := by
  unfold packExtended
  omega

/-- A handle with the extended direct tag packs the parts that it comes apart into. -/
theorem packExtended_eq {mark : Int} (extended : n % 8 = 2) (marked : n / 8 % 16 = mark) :
    packExtended mark (n / 8 / 16) = n := by
  unfold packExtended
  omega

/-- A safe integer with the bits of a boolean and a payload below the others is of that
form, whatever its sign. -/
theorem packed_boolean {mark : Int} (marks : mark = 1 ∨ mark = 2)
    (whole : packExtended mark (n / 8 / 16) = n) (below : n / 8 < 16)
    (safe : n.natAbs ≤ maxSafeInteger.natAbs) : Packed .boolean (.ofInt n) := by
  have bound : (maxSafeInteger.natAbs : Int) = 9007199254740991 := rfl
  have packed : Packed .boolean (.ofInt (packExtended mark (n / 8 / 16))) :=
    .boolean marks (by omega) (by omega)
  rw [whole] at packed
  exact packed

/-- A number that is not read as malformed has the form of its tag, and is packed again
into itself. -/
theorem packed_of_ne_malformed {handle : Binary64}
    (formed : ofHandle handle ≠ malformed handle) :
    Packed (ofHandle handle).tag handle ∧ (ofHandle handle).handle? = some handle := by
  revert formed
  unfold ofHandle
  cases read : handle.toSafeInteger? with
  | none => exact fun formed => absurd rfl formed
  | some n =>
    obtain ⟨rfl, safe⟩ := toSafeInteger?_eq_some_iff.1 read
    have bound : (maxSafeInteger.natAbs : Int) = 9007199254740991 := rfl
    simp only
    by_cases direct : n % 8 = 1
    · rw [if_pos direct]
      intro
      have whole : n / 8 * 8 + 1 = n := by omega
      have packed : Packed .integer (.ofInt (n / 8 * 8 + 1)) := .integer (by omega) (by omega)
      rw [whole] at packed
      exact ⟨packed, by rw [handle?, whole]⟩
    rw [if_neg direct]
    by_cases extended : n % 8 = 2
    · rw [if_pos extended]
      -- A stray boolean is packed by its payload, the others by their content.
      have stray : n / 8 * 8 + 2 = n := by omega
      split
      next mark =>
        have whole := packExtended_eq extended mark
        split
        next zero =>
          intro
          rw [zero] at whole
          rw [← whole]
          exact ⟨.nil, rfl⟩
        next => exact fun formed => absurd rfl formed
      next mark =>
        have whole := packExtended_eq extended mark
        split
        next one =>
          intro
          refine ⟨packed_boolean (.inl rfl) whole (by omega) safe, ?_⟩
          rw [← whole, one]
          rfl
        next =>
          split
          next below =>
            intro
            exact ⟨packed_boolean (.inl rfl) whole below safe, by rw [handle?, stray]⟩
          next => exact fun formed => absurd rfl formed
      next mark =>
        have whole := packExtended_eq extended mark
        split
        next two =>
          intro
          refine ⟨packed_boolean (.inr rfl) whole (by omega) safe, ?_⟩
          rw [← whole, two]
          rfl
        next =>
          split
          next below =>
            intro
            exact ⟨packed_boolean (.inr rfl) whole below safe, by rw [handle?, stray]⟩
          next => exact fun formed => absurd rfl formed
      next mark =>
        have whole := packExtended_eq extended mark
        split
        next inside =>
          intro
          have code : ((n / 8 / 16).toNat : Int) = n / 8 / 16 := Int.toNat_of_nonneg inside.1
          have packed : Packed .char (.ofInt (packExtended 3 (n / 8 / 16).toNat)) :=
            .char (by rw [code]; exact inside.2)
          rw [code, whole] at packed
          exact ⟨packed, by rw [handle?, code, whole]⟩
        next => exact fun formed => absurd rfl formed
      next => exact fun formed => absurd rfl formed
    · rw [if_neg extended]
      exact fun formed => absurd rfl formed

/-- A number of the form of a tag is read with that tag. -/
theorem Packed.tag_ofHandle {tag : Tag} {handle : Binary64} (packed : Packed tag handle) :
    (ofHandle handle).tag = tag := by
  have bound : (maxSafeInteger.natAbs : Int) = 9007199254740991 := rfl
  have read {n : Int} (safe : n.natAbs ≤ maxSafeInteger.natAbs) :
      (ofInt n).toSafeInteger? = some n := toSafeInteger?_eq_some_iff.2 ⟨rfl, safe⟩
  unfold ofHandle
  cases packed with
  | nil => rfl
  | @boolean mark content marks least most =>
    have parts := packExtended_parts mark content (by omega) (by omega)
    obtain ⟨direct, payload, marked, -⟩ := parts
    rw [read (by unfold packExtended; omega)]
    simp only [direct, payload, marked]
    have low : content * 16 + mark < 16 := by omega
    rcases marks with rfl | rfl
    · rw [if_neg (by decide), if_pos trivial, if_pos low]
      show (if content * 16 + 1 = 1 then Value.boolean true else strayBoolean _).tag = _
      split <;> rfl
    · rw [if_neg (by decide), if_pos trivial, if_pos low]
      show (if content * 16 + 2 = 2 then Value.boolean false else strayBoolean _).tag = _
      split <;> rfl
  | @integer payload least most =>
    have direct : (payload * 8 + 1) % 8 = 1 := by omega
    rw [read (by omega)]
    simp only [if_pos direct]
    rfl
  | @char code most =>
    have parts := packExtended_parts 3 code (by decide) (by decide)
    obtain ⟨direct, payload, marked, content⟩ := parts
    have inside : 0 ≤ (code : Int) ∧ (code : Int) ≤ maxCodePoint := ⟨Int.natCast_nonneg code, most⟩
    have limit : maxCodePoint = 1114111 := rfl
    rw [read (by unfold packExtended; omega)]
    simp only [direct, payload, marked, content, if_pos inside]
    rw [if_neg (by decide), if_pos trivial]
    rfl

/-- No number has the form of an unknown tag. -/
theorem not_packed_unknown (handle : Binary64) : ¬ Packed .unknown handle := by
  intro packed
  cases packed

/-- Every number is read with the tag that the arithmetic finds for it. That is the one it
has the form of, and it is unknown if it has the form of none; what it is read as holds what
the arithmetic takes out of it and is packed into the same number again. -/
theorem tag_ofHandle_iff (handle : Binary64) :
    (ofHandle handle).tag = computedTag handle ∧
      (∀ tag, tag ≠ .unknown → ((ofHandle handle).tag = tag ↔ Packed tag handle)) ∧
      ((ofHandle handle).tag = .unknown ↔ ∀ tag, ¬ Packed tag handle) ∧
      ((∀ n, ofHandle handle = integer n → directPayload handle = .ofInt n) ∧
        ∀ code, ofHandle handle = char code → computedCode handle = .ofInt code) ∧
      (ofHandle handle).handle? = some handle := by
  refine ⟨tag_ofHandle_eq handle, ?_⟩
  by_cases formed : ofHandle handle = malformed handle
  · have unknown : (ofHandle handle).tag = .unknown := by
      rw [formed]
      rfl
    have none_ (tag : Tag) (packed : Packed tag handle) : False := by
      have same := packed.tag_ofHandle.symm.trans unknown
      rw [same] at packed
      exact not_packed_unknown handle packed
    refine ⟨fun tag known => ⟨fun same => ?_, fun packed => absurd packed (none_ tag)⟩,
      ⟨fun _ => none_, fun _ => unknown⟩, content_ofHandle handle, by rw [formed]; rfl⟩
    exact absurd (same.symm.trans unknown) known
  · obtain ⟨packed, again⟩ := packed_of_ne_malformed formed
    refine ⟨fun tag _ => ⟨fun same => same ▸ packed, Packed.tag_ofHandle⟩,
      ⟨fun unknown => ?_, fun none_ => absurd packed (none_ _)⟩, content_ofHandle handle, again⟩
    rw [unknown] at packed
    exact absurd packed (not_packed_unknown handle)

/-- Numbers that have the tag of an immediate although nothing packs into them: the
first integer beyond the greatest, and a boolean with a negative payload. -/
theorem tag_ofHandle_beyond :
    ((ofHandle (.ofInt 562949953421313)).tag = .integer ∧
      ¬ ∃ n : Int, minInteger ≤ n ∧ n ≤ maxInteger ∧
        Binary64.ofInt 562949953421313 = .ofInt (n * 8 + 1)) ∧
    ((ofHandle (.ofInt (-118))).tag = .boolean ∧
      some (.ofInt (-118)) ≠ (boolean true).handle? ∧
      some (.ofInt (-118)) ≠ (boolean false).handle?) := by
  refine ⟨⟨by decide +kernel, ?_⟩, by decide +kernel⟩
  rintro ⟨n, least, most, same⟩
  unfold minInteger at least
  unfold maxInteger at most
  rw [ofInt_eq_finite (by decide), ofInt_eq_finite (by unfold largestExact; omega)] at same
  have whole : (562949953421313 : Int) = n * 8 + 1 := by
    injection same with same
    exact_mod_cast same
  omega

end Value

end MessageMachine
