/-
# What atoms mean

`Denotes` says what an atom means without an order of rules: an integer in range is an
optional sign with decimal digits, a hash sign begins a truth value or a character, and
everything else is a symbol unless it begins like a number. No atom is of two kinds, so
the order in which `atom` tries its rules decides nothing but the error, and
`atom_eq_ok_iff` is exact in both directions.
-/

import MessageMachine.Reader.Datum

namespace MessageMachine.Reader

/-! ## Numbers -/

/-- An optional sign, and whether it is negative. -/
inductive Sign : List Char → Bool → Prop
  | absent : Sign [] false
  | plus : Sign ['+'] false
  | minus : Sign ['-'] true

/-- Decimal digits after an optional sign, and the integer that they denote. -/
inductive Numeral : List Char → Int → Prop
  | intro {sign digits : List Char} {negative : Bool} :
      Sign sign negative → digits ≠ [] → (∀ c ∈ digits, c.isDigit = true) →
      Numeral (sign ++ digits)
        (if negative then -(Nat.ofDigitChars 10 digits 0 : Int) else Nat.ofDigitChars 10 digits 0)

/-- What begins like a number: a digit, with an optional sign and an optional point before
it. -/
def BeginsNumber (text : List Char) : Prop :=
  ∃ sign negative point digit rest, Sign sign negative ∧ (point = [] ∨ point = ['.']) ∧
    digit.isDigit = true ∧ text = sign ++ (point ++ digit :: rest)

/-- A text that has no sign in front. -/
def Unsigned (text : List Char) : Prop :=
  ∀ tail, text ≠ '+' :: tail ∧ text ≠ '-' :: tail

theorem Unsigned.of_ne {c : Char} (plus : c ≠ '+') (minus : c ≠ '-') (rest : List Char) :
    Unsigned (c :: rest) := by
  refine fun tail => ⟨?_, ?_⟩
  · rintro ⟨⟩
    exact plus rfl
  · rintro ⟨⟩
    exact minus rfl

theorem ne_sign_of_isDigit {c : Char} (digit : c.isDigit = true) : c ≠ '+' ∧ c ≠ '-' ∧ c ≠ '.' := by
  refine ⟨?_, ?_, ?_⟩ <;> rintro rfl <;> cases digit

variable {text sign digits rest : List Char} {negative : Bool}

theorem splitSign_append (isSign : Sign sign negative) (plain : Unsigned rest) :
    splitSign (sign ++ rest) = (negative, rest) := by
  cases isSign with
  | absent =>
    rw [List.nil_append]
    unfold splitSign
    split
    · exact absurd rfl (plain _).2
    · exact absurd rfl (plain _).1
    · rfl
  | plus => rfl
  | minus => rfl

/-- A text is its sign and what follows. -/
theorem sign_splitSign (text : List Char) :
    ∃ sign, Sign sign (splitSign text).1 ∧ text = sign ++ (splitSign text).2 := by
  unfold splitSign
  split
  · exact ⟨_, .minus, rfl⟩
  · exact ⟨_, .plus, rfl⟩
  · exact ⟨_, .absent, rfl⟩

theorem unsigned_of_digits (some_ : digits ≠ []) (all : ∀ c ∈ digits, c.isDigit = true) :
    Unsigned digits := by
  obtain ⟨c, rest, rfl⟩ := List.exists_cons_of_ne_nil some_
  obtain ⟨plus, minus, -⟩ := ne_sign_of_isDigit (all c (List.mem_cons_self ..))
  exact .of_ne plus minus rest

/-- An atom is read as an integer if it is a numeral, and as what that denotes. -/
theorem integer?_eq_some_iff {n : Int} : integer? text = some n ↔ Numeral text n := by
  constructor
  · intro found
    obtain ⟨sign, isSign, whole⟩ := sign_splitSign text
    unfold integer? at found
    generalize splitSign text = parts at found isSign whole
    obtain ⟨negative, digits⟩ := parts
    obtain ⟨⟨some_, all⟩, same⟩ := Option.ite_none_right_eq_some.1 found
    cases same
    rw [whole]
    exact .intro isSign some_ (List.all_eq_true.1 all)
  · rintro ⟨isSign, some_, all⟩
    rw [integer?, splitSign_append isSign (unsigned_of_digits some_ all)]
    exact if_pos ⟨some_, List.all_eq_true.2 all⟩

theorem integer?_eq_none (none_ : ∀ n, ¬ Numeral text n) : integer? text = none := by
  cases found : integer? text with
  | none => rfl
  | some n => exact absurd (integer?_eq_some_iff.1 found) (none_ n)

theorem Numeral.beginsNumber {n : Int} (numeral : Numeral text n) : BeginsNumber text := by
  obtain ⟨isSign, some_, all⟩ := numeral
  obtain ⟨c, rest, rfl⟩ := List.exists_cons_of_ne_nil some_
  exact ⟨_, _, [], c, rest, isSign, .inl rfl, all c (List.mem_cons_self ..), rfl⟩

/-- The test for what begins like a number is exact. -/
theorem looksNumeric_iff : looksNumeric text = true ↔ BeginsNumber text := by
  constructor
  · intro looks
    obtain ⟨sign, isSign, whole⟩ := sign_splitSign text
    unfold looksNumeric at looks
    split at looks
    next c rest same =>
      rw [same] at whole
      exact ⟨_, _, ['.'], c, rest, isSign, .inr rfl, looks, whole⟩
    next c rest _ same =>
      rw [same] at whole
      exact ⟨_, _, [], c, rest, isSign, .inl rfl, looks, whole⟩
    next => cases looks
  · rintro ⟨sign, negative, point, c, rest, isSign, point_, digit, rfl⟩
    obtain ⟨plus, minus, other⟩ := ne_sign_of_isDigit digit
    unfold looksNumeric
    rcases point_ with rfl | rfl
    · rw [List.nil_append, splitSign_append isSign (.of_ne plus minus rest)]
      split
      next same =>
        cases same
        exact absurd rfl other
      next same =>
        cases same
        exact digit
      next same => cases same
    · rw [List.singleton_append, splitSign_append isSign (.of_ne (by decide) (by decide) _)]
      exact digit

/-- What begins with a hash sign does not begin like a number. -/
theorem not_beginsNumber_hash (rest : List Char) : ¬ BeginsNumber ('#' :: rest) := by
  rintro ⟨sign, negative, point, c, tail, isSign, point_, digit, whole⟩
  cases isSign with
  | absent =>
    rcases point_ with rfl | rfl
    · cases whole
      cases digit
    · cases whole
  | plus => cases whole
  | minus => cases whole

/-! ## Atoms -/

/-- The names of characters. -/
inductive CharName : String → Char → Prop
  | space : CharName "space" ' '
  | newline : CharName "newline" '\n'
  | tab : CharName "tab" '\t'
  | «return» : CharName "return" '\r'

theorem namedChar?_eq_some_iff {name : String} {c : Char} :
    namedChar? name = some c ↔ CharName name c := by
  constructor
  · intro found
    unfold namedChar? at found
    split at found <;> cases found
    · exact .space
    · exact .newline
    · exact .tab
    · exact .return
  · rintro (_ | _ | _ | _) <;> rfl

/-- A name in small letters. -/
def lowered (name : List Char) : String :=
  String.ofList (name.map Char.toLower)

/-- What an atom means. -/
inductive Denotes : String → Datum → Prop
  | integer {text : String} {n : Int} :
      Numeral text.toList n → Value.minInteger ≤ n → n ≤ Value.maxInteger → Denotes text (.integer n)
  | «true» : Denotes "#t" (.boolean true)
  | «false» : Denotes "#f" (.boolean false)
  | character {text : String} {c : Char} :
      text.toList = ['#', '\\', c] → Denotes text (.char c)
  | named {text : String} {name : List Char} {c : Char} :
      text.toList = '#' :: '\\' :: name → CharName (lowered name) c → Denotes text (.char c)
  | symbol {text : String} :
      text ≠ "." → ¬ BeginsNumber text.toList → (∀ tail, text.toList ≠ '#' :: tail) →
      Denotes text (.symbol text)

variable {text : String} {name rest : List Char} {d : Datum}

theorem not_beginsNumber_of_hash (hash : text.toList = '#' :: rest) :
    ¬ BeginsNumber text.toList := by
  rw [hash]
  exact not_beginsNumber_hash rest

/-- The rules for what does not begin like a number. -/
theorem atom_of_not_beginsNumber (other : ¬ BeginsNumber text.toList) :
    atom text = match text.toList with
      | ['#', 't'] => .ok (.boolean true)
      | ['#', 'f'] => .ok (.boolean false)
      | '#' :: '\\' :: name => character name
      | '#' :: _ => .error (.invalidHash text)
      | _ => .ok (.symbol text) := by
  have no_integer : integer? text.toList = none :=
    integer?_eq_none fun n numeral => other numeral.beginsNumber
  have not_numeric : ¬ looksNumeric text.toList = true := fun looks => other (looksNumeric_iff.1 looks)
  unfold atom
  dsimp only
  rw [no_integer]
  exact if_neg not_numeric

theorem atom_of_character (hash : text.toList = '#' :: '\\' :: name) :
    atom text = character name := by
  rw [atom_of_not_beginsNumber (not_beginsNumber_of_hash hash), hash]
  rfl

theorem namedChar?_of_reserved {name : String} (reserved : name ∈ reservedNames) :
    namedChar? name = none := by
  simp only [reservedNames, List.mem_cons, List.not_mem_nil, or_false] at reserved
  rcases reserved with rfl | rfl <;> rfl

/-- A name is longer than one character. -/
theorem CharName.not_single {c c' : Char} : ¬ CharName (lowered [c]) c' := by
  intro named
  have short : (lowered [c]).toList.length = 1 := by rw [lowered, String.toList_ofList]; rfl
  generalize lowered [c] = name at named short
  cases named <;> cases short

theorem character_single (c : Char) : character [c] = .ok (.char c) := rfl

theorem character_of_ne_single (other : ∀ c, name ≠ [c]) :
    character name =
      if lowered name ∈ reservedNames then .error .reservedName
      else match namedChar? (lowered name) with
        | some c => .ok (.char c)
        | none => .error (.unknownCharacter (String.ofList name)) := by
  unfold character
  split
  next c => exact absurd rfl (other c)
  next =>
    simp only [lowered, List.contains_iff_mem]
    rfl

/-- A character is itself or has a name. -/
theorem character_eq_ok_iff :
    character name = .ok d ↔ ∃ c, d = .char c ∧ (name = [c] ∨ CharName (lowered name) c) := by
  by_cases single : ∃ c, name = [c]
  · obtain ⟨c, rfl⟩ := single
    rw [character_single]
    constructor
    · rintro ⟨⟩
      exact ⟨c, rfl, .inl rfl⟩
    · rintro ⟨c', rfl, same | named⟩
      · cases same
        rfl
      · exact absurd named CharName.not_single
  · rw [not_exists] at single
    rw [character_of_ne_single single]
    constructor
    · intro found
      split at found
      next => cases found
      next =>
        split at found <;> cases found
        next c named => exact ⟨c, rfl, .inr (namedChar?_eq_some_iff.1 named)⟩
    · rintro ⟨c, rfl, same | named⟩
      · exact absurd same (single c)
      · have found := namedChar?_eq_some_iff.2 named
        have known : lowered name ∉ reservedNames := by
          intro reserved
          rw [namedChar?_of_reserved reserved] at found
          cases found
        rw [if_neg known, found]

/-- The only reason without a place is a reserved name. -/
theorem character_eq_reserved_iff :
    character name = .error .reservedName ↔ lowered name ∈ reservedNames := by
  by_cases single : ∃ c, name = [c]
  · obtain ⟨c, rfl⟩ := single
    rw [character_single]
    refine ⟨nofun, fun reserved => ?_⟩
    have short : (lowered [c]).toList.length = 1 := by rw [lowered, String.toList_ofList]; rfl
    simp only [reservedNames, List.mem_cons, List.not_mem_nil, or_false] at reserved
    rcases reserved with same | same <;> rw [same] at short <;> cases short
  · rw [not_exists] at single
    rw [character_of_ne_single single]
    split
    next reserved => exact ⟨fun _ => reserved, fun _ => rfl⟩
    next known =>
      refine ⟨fun failed => ?_, fun reserved => absurd reserved known⟩
      split at failed <;> cases failed

/-- An atom is read as what it means, and an atom without a meaning is not read. -/
theorem atom_eq_ok_iff (lone : text ≠ ".") : atom text = .ok d ↔ Denotes text d := by
  constructor
  · intro read
    unfold atom at read
    dsimp only at read
    split at read
    next n found =>
      split at read <;> cases read
      next inRange => exact .integer (integer?_eq_some_iff.1 found) inRange.1 inRange.2
    next =>
      split at read
      next => cases read
      next not_numeric =>
        rw [looksNumeric_iff] at not_numeric
        split at read
        next same =>
          cases read
          rw [← String.ofList_toList (s := text), same]
          exact .true
        next same =>
          cases read
          rw [← String.ofList_toList (s := text), same]
          exact .false
        next name same =>
          obtain ⟨c, rfl, rfl | named⟩ := character_eq_ok_iff.1 read
          · exact .character same
          · exact .named same named
        next => cases read
        next _ _ _ other =>
          cases read
          exact .symbol lone not_numeric other
  · intro denotes
    cases denotes with
    | integer numeral least greatest =>
      unfold atom
      simp only [integer?_eq_some_iff.2 numeral]
      exact if_pos ⟨least, greatest⟩
    | «true» => rfl
    | «false» => rfl
    | character hash => rw [atom_of_character hash, character_single]
    | named hash named => rw [atom_of_character hash, character_eq_ok_iff.2 ⟨_, rfl, .inr named⟩]
    | symbol _ other no_hash =>
      rw [atom_of_not_beginsNumber other]
      split
      next same => exact absurd same (no_hash _)
      next same => exact absurd same (no_hash _)
      next same => exact absurd same (no_hash _)
      next same => exact absurd same (no_hash _)
      next => rfl

/-- Only the name of a character can be a reserved one. -/
theorem atom_eq_reserved_iff :
    atom text = .error .reservedName ↔
      ∃ name, text.toList = '#' :: '\\' :: name ∧ lowered name ∈ reservedNames := by
  constructor
  · intro failed
    unfold atom at failed
    dsimp only at failed
    split at failed
    next => split at failed <;> cases failed
    next =>
      split at failed
      next => cases failed
      next =>
        split at failed
        next => cases failed
        next => cases failed
        next name same => exact ⟨name, same, character_eq_reserved_iff.1 failed⟩
        next => cases failed
        next => cases failed
  · rintro ⟨name, hash, reserved⟩
    rw [atom_of_character hash, character_eq_reserved_iff.2 reserved]

/-- A meaning is the only one. -/
theorem Denotes.unique {d' : Datum} (lone : text ≠ ".") (first : Denotes text d)
    (second : Denotes text d') : d = d' := by
  have same := ((atom_eq_ok_iff lone).2 first).symm.trans ((atom_eq_ok_iff lone).2 second)
  exact Except.ok.inj same

end MessageMachine.Reader
