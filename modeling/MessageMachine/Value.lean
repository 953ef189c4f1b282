/-
# Values

A value is an immediate scalar or a reference into the heap. The machine packs
an immediate into one binary64 number, its *handle*:

    handle = payload * 8 + direct tag          1 integer, 2 extended
    payload = content * 16 + extended tag      0 nil, 1 true, 2 false, 3 character

`Value` holds what a handle means and not its bits; `Value.ofHandle` reads any
number whatever as a value and `Value.handle?` packs an immediate. A number that
fits none of the forms is a value too, one of unknown kind, so that reading is
total. Three corners deserve mention, because the forms are tested in order and
each test is narrower than the packing:

* an integer handle may carry a payload beyond the range that
  `Value.ofNumber` ever packs;
* a handle with a boolean tag and a negative payload has the tag of a boolean
  and is neither true nor false;
* a not-a-number differs from itself.
-/

import MessageMachine.Binary64.Text

namespace MessageMachine

/-! ## Tags -/

/-- The kind of a value. Classes may be declared for tags that no value has. -/
inductive Tag
  | nil
  | boolean
  | integer
  | char
  | symbol
  | string
  | pair
  | function
  | «class»
  | «instance»
  | unknown
  | other (name : String)
  deriving DecidableEq, Inhabited, Repr

namespace Tag

def name : Tag → String
  | nil => "nil"
  | boolean => "boolean"
  | integer => "integer"
  | char => "char"
  | symbol => "symbol"
  | string => "string"
  | pair => "pair"
  | function => "function"
  | «class» => "class"
  | «instance» => "instance"
  | unknown => "unknown"
  | other name => name

/-- The tags that values have. -/
def known : List Tag :=
  [nil, boolean, integer, char, symbol, string, pair, function, «class», «instance», unknown]

def ofName (text : String) : Tag :=
  (known.find? (·.name = text)).getD (other text)

end Tag

/-! ## References -/

/-- The kinds of heap records that are referred to by address. -/
inductive Record
  | pair
  | string
  | primitive
  | method
  | classObject
  | object
  deriving DecidableEq, Repr

/-- The address of a heap record of one kind. -/
structure Ref (kind : Record) where
  index : Nat
  deriving DecidableEq, Inhabited, Repr

theorem Ref.eq_of_index {kind : Record} {r s : Ref kind} (same : r.index = s.index) : r = s := by
  cases r
  cases s
  exact congrArg Ref.mk same

/-- Something that can answer a message. -/
inductive Callable
  | primitive (ref : Ref .primitive)
  | method (ref : Ref .method)
  deriving DecidableEq, Repr

instance : Inhabited Callable := ⟨.primitive default⟩

/-- A value: an immediate, a symbol (one for each spelling), or a reference. -/
inductive Value
  | nil
  | boolean (b : Bool)
  /-- A handle tagged as a boolean, with a negative payload. -/
  | strayBoolean (payload : Int)
  | integer (n : Int)
  | char (code : Nat)
  | malformed (handle : Binary64)
  | symbol (name : String)
  | string (ref : Ref .string)
  | pair (ref : Ref .pair)
  | callable (c : Callable)
  | classObject (ref : Ref .classObject)
  | object (ref : Ref .object)
  deriving DecidableEq

namespace Value

instance : Inhabited Value := ⟨nil⟩

def tag : Value → Tag
  | nil => .nil
  | boolean _ | strayBoolean _ => .boolean
  | integer _ => .integer
  | char _ => .char
  | malformed _ => .unknown
  | symbol _ => .symbol
  | string _ => .string
  | pair _ => .pair
  | callable _ => .function
  | classObject _ => .«class»
  | object _ => .«instance»

/-! ## Handles -/

/-- The handle of an extended tag with its content. -/
def packExtended (tag content : Int) : Int :=
  (content * 16 + tag) * 8 + 2

/-- The largest code point. -/
def maxCodePoint : Int := 0x10FFFF

/-- What a number means as a handle. -/
def ofHandle (handle : Binary64) : Value :=
  match handle.toSafeInteger? with
  | none => malformed handle
  | some n =>
    let payload := n / 8
    if n % 8 = 1 then integer payload
    else if n % 8 = 2 then
      let content := payload / 16
      match payload % 16 with
      | 0 => if payload = 0 then nil else malformed handle
      | 1 => if payload = 1 then boolean true
        else if payload < 16 then strayBoolean payload else malformed handle
      | 2 => if payload = 2 then boolean false
        else if payload < 16 then strayBoolean payload else malformed handle
      | 3 => if 0 ≤ content ∧ content ≤ maxCodePoint then char content.toNat else malformed handle
      | _ => malformed handle
    else malformed handle

/-- The handle of an immediate; references and symbols have none. -/
def handle? : Value → Option Binary64
  | nil => some (.ofInt (packExtended 0 0))
  | boolean b => some (.ofInt (packExtended (if b then 1 else 2) 0))
  | strayBoolean payload => some (.ofInt (payload * 8 + 2))
  | integer n => some (.ofInt (n * 8 + 1))
  | char code => some (.ofInt (packExtended 3 code))
  | malformed handle => some handle
  | symbol _ | string _ | pair _ | callable _ | classObject _ | object _ => none

/-- The low three bits of a handle, as a number. -/
def directTag (handle : Binary64) : Binary64 :=
  handle.floorRem (.ofInt 8)

/-- Everything above them. -/
def directPayload (handle : Binary64) : Binary64 :=
  (handle.sub (directTag handle)).div (.ofInt 8)

/-! ## Making immediates -/

/-- The least integer of an immediate, minus the 46th power of two. -/
def minInteger : Int := -70368744177664

/-- The greatest integer of an immediate, one less than that power. -/
def maxInteger : Int := 70368744177663

/-- A number that an integer immediate cannot hold. -/
structure IntegerOverflow where
  value : Binary64
  deriving DecidableEq

def IntegerOverflow.message (e : IntegerOverflow) : String :=
  s!"integer {e.value.toText} does not fit in an immediate (range {minInteger}..{maxInteger})"

/-- The integer that a number is, if an immediate can hold it. -/
def inRange? (x : Binary64) : Option Int :=
  match x.toInt? with
  | some n => if minInteger ≤ n ∧ n ≤ maxInteger then some n else none
  | none => none

/-- The integer value of a number. -/
def ofNumber (x : Binary64) : Except IntegerOverflow Value :=
  match inRange? x with
  | some n => .ok (integer n)
  | none => .error ⟨x⟩

/-- The character that a text starts with. -/
def ofFirstChar? (text : String) : Option Value :=
  text.toList.head?.map fun c => char c.toNat

/-! ## Views -/

def asInteger? : Value → Option Int
  | integer n => some n
  | _ => none

def asSymbol? : Value → Option String
  | symbol name => some name
  | _ => none

def asPair? : Value → Option (Ref .pair)
  | pair ref => some ref
  | _ => none

def asString? : Value → Option (Ref .string)
  | string ref => some ref
  | _ => none

def asCallable? : Value → Option Callable
  | callable c => some c
  | _ => none

def asClass? : Value → Option (Ref .classObject)
  | classObject ref => some ref
  | _ => none

def asObject? : Value → Option (Ref .object)
  | object ref => some ref
  | _ => none

/-- The character of a character value. Surrogates are code points without a
character and show as the replacement character. -/
def asChar? : Value → Option Char
  | char code => some (if code.isValidChar then Char.ofNat code else '\uFFFD')
  | _ => none

/-- Nil and false count as false, everything else as true. -/
def truthy : Value → Bool
  | nil | boolean false => false
  | _ => true

/-- Two values are the same immediate or the same record. Only a not-a-number
is not identical to itself. -/
def identical (x y : Value) : Bool :=
  decide (x = y ∧ x ≠ malformed .nan)

end Value

end MessageMachine
