/-
# LEB128 operands

An operand is written as groups of seven bits, the lowest first; every byte but
the last has its high bit set. An unsigned operand is the sum of its groups, a
signed one is sign-extended from bit 6 of its last byte.

Writing works on integers. Reading accumulates in binary64 arithmetic, as the
machine's operand unit does: first all groups are added up, each scaled by a
power of 128, then a negative operand has the next power subtracted. A result
that is not a safe integer is refused at the end, which catches every rounding
of an unsigned operand; the sum of a long negative operand is rounded before
its scale is taken away.
-/

import MessageMachine.Binary64.Text
import MessageMachine.MalformedCode

namespace MessageMachine.Leb128

/-- A number that no operand can carry. -/
structure Unencodable where
  value : Binary64
  signed : Bool
  deriving DecidableEq

def Unencodable.message (e : Unencodable) : String :=
  let kind := if e.signed then "signed" else "unsigned"
  s!"Cannot encode {e.value.toText} as {kind} LEB128"

/-! ## Writing -/

/-- The groups of a natural number. -/
def encodeNat (n : Nat) : List UInt8 :=
  if n < 128 then [n.toUInt8]
  else (n % 128 + 128).toUInt8 :: encodeNat (n / 128)
termination_by n
decreasing_by omega

/-- The groups of an integer. The last group is the first whose bit 6 already
tells the sign of everything above it. -/
def encodeInt (n : Int) : List UInt8 :=
  let group := (n % 128).toNat
  let rest := n / 128
  if rest = 0 ∧ group < 64 ∨ rest = -1 ∧ 64 ≤ group then [group.toUInt8]
  else (group + 128).toUInt8 :: encodeInt rest
termination_by n.natAbs
decreasing_by omega

/-- The natural number that a number is, if an unsigned operand can carry it. -/
def unsigned (x : Binary64) : Except Unencodable Nat :=
  match x.toSafeInteger? with
  | some (.ofNat n) => .ok n
  | _ => .error ⟨x, false⟩

/-- The integer that a number is, if a signed operand can carry it. -/
def signed (x : Binary64) : Except Unencodable Int :=
  match x.toSafeInteger? with
  | some n => .ok n
  | none => .error ⟨x, true⟩

def encodeUnsigned (x : Binary64) : Except Unencodable (List UInt8) :=
  (unsigned x).map encodeNat

def encodeSigned (x : Binary64) : Except Unencodable (List UInt8) :=
  (signed x).map encodeInt

/-! ## Reading -/

/-- The bytes of the operand that a string of bytes begins with: up to and
including the first without its high bit. There is none when the bytes end
before it. -/
def groups : List UInt8 → Option (List UInt8)
  | [] => none
  | byte :: rest => if byte < 128 then some [byte] else (groups rest).map (byte :: ·)

/-- The bytes of the operand at an offset, of which at most `limit` are looked
at. -/
def groupsWithin (bytes : Array UInt8) : Nat → Nat → Option (List UInt8)
  | 0, _ => none
  | limit + 1, offset =>
    match bytes[offset]? with
    | none => none
    | some byte =>
      if byte < 128 then some [byte]
      else (groupsWithin bytes limit (offset + 1)).map (byte :: ·)

/-- The bytes of the operand at an offset. Before the first byte there is
nothing but zeros, each an operand. -/
def groupsAt (bytes : Array UInt8) (offset : Int) : Option (List UInt8) :=
  match offset with
  | .ofNat start => groupsWithin bytes (bytes.size - start) start
  | .negSucc _ => some [0]

theorem groupsWithin_eq (bytes : Array UInt8) (limit offset : Nat)
    (h : bytes.size ≤ offset + limit) :
    groupsWithin bytes limit offset = groups (bytes.toList.drop offset) := by
  induction limit generalizing offset with
  | zero =>
    rw [List.drop_eq_nil_of_le (by simpa using h)]
    rfl
  | succ limit ih =>
    by_cases inside : offset < bytes.size
    · rw [List.drop_eq_getElem_cons (by simpa using inside), groupsWithin, groups,
        Array.getElem?_eq_getElem inside, ih (offset + 1) (by omega)]
      rfl
    · rw [List.drop_eq_nil_of_le (by simpa using inside), groupsWithin,
        Array.getElem?_eq_none (by omega)]
      rfl

/-- An operand begins where its offset says. -/
theorem groupsAt_ofNat (bytes : Array UInt8) (offset : Nat) :
    groupsAt bytes offset = groups (bytes.toList.drop offset) :=
  groupsWithin_eq bytes _ offset (by omega)

/-- The running sum and the scale of the next group. -/
structure Sum where
  value : Binary64
  scale : Binary64

/-- Add one group, in binary64 arithmetic. -/
def Sum.add (sum : Sum) (byte : UInt8) : Sum where
  value := sum.value.add ((Binary64.ofInt (byte.toNat % 128 : Nat)).mul sum.scale)
  scale := sum.scale.mul (.ofInt 128)

/-- The sum of all groups. -/
def sum (bytes : List UInt8) : Sum :=
  bytes.foldl Sum.add ⟨.ofInt 0, .ofInt 1⟩

/-- The unsigned value of an operand's bytes. -/
def unsignedValue (bytes : List UInt8) : Binary64 :=
  (sum bytes).value

/-- The signed value of an operand's bytes: the scale above all groups is
subtracted when the last one has its sign bit set. -/
def signedValue (bytes : List UInt8) : Binary64 :=
  let total := sum bytes
  match bytes.getLast? with
  | some last => if last.toNat % 128 < 64 then total.value else total.value.sub total.scale
  | none => total.value

/-- An operand that was read, and the number of its bytes. -/
structure Operand (α : Type) where
  value : α
  size : Nat
  deriving DecidableEq, Repr

/-- The offset after an operand that starts at `offset`. -/
def Operand.next {α : Type} (operand : Operand α) (offset : Int) : Int :=
  offset + operand.size

/-- Read the operand at an offset, its bytes having the value that is given. -/
def read (value : List UInt8 → Binary64) (bytes : Array UInt8) (offset : Int) :
    Except MalformedCode (Operand Int) :=
  match groupsAt bytes offset with
  | none => .error (.at .truncatedOperand offset)
  | some groups =>
    match (value groups).toSafeInteger? with
    | none => .error (.at .oversizedOperand offset)
    | some n => .ok ⟨n, groups.length⟩

/-- The unsigned operand at an offset. A sum of groups is never negative. -/
def decodeUnsigned (bytes : Array UInt8) (offset : Int) : Except MalformedCode (Operand Nat) :=
  (read unsignedValue bytes offset).map fun operand => ⟨operand.value.toNat, operand.size⟩

/-- The signed operand at an offset. -/
def decodeSigned (bytes : Array UInt8) (offset : Int) : Except MalformedCode (Operand Int) :=
  read signedValue bytes offset

end MessageMachine.Leb128
