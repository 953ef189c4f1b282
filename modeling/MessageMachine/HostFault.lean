/-
# Host faults

What goes wrong in the host rather than in the program: an execution that meets
one of these is given up without a diagnostic, and the fault reaches whoever
entered the machine.

Of the limits that a host has, one belongs to the model: how long a string may be
that a primitive makes. A program reaches it in a few steps, and the fault that it
meets is none that the machine contains. Texts that are only shown, which are
reports, listings, lines of a trace and results written out, have no limit here. Nor
have the memory of the host and the depth of its own calls, on which reading,
compiling, printing and comparing deeply nested data and entering the machine from
a primitive depend.
-/

import MessageMachine.Binary64.Text

namespace MessageMachine

/-! ## Strings of the host -/

namespace HostText

/-- The code units of a character. Those outside the basic plane take two. -/
def units (c : Char) : Nat :=
  if c.toNat < 0x10000 then 1 else 2

/-- How long a text is for the host, which counts code units. -/
def length (text : String) : Nat :=
  text.foldl (fun n c => n + units c) 0

/-- The length of the longest string of the host. -/
def maxLength : Nat := 536870888

/-- The host has a string for the text. -/
def Fits (text : String) : Prop :=
  length text ≤ maxLength

theorem length_empty : length "" = 0 := by
  rw [length, String.foldl_eq_foldl_toList, String.toList_empty, List.foldl_nil]

theorem length_push (text : String) (c : Char) :
    length (text.push c) = length text + units c := by
  simp only [length, String.foldl_eq_foldl_toList, String.toList_push, List.foldl_append,
    List.foldl_cons, List.foldl_nil]

theorem length_le_utf8ByteSize (text : String) : length text ≤ text.utf8ByteSize := by
  induction text using String.push_induction with
  | empty => exact Nat.le_of_eq length_empty
  | push text c ih =>
    have one : units c ≤ c.utf8Size := by
      have same : c.toNat = c.val.toNat := rfl
      unfold units Char.utf8Size
      simp only [UInt32.le_iff_toNat_le, same]
      grind
    rw [length_push, String.utf8ByteSize_push]
    exact Nat.add_le_add ih one

theorem length_le (text : String) : text.length ≤ length text := by
  induction text using String.push_induction with
  | empty => exact Nat.zero_le _
  | push text c ih =>
    have one : 1 ≤ units c := by
      unfold units
      split <;> decide
    rw [length_push, String.length_push]
    exact Nat.add_le_add ih one

/-- Most texts are told by the sizes that come with them, without counting. -/
instance (text : String) : Decidable (Fits text) :=
  if few : text.utf8ByteSize ≤ maxLength then
    .isTrue (Nat.le_trans (length_le_utf8ByteSize text) few)
  else if many : maxLength < text.length then
    .isFalse fun fits => Nat.not_lt.2 (Nat.le_trans (length_le text) fits) many
  else inferInstanceAs (Decidable (length text ≤ maxLength))

end HostText

/-! ## Faults -/

/-- What the host finds out of range. -/
inductive OutOfRange
  /-- A class number that the class table of the image does not have. -/
  | classNumber (number : Binary64)
  /-- A string longer than any of the host. -/
  | overlong
  deriving DecidableEq

def OutOfRange.message : OutOfRange → String
  | classNumber number => s!"No class with id {number.toText}"
  | overlong => "Invalid string length"

inductive HostFault
  /-- A host behaviour failed. -/
  | exploded
  /-- A number or a length is beyond what there is. -/
  | outOfRange (what : OutOfRange)
  /-- A base chain that runs into itself, so that following it has no end. -/
  | endlessBases
  /-- A frame, a slot or an argument that should be there is not. -/
  | missing
  deriving DecidableEq

/-- A fault of range by the name of the one that looking for classes meets. -/
@[match_pattern] abbrev HostFault.noClass (what : OutOfRange) : HostFault := .outOfRange what

def HostFault.message : HostFault → String
  | exploded => "boom"
  | outOfRange what => what.message
  | endlessBases => "Endless base chain"
  | missing => "Missing value"

end MessageMachine
