/-
# Blank characters

The characters that separate tokens and mean nothing else: the ASCII controls
from tab to carriage return, the space, and the spaces and line separators of
Unicode, the byte order mark among them.
-/

namespace MessageMachine.Reader

/-- Ranges of blank code points, both ends included. -/
def blankRanges : List (Nat × Nat) :=
  [(0x09, 0x0D), (0x20, 0x20), (0xA0, 0xA0), (0x1680, 0x1680), (0x2000, 0x200A),
   (0x2028, 0x2029), (0x202F, 0x202F), (0x205F, 0x205F), (0x3000, 0x3000), (0xFEFF, 0xFEFF)]

def isBlank (c : Char) : Bool :=
  blankRanges.any fun (first, last) => decide (first ≤ c.toNat ∧ c.toNat ≤ last)

/-- The characters that end an atom. -/
def isDelimiter (c : Char) : Bool :=
  isBlank c || c = '(' || c = ')' || c = '"' || c = ';' || c = '\''

end MessageMachine.Reader
