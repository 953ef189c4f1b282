/-
# Suggestions

A word that is not known may be a known one mistyped. Two words are as far apart
as the least number of single edits that turns one into the other, an edit being
the insertion, removal or replacement of a character or the exchange of two
neighbours. Those known words are suggested that are nearest, unless even they
are too far away.

Characters are counted in units of sixteen bits, so one beyond the first plane
is two of them.
-/

namespace MessageMachine.CommandLine

/-- The greatest distance of a suggestion. -/
def maxDistance : Nat := 3

/-! ## Units -/

/-- The units of a character: its code point, or the two halves of one that
needs more than sixteen bits. -/
def charUnits (c : Char) : List Nat :=
  let n := c.toNat
  if n < 0x10000 then [n]
  else [0xD800 + (n - 0x10000) / 0x400, 0xDC00 + (n - 0x10000) % 0x400]

/-- The units of a word. -/
def units (word : String) : Array Nat :=
  (word.toList.flatMap charUnits).toArray

/-! ## Distance -/

/-- One row of the table of distances between the first units of two words: that
of the first `i` units of `a`, given all rows above it. No stretch of text is
edited twice. -/
def distanceRow (a b : Array Nat) (above : Array (Array Nat)) (i : Nat) : Array Nat :=
  let distance (i j : Nat) : Nat := (above.getD i #[]).getD j 0
  (List.range' 1 b.size).foldl
    (fun row j =>
      let cost := if a[i - 1]? = b[j - 1]? then 0 else 1
      let edited := min (min (distance (i - 1) j + 1) (row.getD (j - 1) 0 + 1))
        (distance (i - 1) (j - 1) + cost)
      let exchanged := 1 < i ∧ 1 < j ∧ a[i - 1]? = b[j - 2]? ∧ a[i - 2]? = b[j - 1]?
      row.push (if exchanged then min edited (distance (i - 2) (j - 2) + 1) else edited))
    #[i]

/-- The distance of two words. Words whose lengths differ too much are not
compared and count as different throughout. -/
def wordDistance (a b : Array Nat) : Nat :=
  if a.size + maxDistance < b.size ∨ b.size + maxDistance < a.size then max a.size b.size
  else
    let rows := (List.range' 1 a.size).foldl (fun rows i => rows.push (distanceRow a b rows i))
      #[Array.range (b.size + 1)]
    (rows.getD a.size #[]).getD b.size 0

/-! ## Choice -/

/-- The distance of a word that is near enough to be suggested: some three edits,
and fewer than three fifths of the longer word. No word of one letter is. -/
def suggestible? (word known : String) : Option Nat :=
  let a := units word
  let b := units known
  let distance := wordDistance a b
  let length := max a.size b.size
  if 1 < b.size ∧ distance ≤ maxDistance ∧ 2 * length < 5 * (length - distance) then some distance
  else none

/-- The nearest of the known words, in alphabetical order. -/
def nearestWords (word : String) (known : List String) : List String :=
  let near := known.filterMap fun k => (suggestible? word k).map fun d => (k, d)
  let least := near.foldl (fun least entry => min least entry.2) maxDistance
  (near.filter fun entry => entry.2 = least).map Prod.fst |>.mergeSort fun a b => decide (a ≤ b)

/-- The part of a word after two dashes, if it starts with them. -/
def longName? (word : String) : Option String :=
  match word.toList with
  | '-' :: '-' :: name => some (String.ofList name)
  | _ => none

/-- The known words that resemble one. A word with two dashes is taken for an
option: the known words are then taken for options too, so each is compared
without its first two characters and shown behind two dashes. -/
def similar (word : String) (known : List String) : List String :=
  let known := known.eraseDups
  match longName? word with
  | some name =>
    (nearestWords name (known.map fun k => String.ofList (k.toList.drop 2))).map ("--" ++ ·)
  | none => nearestWords word known

/-- What is added to a message about an unknown word. -/
def suggestion (words : List String) : String :=
  match words with
  | [] => ""
  | [word] => s!"\n(Did you mean {word}?)"
  | words =>
    let listed := ", ".intercalate words
    s!"\n(Did you mean one of {listed}?)"

end MessageMachine.CommandLine
