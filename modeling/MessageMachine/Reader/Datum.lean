/-
# Data

What a text denotes before it is in the heap: trees of pairs over atoms. The
first pair of a list and of a quotation notes the place where it began.

Tokens are read into data from left to right with a stack of unfinished
lists and quotations; no token is looked at twice. The first token that does not
fit ends the reading with an error, and what follows it does not matter.
-/

import MessageMachine.Reader.Token
import MessageMachine.Value

namespace MessageMachine.Reader

/-- A piece of data as it stands in a text. -/
inductive Datum
  | nil
  | boolean (b : Bool)
  | integer (n : Int)
  | char (c : Char)
  | symbol (name : String)
  | string (text : String)
  | pair (source : Option Place) (head tail : Datum)
  deriving DecidableEq, Inhabited, Repr

/-! ## Errors -/

/-- Why a text cannot be read. -/
inductive Reason
  | unterminatedString
  | unexpectedEnd
  | unexpectedClose
  | unexpectedDot
  | unclosedList
  | unclosedDotted
  | integerOutOfRange (text : String)
  | notAnInteger (text : String)
  | unknownCharacter (name : String)
  | invalidHash (text : String)
  | noExpression
  | manyExpressions
  /-- A character name that the table of names uses for itself. It denotes
  neither a character nor an unknown name, and no place is told. -/
  | reservedName
  deriving DecidableEq, Repr

def Reason.message : Reason → String
  | unterminatedString => "Unterminated string"
  | unexpectedEnd => "Unexpected end of input"
  | unexpectedClose => "Unexpected ')'"
  | unexpectedDot => "Unexpected '.'"
  | unclosedList => "Expected ')'"
  | unclosedDotted => "Expected ')' after the dotted tail"
  | integerOutOfRange text => s!"Integer literal out of range: {text}"
  | notAnInteger text => s!"Only integers are supported: {text}"
  | unknownCharacter name => s!"Unknown character name: {name}"
  | invalidHash text => s!"Invalid hash expression: {text}"
  | noExpression => "No expression to parse"
  | manyExpressions => "Multiple expressions found, expected one"
  | reservedName => "ch.codePointAt is not a function"

structure Fault where
  reason : Reason
  place : Place
  deriving DecidableEq, Repr

/-! ## Atoms -/

/-- An optional sign in front of a text. -/
def splitSign : List Char → Bool × List Char
  | '-' :: rest => (true, rest)
  | '+' :: rest => (false, rest)
  | text => (false, text)

/-- The number that decimal digits denote. -/
def digitsValue (digits : List Char) : Nat :=
  digits.foldl (fun n c => 10 * n + (c.toNat - '0'.toNat)) 0

/-- The integer that an atom denotes: digits after an optional sign. -/
def integer? (text : List Char) : Option Int :=
  let (negative, digits) := splitSign text
  if digits ≠ [] ∧ digits.all Char.isDigit then
    some (if negative then -(digitsValue digits : Int) else digitsValue digits)
  else none

/-- Whether an atom begins like a number: a sign and a point may come before
its first digit. -/
def looksNumeric (text : List Char) : Bool :=
  match (splitSign text).2 with
  | '.' :: c :: _ => c.isDigit
  | c :: _ => c.isDigit
  | [] => false

/-- Characters that have a name. -/
def namedChar? (name : String) : Option Char :=
  match name with
  | "space" => some ' '
  | "newline" => some '\n'
  | "tab" => some '\t'
  | "return" => some '\r'
  | _ => none

/-- Names of which the table of names has entries that are no characters. -/
def reservedNames : List String :=
  ["constructor", "__proto__"]

/-- The character after a hash sign and a backslash: itself, or a name in any
case. -/
def character (name : List Char) : Except Reason Datum :=
  match name with
  | [c] => .ok (.char c)
  | _ =>
    let lowered := String.ofList (name.map Char.toLower)
    if reservedNames.contains lowered then .error .reservedName
    else
      match namedChar? lowered with
      | some c => .ok (.char c)
      | none => .error (.unknownCharacter (String.ofList name))

/-- The datum that an atom denotes. The rules are tried in this order. -/
def atom (text : String) : Except Reason Datum :=
  let chars := text.toList
  match integer? chars with
  | some n =>
    if Value.minInteger ≤ n ∧ n ≤ Value.maxInteger then .ok (.integer n)
    else .error (.integerOutOfRange text)
  | none =>
    if looksNumeric chars then .error (.notAnInteger text)
    else
      match chars with
      | ['#', 't'] => .ok (.boolean true)
      | ['#', 'f'] => .ok (.boolean false)
      | '#' :: '\\' :: name => character name
      | '#' :: _ => .error (.invalidHash text)
      | _ => .ok (.symbol text)

/-! ## Lists -/

/-- Put items, latest first, in front of a tail. -/
def consAll (tail : Datum) (items : List Datum) : Datum :=
  items.foldl (fun rest item => .pair none item rest) tail

/-- A list whose items are given latest first, with the place of its first
pair. Without items there is no pair, and the list is its tail. -/
def listDatum (start : Place) (items : List Datum) (tail : Datum) : Datum :=
  match consAll tail items with
  | .pair source head rest => .pair (if items.isEmpty then source else some start) head rest
  | other => other

/-- A quotation. -/
def quotation (start : Place) (d : Datum) : Datum :=
  .pair (some start) (.symbol "quote") (.pair none d .nil)

/-! ## Reading tokens -/

/-- Something that has begun and waits for a datum. Items are latest first. -/
inductive Pending
  | quote (start : Place)
  | list (start : Place) (items : List Datum)
  /-- A list after its dot. -/
  | dotted (start : Place) (items : List Datum)
  deriving Repr

/-- A top-level datum and the place of its first character. -/
structure Form where
  datum : Datum
  place : Place
  deriving DecidableEq, Inhabited, Repr

/-- Tokens read in part. -/
inductive Reading
  /-- Anything may follow; the forms read are latest first. -/
  | within (pending : List Pending) (forms : List Form)
  /-- A dotted list has its tail, and only its end may follow. -/
  | closing (start : Place) (items : List Datum) (tail : Datum) (pending : List Pending)
      (forms : List Form)
  deriving Repr

namespace Reading

def start : Reading := within [] []

/-- A datum is complete; hand it to what waits for it. -/
def supply (forms : List Form) (place : Place) (d : Datum) : List Pending → Reading
  | [] => within [] (⟨d, place⟩ :: forms)
  | .quote start :: outer => supply forms start (quotation start d) outer
  | .list start items :: outer => within (.list start (d :: items) :: outer) forms
  | .dotted start items :: outer => closing start items d outer forms

/-- Read an atom. A lone dot continues a list that has items. -/
def readAtom (pending : List Pending) (forms : List Form) (place : Place) (text : String) :
    Except Reason Reading :=
  if text = "." then
    match pending with
    | .list start (item :: items) :: outer =>
      .ok (within (.dotted start (item :: items) :: outer) forms)
    | _ => .error .unexpectedDot
  else (atom text).map fun d => supply forms place d pending

/-- Read a closing parenthesis. -/
def readClose (pending : List Pending) (forms : List Form) : Except Reason Reading :=
  match pending with
  | .list start items :: outer => .ok (supply forms start (listDatum start items .nil) outer)
  | _ => .error .unexpectedClose

/-- Read one token; the end of the text must find nothing unfinished. -/
def next (r : Reading) (token : Token) : Except Reason Reading :=
  match r, token.kind with
  | _, .unterminated => .error .unterminatedString
  | closing start items tail pending forms, .closeList =>
    .ok (supply forms start (listDatum start items tail) pending)
  | closing .., _ => .error .unclosedDotted
  | within [] _, .endOfText => .ok r
  | within (.list _ _ :: _) _, .endOfText => .error .unclosedList
  | within (_ :: _) _, .endOfText => .error .unexpectedEnd
  | within pending forms, .openList => .ok (within (.list token.place [] :: pending) forms)
  | within pending forms, .quote => .ok (within (.quote token.place :: pending) forms)
  | within pending forms, .closeList => readClose pending forms
  | within pending forms, .string text => .ok (supply forms token.place (.string text) pending)
  | within pending forms, .atom text => readAtom pending forms token.place text

/-- Read tokens in order up to the first that does not fit. -/
def readAll : Reading → List Token → Except Fault Reading
  | r, [] => .ok r
  | r, token :: rest =>
    match r.next token with
    | .error reason => .error ⟨reason, token.place⟩
    | .ok r => readAll r rest

/-- The forms that have been read, in order. -/
def forms : Reading → List Form
  | within _ forms | closing _ _ _ _ forms => forms.reverse

end Reading

/-! ## Reading a text -/

/-- The forms of a text. -/
def forms (text : String) : Except Fault (List Form) :=
  (Reading.start.readAll (tokens text)).map Reading.forms

/-- The only form of a text. -/
def onlyForm (text : String) : Except Fault Form :=
  match forms text with
  | .error fault => .error fault
  | .ok [] => .error ⟨.noExpression, .start⟩
  | .ok [form] => .ok form
  | .ok (_ :: second :: _) => .error ⟨.manyExpressions, second.place⟩

end MessageMachine.Reader
