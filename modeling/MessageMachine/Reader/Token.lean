/-
# Tokens

The text of a program is split into tokens one character at a time. Between two
characters all that matters is the `Mode`: what kind of token, if any, is being
read, where it began and what it holds so far. So reading a text and then more
text is the same as reading both together, and a token that only ends where the
next one starts needs no look ahead.
-/

import MessageMachine.Reader.Blank

namespace MessageMachine.Reader

/-! ## Places and tokens -/

/-- A line and a column, both counted from one. -/
structure Place where
  line : Nat
  column : Nat
  deriving DecidableEq, Inhabited, Repr

namespace Place

def start : Place := ⟨1, 1⟩

/-- The place after a character. -/
def advance (p : Place) (c : Char) : Place :=
  if c = '\n' then ⟨p.line + 1, 1⟩ else ⟨p.line, p.column + 1⟩

end Place

inductive Token.Kind
  | openList
  | closeList
  | quote
  | string (text : String)
  | atom (text : String)
  /-- A string that the text ends within. -/
  | unterminated
  | endOfText
  deriving DecidableEq, Repr

/-- A token and the place of its first character. -/
structure Token where
  kind : Token.Kind
  place : Place
  deriving DecidableEq, Repr

/-! ## Modes -/

/-- What is being read. The characters of a token are kept latest first. -/
inductive Mode
  | blank
  | comment
  | string (start : Place) (text : List Char)
  /-- In a string, after a backslash. -/
  | escape (start : Place) (text : List Char)
  | atom (start : Place) (text : List Char)
  /-- After a hash sign that begins an atom. -/
  | hash (start : Place)
  /-- After a hash sign and a backslash: the next character is taken as it is. -/
  | literal (start : Place)
  deriving DecidableEq, Repr

/-- The text that was read, from its characters latest first. -/
def textOf (latestFirst : List Char) : String :=
  String.ofList latestFirst.reverse

/-- What a character stands for after a backslash in a string. -/
def unescape : Char → Char
  | 'n' => '\n'
  | 't' => '\t'
  | 'r' => '\r'
  | c => c

namespace Mode

/-- A character that does not belong to a token already begun. -/
def begin (place : Place) (c : Char) : Mode × List Token :=
  if c = '(' then (blank, [⟨.openList, place⟩])
  else if c = ')' then (blank, [⟨.closeList, place⟩])
  else if c = '\'' then (blank, [⟨.quote, place⟩])
  else if c = '"' then (string place [], [])
  else if c = ';' then (comment, [])
  else if isBlank c then (blank, [])
  else if c = '#' then (hash place, [])
  else (atom place [c], [])

/-- A character that may go on with an atom, or else ends it. -/
def continueAtom (start : Place) (text : List Char) (place : Place) (c : Char) :
    Mode × List Token :=
  if isDelimiter c then
    let (mode, tokens) := begin place c
    (mode, ⟨.atom (textOf text), start⟩ :: tokens)
  else (atom start (c :: text), [])

/-- The mode after a character, and the tokens that it completes, in order. -/
def step (mode : Mode) (place : Place) (c : Char) : Mode × List Token :=
  match mode with
  | blank => begin place c
  | comment => if c = '\n' then (blank, []) else (comment, [])
  | string start text =>
    if c = '"' then (blank, [⟨.string (textOf text), start⟩])
    else if c = '\\' then (escape start text, [])
    else (string start (c :: text), [])
  | escape start text => (string start (unescape c :: text), [])
  | atom start text => continueAtom start text place c
  | hash start =>
    if c = '\\' then (literal start, []) else continueAtom start ['#'] place c
  | literal start => (atom start [c, '\\', '#'], [])

/-- The tokens that the end of the text completes. -/
def finish (mode : Mode) (place : Place) : List Token :=
  match mode with
  | blank | comment => [⟨.endOfText, place⟩]
  | string start _ | escape start _ => [⟨.unterminated, start⟩]
  | atom start text => [⟨.atom (textOf text), start⟩, ⟨.endOfText, place⟩]
  | hash start => [⟨.atom "#", start⟩, ⟨.endOfText, place⟩]
  | literal start => [⟨.atom "#\\", start⟩, ⟨.endOfText, place⟩]

end Mode

/-! ## Scanning -/

/-- A text read in part: the mode, the place of the next character, and the
tokens so far, latest first. -/
structure Scan where
  mode : Mode
  place : Place
  tokens : List Token

namespace Scan

def start : Scan := ⟨.blank, .start, []⟩

/-- Read one more character. -/
def feed (s : Scan) (c : Char) : Scan :=
  let (mode, tokens) := s.mode.step s.place c
  ⟨mode, s.place.advance c, tokens.reverse ++ s.tokens⟩

/-- All tokens, the text being at its end. -/
def finish (s : Scan) : List Token :=
  s.tokens.reverse ++ s.mode.finish s.place

end Scan

/-- The tokens of a text. The last one marks the end or an unfinished string. -/
def tokens (text : String) : List Token :=
  (text.toList.foldl Scan.feed .start).finish

end MessageMachine.Reader
