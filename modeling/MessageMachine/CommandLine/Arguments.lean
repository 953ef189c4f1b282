/-
# Command-line arguments

    run [--trace] [--disassemble] [--max-frames <n>] <file>
    disassemble <file>
    repl [--trace] [--disassemble] [--max-frames <n>]
    --version

Arguments are sorted twice. The program takes out its own options wherever they
stand; the first argument that looks like an option and is not one of them, and
everything after it, is left for the command that the first operand names.
The command sorts those in the same way by its own options. An option that takes a value
takes the next argument, whatever it looks like, or the text after an equals sign.
Flags of one letter may stand behind one dash together. Operands beyond those
wanted are ignored.
-/

import MessageMachine.Binary64
import MessageMachine.CommandLine.Suggestion
import MessageMachine.Reader.Blank

namespace MessageMachine.CommandLine

/-! ## Options -/

structure Options where
  trace : Bool
  disassemble : Bool
  maxFrames : Option Nat
  deriving DecidableEq, Inhabited, Repr

def Options.none : Options := ⟨false, false, Option.none⟩

/-- What is wrong with the arguments. An unknown word comes with the known ones
that it might have been. -/
inductive UsageError
  | unknownCommand (name : String) (known : List String)
  | unknownOption (text : String) (known : List String)
  | missingValue (option : String)
  | invalidValue (option text reason : String)
  | missingArgument (name : String)
  /-- There is nothing to do. -/
  | noCommand
  deriving DecidableEq, Repr

/-- The known options that resemble one. Only options with two dashes do, and
only such options are known for it. -/
def similarOptions (text : String) (known : List String) : List String :=
  if (longName? text).isSome then similar text (known.filter fun k => (longName? k).isSome) else []

def UsageError.message : UsageError → String
  | unknownCommand name known =>
    s!"error: unknown command '{name}'{suggestion (similar name known)}"
  | unknownOption text known =>
    s!"error: unknown option '{text}'{suggestion (similarOptions text known)}"
  | missingValue option => s!"error: option '{option}' argument missing"
  | invalidValue option text reason =>
    s!"error: option '{option}' argument '{text}' is invalid. {reason}"
  | missingArgument name => s!"error: missing required argument '{name}'"
  | noCommand => "error: missing command"

/-- What an option does to what has been gathered so far. -/
inductive Effect (α : Type)
  | flag (set : α → α)
  | value (set : α → String → Except UsageError α)

/-- An option with its spellings and its form in messages. -/
structure OptionRule (α : Type) where
  spellings : List String
  form : String
  effect : Effect α

/-! ## Sorting -/

/-- What sorting has gathered. The operands end at the first argument that is
left over. -/
structure Sorted (α : Type) where
  options : α
  operands : List String
  left : List String

namespace Sorted

/-- Add an argument that no rule applies to. -/
def add {α : Type} (s : Sorted α) (arg : String) (looksLikeOption : Bool) : Sorted α :=
  if looksLikeOption || !s.left.isEmpty then { s with left := s.left ++ [arg] }
  else { s with operands := s.operands ++ [arg] }

/-- Add everything after a double dash, which is kept if something was left
over before it. -/
def addLiteral {α : Type} (s : Sorted α) (args : List String) : Sorted α :=
  if s.left.isEmpty then { s with operands := s.operands ++ args }
  else { s with left := s.left ++ "--" :: args }

end Sorted

def looksLikeOption (arg : String) : Bool :=
  match arg.toList with
  | '-' :: _ :: _ => true
  | _ => false

def findRule {α : Type} (rules : List (OptionRule α)) (spelling : String) : Option (OptionRule α) :=
  rules.find? fun rule => rule.spellings.contains spelling

/-- An argument of the form `--name=value`, with a name. -/
def splitEquals (arg : String) : Option (String × String) :=
  match arg.toList with
  | '-' :: '-' :: rest =>
    match rest.span (· ≠ '=') with
    | (first :: name, _ :: value) =>
      some (String.ofList ('-' :: '-' :: first :: name), String.ofList value)
    | _ => none
  | _ => none

/-- Set the flags at the front of letters that stand behind one dash. The first
letter that is not a flag and those after it are left. -/
def setFlags {α : Type} (rules : List (OptionRule α)) (options : α) : List Char → α × List Char
  | [] => (options, [])
  | letter :: rest =>
    match findRule rules (String.ofList ['-', letter]) with
    | some ⟨_, _, .flag set⟩ => setFlags rules (set options) rest
    | _ => (options, letter :: rest)

/-- Set the flags that an argument begins with. What is left is an argument
behind a dash again. -/
def unbundle {α : Type} (rules : List (OptionRule α)) (options : α) (arg : String) :
    α × Option String :=
  match arg.toList with
  | '-' :: '-' :: _ => (options, some arg)
  | '-' :: first :: others =>
    match setFlags rules options (first :: others) with
    | (options, []) => (options, none)
    | (options, left) => (options, some (String.ofList ('-' :: left)))
  | _ => (options, some arg)

/-- The rule and the value of an argument of the form `--name=value`, if its option
takes one. -/
def findAssignment {α : Type} (rules : List (OptionRule α)) (arg : String) :
    Option ((α → String → Except UsageError α) × String) :=
  match splitEquals arg with
  | none => none
  | some (name, value) =>
    match findRule rules name with
    | some ⟨_, _, .value set⟩ => some (set, value)
    | _ => none

/-- Sort arguments by the rules, in order. The first error ends the sorting. -/
def sort {α : Type} (rules : List (OptionRule α)) (s : Sorted α) :
    List String → Except UsageError (Sorted α)
  | [] => .ok s
  | "--" :: rest => .ok (s.addLiteral rest)
  | given :: rest =>
    match unbundle rules s.options given with
    | (options, none) => sort rules { s with options := options } rest
    | (options, some arg) =>
      match findRule rules arg, rest with
      | some ⟨_, _, .flag set⟩, rest => sort rules { s with options := set options } rest
      | some ⟨_, form, .value _⟩, [] => .error (.missingValue form)
      | some ⟨_, _, .value set⟩, value :: rest =>
        match set options value with
        | .error e => .error e
        | .ok options => sort rules { s with options := options } rest
      | none, rest =>
        match findAssignment rules arg with
        | some (set, value) =>
          match set options value with
          | .error e => .error e
          | .ok options => sort rules { s with options := options } rest
        | none => sort rules ({ s with options := options }.add arg (looksLikeOption arg)) rest

/-! ## Values -/

/-- The integer that a text begins with, after blanks and a sign. -/
def leadingInteger? (text : String) : Option Int :=
  let trimmed := text.toList.dropWhile Reader.isBlank
  let (negative, rest) :=
    match trimmed with
    | '-' :: rest => (true, rest)
    | '+' :: rest => (false, rest)
    | rest => (false, rest)
  match rest.takeWhile Char.isDigit with
  | [] => none
  | digits =>
    let n := digits.foldl (fun n c => 10 * n + (c.toNat - '0'.toNat)) 0
    (Binary64.ofInt (if negative then -(n : Int) else n)).toInt?

/-- A positive integer. -/
def positive? (text : String) : Option Nat :=
  match leadingInteger? text with
  | some n => if 1 ≤ n then some n.toNat else none
  | none => none

/-! ## The commands -/

inductive Command
  | version
  | run (file : String) (options : Options)
  | disassemble (file : String)
  | repl (options : Options)
  deriving DecidableEq, Repr

/-- The program's own option. -/
def programRules : List (OptionRule Bool) :=
  [⟨["--version", "-V"], "-V, --version", .flag fun _ => true⟩]

def spellings {α : Type} (rules : List (OptionRule α)) : List String :=
  rules.flatMap OptionRule.spellings

/-- The options known everywhere. -/
def programOptions : List String :=
  spellings programRules ++ ["--help"]

def commandNames : List String :=
  ["run", "disassemble", "repl", "help"]

/-- The options of the commands that evaluate. -/
def evaluationRules : List (OptionRule Options) :=
  let form := "--max-frames <n>"
  [⟨["--trace"], "--trace", .flag fun o => { o with trace := true }⟩,
   ⟨["--disassemble"], "--disassemble", .flag fun o => { o with disassemble := true }⟩,
   ⟨["--max-frames"], form, .value fun o text =>
      match positive? text with
      | some n => .ok { o with maxFrames := some n }
      | none => .error (.invalidValue form text "Expected a positive integer")⟩]

/-- Sort what the program left over by a command's rules, and let the command go
on with its options and its operands. -/
def withRules {α : Type} (rules : List (OptionRule α)) (initial : α) (operands left : List String)
    (go : α → List String → Except UsageError Command) : Except UsageError Command :=
  match sort rules ⟨initial, [], []⟩ left with
  | .error e => .error e
  | .ok sorted =>
    match sorted.left with
    | unknown :: _ => .error (.unknownOption unknown (spellings rules ++ programOptions))
    | [] => go sorted.options (operands ++ sorted.operands)

/-- The file that a command needs. -/
def withFile (operands : List String) (go : String → Command) : Except UsageError Command :=
  match operands with
  | file :: _ => .ok (go file)
  | [] => .error (.missingArgument "file")

/-- The command that the arguments ask for. -/
def Command.ofArguments (args : List String) : Except UsageError Command :=
  match sort programRules ⟨false, [], []⟩ args with
  | .error e => .error e
  | .ok sorted =>
    if sorted.options then .ok .version
    else
      match sorted.operands with
      | "run" :: operands =>
        withRules evaluationRules .none operands sorted.left fun options operands =>
          withFile operands fun file => .run file options
      | "disassemble" :: operands =>
        withRules ([] : List (OptionRule Unit)) () operands sorted.left fun _ operands =>
          withFile operands .disassemble
      | "repl" :: operands =>
        withRules evaluationRules .none operands sorted.left fun options _ => .ok (.repl options)
      | name :: _ => .error (.unknownCommand name commandNames)
      | [] =>
        match sorted.left with
        | unknown :: _ => .error (.unknownOption unknown programOptions)
        | [] => .error .noCommand

end MessageMachine.CommandLine
