/-
# The command line program

What the program writes and how it exits, as a function of its arguments, the
texts it is given and one setting of its surroundings. Results go to the standard output,
diagnostics and errors to the error output, each ending its line.
-/

import MessageMachine.CommandLine.Arguments
import MessageMachine.Session

namespace MessageMachine.CommandLine

def version : String := "0.1.0"

/-- What has been written, and the exit code. -/
structure Output where
  standard : String
  errors : String
  code : UInt32
  deriving DecidableEq, Inhabited, Repr

namespace Output

def empty : Output := ⟨"", "", 0⟩

def write (o : Output) (text : String) : Output :=
  { o with standard := o.standard ++ text }

def writeLine (o : Output) (text : String) : Output :=
  o.write (text ++ "\n")

def errorLine (o : Output) (text : String) : Output :=
  { o with errors := o.errors ++ text ++ "\n" }

/-- Write out one event. -/
def event (o : Output) : Session.Event → Output
  | .reported d => o.errorLine d.format
  | .wrote text => o.writeLine text

def append (o p : Output) : Output :=
  ⟨o.standard ++ p.standard, o.errors ++ p.errors, p.code⟩

/-- An error message, and the exit code of failure. -/
def failed (message : String) : Output :=
  { empty.errorLine message with code := 1 }

end Output

/-! ## Sessions -/

/-- The session that options ask for; `tracing` is the default for tracing. -/
def session (options : Options) (tracing : Bool) : Session :=
  let standard := Settings.standard
  let settings : Settings :=
    { standard with
      trace := options.trace || tracing
      maxFrames := (options.maxFrames.map Int.ofNat).getD standard.maxFrames }
  .create settings options.disassemble

/-- Evaluate a text and write out everything. The failure, if there is one, is
told last. -/
def evaluate (s : Session) (source file : String) : Session × Output :=
  let outcome := s.evaluateAndPrint Machine.ampleFuel source file
  let output := outcome.events.foldl Output.event .empty
  match outcome.result with
  | .ok () => (outcome.session, output)
  | .error failure =>
    (outcome.session, { output.errorLine s!"Error: {failure.message}" with code := 1 })

/-! ## Commands -/

/-- Run a source file. -/
def runFile (options : Options) (tracing : Bool) (file source : String) : Output :=
  (evaluate (session options tracing) source file).2

/-- List the programs of a source file, an empty line between them. -/
def listFile (file source : String) : Output :=
  match (session .none false).listings source file with
  | .ok texts => Output.empty.writeLine ("\n\n".intercalate texts)
  | .error failure => .failed s!"Error: {failure.message}"

def fileNotFound (file : String) : Output :=
  .failed s!"Error: File not found: {file}"

def prompt : String := "> "

/-- Evaluate one line of a dialogue, the line number naming its source. A
failure is told, and the dialogue goes on with the next prompt. -/
def replLine (s : Session) (number : Nat) (line : String) : Session × Output :=
  let (s, output) := evaluate s line s!"<repl:{number}>"
  (s, { output.write prompt with code := 0 })

/-- Evaluate the lines of a dialogue, after what has been written. -/
def replLines (s : Session) (number : Nat) (written : Output) : List String → Output
  | [] => written
  | line :: rest =>
    let (s, output) := replLine s number line
    replLines s (number + 1) (written.append output) rest

/-- Split off lines, the characters of the line begun being latest first. A
carriage return with a line feed ends one line, and so does either alone. Text
after the last line end is a line as well. -/
def linesFrom (begun : List Char) : List Char → List String
  | [] => if begun.isEmpty then [] else [String.ofList begun.reverse]
  | '\r' :: '\n' :: rest => String.ofList begun.reverse :: linesFrom [] rest
  | c :: rest =>
    if c = '\n' ∨ c = '\r' then String.ofList begun.reverse :: linesFrom [] rest
    else linesFrom (c :: begun) rest

/-- The lines of a text. -/
def lines (text : String) : List String :=
  linesFrom [] text.toList

/-- A dialogue, from the text that is typed. -/
def repl (options : Options) (tracing : Bool) (typed : String) : Output :=
  replLines (session options tracing) 1 (Output.empty.write prompt) (lines typed)

/-- Perform a command, given the texts of files and the typed text. -/
def perform (tracing : Bool) (readFile : String → Option String) (typed : String) :
    Command → Output
  | .version => Output.empty.writeLine version
  | .run file options =>
    match readFile file with
    | some source => runFile options tracing file source
    | none => fileNotFound file
  | .disassemble file =>
    match readFile file with
    | some source => listFile file source
    | none => fileNotFound file
  | .repl options => repl options tracing typed

/-- The whole program. -/
def main (args : List String) (tracing : Bool) (readFile : String → Option String)
    (typed : String) : Output :=
  match Command.ofArguments args with
  | .error e => .failed e.message
  | .ok command => perform tracing readFile typed command

end MessageMachine.CommandLine
