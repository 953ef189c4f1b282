/-
# The program

Reads what the command asks for and writes what `MessageMachine.CommandLine`
answers. A dialogue is read line by line, so that each answer appears before the
next line is typed.
-/

import MessageMachine.CommandLine

namespace MessageMachine.Program

open CommandLine

/-- Write an output and give back its exit code. -/
def emit (o : Output) : IO UInt32 := do
  let out ← IO.getStdout
  let errors ← IO.getStderr
  out.putStr o.standard
  out.flush
  errors.putStr o.errors
  errors.flush
  return o.code

/-- Whether tracing is the default: a variable of the environment says so. -/
def tracingByDefault : IO Bool := do
  return match ← IO.getEnv "DEBUG_VM" with
    | some text => !text.isEmpty
    | none => false

/-- The text of a file, if there is one. -/
def fileText? (file : String) : IO (Option String) := do
  try
    return some (← IO.FS.readFile file)
  catch _ => return none

/-- Evaluate lines in order; gives the session and the number of the next line. -/
def answerLines (s : Session) (number : Nat) : List String → IO (Session × Nat)
  | [] => return (s, number)
  | line :: rest => do
    let (s, output) := replLine s number line
    let _ ← emit output
    answerLines s (number + 1) rest

/-- Evaluate what is typed until the input ends. -/
partial def dialogue (s : Session) (number : Nat) : IO Unit := do
  let typed ← (← IO.getStdin).getLine
  unless typed.isEmpty do
    let (s, number) ← answerLines s number (lines typed)
    dialogue s number

end MessageMachine.Program

open MessageMachine MessageMachine.CommandLine MessageMachine.Program in
def main (args : List String) : IO UInt32 := do
  let tracing ← tracingByDefault
  match Command.ofArguments args with
  | .error e => emit (.failed e.message)
  | .ok (.run file options) =>
    match ← fileText? file with
    | some source => emit (runFile options tracing file source)
    | none => emit (fileNotFound file)
  | .ok (.disassemble file) =>
    match ← fileText? file with
    | some source => emit (listFile file source)
    | none => emit (fileNotFound file)
  | .ok (.repl options) =>
    let _ ← emit (Output.empty.write prompt)
    dialogue (session options tracing) 1
    return 0
  | .ok .version => emit (Output.empty.writeLine version)
