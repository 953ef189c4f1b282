/-
# Diagnostics

Problems that do not stop the host are reported, not raised: an unbound global,
a message nobody understands, an execution that had to be given up. A report
has a kind, a text, and a place in the source if one is known.
-/

namespace MessageMachine

/-- A place in a source text. The reader counts lines and columns from one; a
host may give any numbers. -/
structure Location where
  file : String
  line : Int
  column : Int
  deriving DecidableEq, Inhabited, Repr

def Location.toText (l : Location) : String :=
  s!"{l.file}:{l.line}:{l.column}"

namespace Diagnostic

inductive Kind
  | undefinedIdentifier
  | messageNotUnderstood
  | arityMismatch
  | primitiveFailed
  | malformedBytecode
  | resourceExhausted
  | trace
  deriving DecidableEq, Repr

/-- The name under which a kind is reported. -/
def Kind.name : Kind → String
  | undefinedIdentifier => "undefined-identifier"
  | messageNotUnderstood => "message-not-understood"
  | arityMismatch => "arity-mismatch"
  | primitiveFailed => "primitive-failed"
  | malformedBytecode => "malformed-bytecode"
  | resourceExhausted => "resource-exhausted"
  | trace => "trace"

end Diagnostic

structure Diagnostic where
  kind : Diagnostic.Kind
  message : String
  location : Option Location
  deriving DecidableEq, Repr

/-- The text of a diagnostic on the error channel. A trace line is not an
error, and the place of any other is on a line of its own. -/
def Diagnostic.format (d : Diagnostic) : String :=
  let start := if d.kind = .trace then "[trace]" else "Error:"
  match d.location with
  | some l => s!"{start} {d.message}\n  location: {l.toText}"
  | none => s!"{start} {d.message}"

end MessageMachine
