/-
# What primitives can do

The names of the native behaviours, without their meaning. A primitive record in
the heap carries one of them; `MessageMachine.Machine.perform` gives each its
effect on a machine. Besides the standard behaviours there are a few by which a
host looks at a running machine or enters it again.
-/

namespace MessageMachine

/-- Integer operations whose result must fit an immediate. -/
inductive Arithmetic
  | add | subtract | multiply
  deriving DecidableEq, Repr

/-- Integer operations that refuse a zero divisor. -/
inductive Division
  | quotient | modulo
  deriving DecidableEq, Repr

inductive Comparison
  | less | greater | lessEqual | greaterEqual
  deriving DecidableEq, Repr

/-- Behaviours that a host adds. -/
inductive HostBehaviour
  /-- Fails in the host. -/
  | explode
  /-- Reports a failure and answers nil. -/
  | decline
  /-- Answers the list of its arguments. -/
  | arguments
  /-- Answers the number of active frames. -/
  | frameDepth
  /-- Answers the operand depth of the innermost frame. -/
  | operandDepth
  /-- Answers the method name and instruction pointer of each frame. -/
  | backtrace
  /-- Runs its argument as a program. -/
  | execute
  /-- Sends a message given as receiver, selector and arguments. -/
  | resend
  deriving DecidableEq, Repr

inductive Behaviour
  -- Any value
  | identical | equal | printed | classOf | isNil | cons | respondsTo | getSlot | setSlot
  -- Integers
  | arithmetic (op : Arithmetic)
  | division (op : Division)
  | comparison (op : Comparison)
  -- Nil, booleans, characters, symbols, strings
  | always (answer : Bool)
  | negation | charCode | symbolName | stringLength | concat | intern
  -- Pairs
  | head | tail | setHead | setTail
  -- Functions and classes
  | apply | newInstance | subclass | installMethod | className | baseClass
  | host (behaviour : HostBehaviour)
  deriving DecidableEq, Repr

end MessageMachine
