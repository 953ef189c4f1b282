import MessageMachine.Binary64
import MessageMachine.Binary64.Text
import MessageMachine.Operation
import MessageMachine.MalformedCode
import MessageMachine.Leb128
import MessageMachine.Instruction
import MessageMachine.Heap
import MessageMachine.Heap.List
import MessageMachine.Heap.Equality
import MessageMachine.Heap.Printer
import MessageMachine.Environment
import MessageMachine.StackDepth
import MessageMachine.Assembler
import MessageMachine.Listing
import MessageMachine.Image
import MessageMachine.Image.Standard
import MessageMachine.Machine
import MessageMachine.Machine.Primitive
import MessageMachine.Machine.Step
import MessageMachine.Reader.Blank
import MessageMachine.Reader.Token
import MessageMachine.Reader.Datum
import MessageMachine.Heap.Store
import MessageMachine.Expr
import MessageMachine.Expr.Code
import MessageMachine.Session
import MessageMachine.CommandLine.Arguments
import MessageMachine.CommandLine
import MessageMachine.Main
import MessageMachine.Proofs.Machine.Window
import MessageMachine.Proofs.Machine.Primitive
import MessageMachine.Proofs.Machine.Transition
import MessageMachine.Proofs.Machine.Inversion
import MessageMachine.Proofs.Machine.Reachable
import MessageMachine.Proofs.Machine.Invariant
import MessageMachine.Proofs.Machine.Shift
import MessageMachine.Proofs.Ownership
import MessageMachine.Proofs.Machine.Failure
import MessageMachine.Proofs.Machine.Representation
import MessageMachine.Proofs.Machine.Entry
import MessageMachine.Proofs.StackDepth.Closure
import MessageMachine.Proofs.StackDepth.Soundness
import MessageMachine.Proofs.Binary64
import MessageMachine.Proofs.Handle
import MessageMachine.Proofs.Heap.Equality
import MessageMachine.Proofs.Heap.Printer
import MessageMachine.Proofs.Leb128
import MessageMachine.Proofs.Layout
import MessageMachine.Proofs.Assembler.Decoding
import MessageMachine.Proofs.Assembler.Growth
import MessageMachine.Proofs.Assembler.Collection
import MessageMachine.Proofs.Compiler.Evaluation
import MessageMachine.Proofs.Compiler.Code
import MessageMachine.Proofs.Compiler.Reading
import MessageMachine.Proofs.Compiler.Primitive
import MessageMachine.Proofs.Machine.Code
import MessageMachine.Proofs.Machine.Effect
import MessageMachine.Proofs.Compiler.Run
import MessageMachine.Proofs.Compiler.Instruction
import MessageMachine.Proofs.Compiler.Activation
import MessageMachine.Proofs.Compiler.Simulation
import MessageMachine.Proofs.Compiler.Workspace
import MessageMachine.Proofs.Compiler.Correctness
import MessageMachine.Proofs.Compiler.Safety
import MessageMachine.Proofs.Compiler.Request
import MessageMachine.Proofs.Compiler.Conduct
import MessageMachine.Proofs.Compiler.Forward
import MessageMachine.Proofs.Compiler.Termination
import MessageMachine.Proofs.Session.Reachable
import MessageMachine.Proofs.Session.Safety
import MessageMachine.Proofs.Session.Termination
import MessageMachine.Proofs.Binary64.Grid
import MessageMachine.Proofs.Leb128.Signed
import MessageMachine.Proofs.Leb128.Unsigned
import MessageMachine.Proofs.Reader.Lexing
import MessageMachine.Proofs.Reader.Atom
import MessageMachine.Proofs.Reader.Grammar
import MessageMachine.Proofs.Heap.Unfolding
import MessageMachine.Proofs.Heap.Text
import MessageMachine.Proofs.Reader.Correctness
import MessageMachine.Proofs.Reader.RoundTrip
import MessageMachine.Proofs.StackDepth.Exactness
import MessageMachine.Proofs.Heap.Relocation
import MessageMachine.Proofs.Machine.Relocation
import MessageMachine.Proofs.Machine.Lockstep
import MessageMachine.Proofs.Machine.Parallel
import MessageMachine.Proofs.Machine.Surroundings
import MessageMachine.Proofs.Machine.Ending
import MessageMachine.Proofs.Machine.Dispatch
import MessageMachine.Proofs.Compiler.Relocation
import MessageMachine.Proofs.Session.Relocation
import MessageMachine.Proofs.Session.Dialogue
import MessageMachine.Proofs.Heap.Bisimilarity
import MessageMachine.Proofs.Machine.Observation
import MessageMachine.Proofs.Listing
import MessageMachine.Proofs.Session.Observation
import MessageMachine.Proofs.Image.Sharing
import MessageMachine.Proofs.Binary64.Quotient
import MessageMachine.Proofs.Machine.Guard
import MessageMachine.Proofs.Machine.Arithmetic
import MessageMachine.Proofs.Assembler.Short
import MessageMachine.Proofs.Heap.Acyclic
import MessageMachine.Proofs.Compiler.Balance
import MessageMachine.Proofs.Compiler.Finish
import MessageMachine.Proofs.Compiler.Emission
import MessageMachine.Proofs.Compiler.Acceptance
import MessageMachine.Proofs.Heap.Renaming
import MessageMachine.Proofs.Heap.Mirroring
import MessageMachine.Proofs.Heap.Copy
import MessageMachine.Proofs.Machine.Mirroring
import MessageMachine.Proofs.Machine.Tandem
import MessageMachine.Proofs.Compiler.Renaming
import MessageMachine.Proofs.Session.Mirroring
import MessageMachine.Proofs.Session.Stages
import MessageMachine.Proofs.Heap.Outline
import MessageMachine.Proofs.Environment.Stack
import MessageMachine.Proofs.Environment.Chain
import MessageMachine.Proofs.Environment.Refinement
import MessageMachine.Proofs.Heap.Making
import MessageMachine.Proofs.Reader.Location
import MessageMachine.Proofs.Reader.Composition
import MessageMachine.Proofs.Image.Growth
import MessageMachine.Proofs.Machine.Instances
import MessageMachine.Proofs.Session.Moment
import MessageMachine.Proofs.Session.Nil
