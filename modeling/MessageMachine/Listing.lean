/-
# Listings

The readable form of a method, one instruction a line:

    name (args: 0, max stack: 2, constants: 2)
    0000 LoadConstant 0    ; 3
    0002 Call 2

A constant load shows its constant, a jump its target. Methods among the
loaded constants are listed after the method that loads them, each once.
-/

import MessageMachine.Heap.Printer

namespace MessageMachine.Heap

/-- Spaces or zeros in front, up to a width. -/
def padLeft (fill : Char) (width : Nat) (text : String) : String :=
  String.ofList (List.replicate (width - text.length) fill) ++ text

/-- Spaces behind, up to a width. -/
def padRight (width : Nat) (text : String) : String :=
  text ++ String.ofList (List.replicate (width - text.length) ' ')

/-- The column at which remarks start. -/
def remarkColumn : Nat := 22

/-- The constant that an instruction loads from a method's pool. -/
def loadedConstant? (m : Method) (i : Instruction) : Option Value :=
  match i.operation with
  | .loadConstant index => m.constants[index]?
  | _ => none

/-- What is remarked after an instruction. -/
def remark? (h : Heap) (m : Method) (i : Instruction) : Option String :=
  match i.operation with
  | .loadConstant _ => (loadedConstant? m i).map h.print
  | .jump _ | .jumpIfFalse _ => some ("-> " ++ padLeft '0' 4 (toString i.jumpTarget))
  | _ => none

/-- One line of a listing. -/
def instructionLine (h : Heap) (m : Method) (i : Instruction) : String :=
  let place := padLeft '0' 4 (toString i.offset)
  let text :=
    match i.operation.operand? with
    | some operand => s!"{place} {i.operation.name} {operand}"
    | none => s!"{place} {i.operation.name}"
  match h.remark? m i with
  | some remark => s!"{padRight remarkColumn text}; {remark}"
  | none => text

/-- The first line of a method's listing. -/
def titleLine (m : Method) : String :=
  let count := m.constants.size
  s!"{m.name} (args: {m.argCount}, max stack: {m.maxStack}, constants: {count})"

/-- The methods that a method loads as constants, in the order of their loads. -/
def nestedMethods (m : Method) (instructions : List Instruction) : List (Ref .method) :=
  instructions.filterMap fun i =>
    match loadedConstant? m i with
    | some (.callable (.method r)) => some r
    | _ => none

/-- List what is pending and everything it leads to. `done` holds the methods
listed so far; every round but those that skip one lists a new method, and the
fuel is the number of rounds. -/
def listMethods (h : Heap) : Nat → List (Ref .method) → List (Ref .method) → Array String →
    Except MalformedCode (Array String)
  | _, [], _, lines => .ok lines
  | 0, _ :: _, _, lines => .ok lines
  | fuel + 1, r :: pending, done, lines =>
    if done.contains r then h.listMethods fuel pending done lines
    else
      let m := h.method r
      match Instruction.decodeAll m.code with
      | .error fault => .error fault
      | .ok instructions =>
        let gap := if lines.isEmpty then [] else [""]
        let body := instructions.map (h.instructionLine m)
        h.listMethods fuel (pending ++ nestedMethods m instructions) (r :: done)
          (lines ++ (gap ++ titleLine m :: body))

/-- An upper bound for the rounds of a listing: a method that is listed adds at
most one pending method for each of its bytes. -/
def listingRounds (h : Heap) : Nat :=
  h.methods.foldl (fun rounds m => rounds + m.code.size + 1) 1

/-- The lines of a method's listing. -/
def listingLines (h : Heap) (r : Ref .method) : Except MalformedCode (List String) :=
  (h.listMethods h.listingRounds [r] [] #[]).map Array.toList

/-- The listing of a method as one text. -/
def listing (h : Heap) (r : Ref .method) : Except MalformedCode String :=
  (h.listingLines r).map ("\n".intercalate ·)

end MessageMachine.Heap
