/-
# What was emitted is what is laid out

A sequence of directives says what is emitted and where labels are bound; what it stands
for is said here without an assembler. `Directive.emissions` lists the instructions that
are asked for and `lastPlace` the number of them before the last binding of a label. The
theorem compares the bytes with that: they split into the emitted instructions, in order,
and every jump leads to the instruction that its label was last bound before.

Operands are arbitrary numbers, as they are for the machine. One that no operand can
carry is refused when it is emitted, and so is the index of a constant, so a sequence
that was collected has none.
-/

import MessageMachine.Proofs.Assembler.Short
import MessageMachine.Proofs.Compiler.Code

namespace MessageMachine.Assembler

/-! ## Directives -/

/-- An instruction as it is asked for, with a constant in place of its index and a label in
place of a distance. -/
inductive Emission
  | nop
  | leave
  | pop
  | loadGlobal
  | defineGlobal
  | constant (v : Value)
  | loadArgument (index : Binary64)
  | call (count : Binary64)
  | jump (label : Label)
  | jumpIfFalse (label : Label)

/-- What an assembler can be told. -/
inductive Directive
  | nop
  | leave
  | pop
  | defineGlobal
  | constant (v : Value)
  | addConstant (v : Value)
  | loadGlobal (name : String)
  | loadArgument (index : Binary64)
  | call (count : Binary64)
  | send (selector : String) (count : Binary64)
  | jump (label : Label)
  | jumpIfFalse (label : Label)
  | bind (label : Label)

/-- The instructions that a directive asks for. -/
def Directive.emissions : Directive → List Emission
  | nop => [.nop]
  | leave => [.leave]
  | pop => [.pop]
  | defineGlobal => [.defineGlobal]
  | constant v => [.constant v]
  | loadGlobal name => [.constant (.symbol name), .loadGlobal]
  | loadArgument index => [.loadArgument index]
  | call count => [.call count]
  | send selector count => [.constant (.symbol selector), .call count]
  | jump label => [.jump label]
  | jumpIfFalse label => [.jumpIfFalse label]
  | addConstant _ | bind _ => []

/-- The instructions that a sequence asks for. -/
def emissions (ds : List Directive) : List Emission :=
  ds.flatMap Directive.emissions

/-- The number of instructions before the last binding of a label. -/
def lastPlace (label : Label) : List Directive → Option Nat
  | [] => none
  | d :: ds =>
    match lastPlace label ds with
    | some place => some (d.emissions.length + place)
    | none =>
      match d with
      | .bind label' => if label' = label then some 0 else none
      | _ => none

/-- Emit the load of a constant, whose index has to be one that an operand can carry. -/
def pushConstant (a : Assembler) (v : Value) : Except Leb128.Unencodable Assembler :=
  (a.addConstant v).1.emitWith .loadConstant (.ofInt (a.addConstant v).2)

/-- Follow a directive. -/
def Directive.apply (a : Assembler) : Directive → Except Leb128.Unencodable Assembler
  | nop => .ok (a.emit .nop)
  | leave => .ok (a.emit .leave)
  | pop => .ok (a.emit .pop)
  | defineGlobal => .ok (a.emit .defineGlobal)
  | constant v => a.pushConstant v
  | addConstant v => .ok (a.addConstant v).1
  | loadGlobal name => (a.pushConstant (.symbol name)).map (·.emit .loadGlobal)
  | loadArgument index => a.emitWith .loadArgument index
  | call count => a.emitWith .call count
  | send selector count => (a.pushConstant (.symbol selector)).bind (·.emitWith .call count)
  | jump label => .ok (a.emitPart (.jump label))
  | jumpIfFalse label => .ok (a.emitPart (.jumpIfFalse label))
  | bind label => .ok (a.bind label)

/-- Follow directives one after the other. -/
def collect (a : Assembler) (ds : List Directive) : Except Leb128.Unencodable Assembler :=
  ds.foldlM Directive.apply a

/-- The instruction that an emission has become in code with the given pool. A jump leads
where `goal` has its label. -/
def Emission.Reads (pool : Array Value) (goal : Label → Option Int) (i : Instruction) :
    Emission → Prop
  | nop => i.operation = .nop
  | leave => i.operation = .leave
  | pop => i.operation = .pop
  | loadGlobal => i.operation = .loadGlobal
  | defineGlobal => i.operation = .defineGlobal
  | constant v => ∃ index w, i.operation = .loadConstant index ∧ pool[index]? = some w ∧
      (v.identical v → w.identical v)
  | loadArgument index => ∃ n, i.operation = .loadArgument n ∧ index = .ofInt n
  | call count => ∃ n, i.operation = .call n ∧ count = .ofInt n
  | jump label => (∃ distance, i.operation = .jump distance) ∧ goal label = some i.jumpTarget
  | jumpIfFalse label =>
    (∃ distance, i.operation = .jumpIfFalse distance) ∧ goal label = some i.jumpTarget

/-! ## Collecting -/

/-- The part that an emission becomes. -/
def Emission.Becomes (pool : Array Value) (part : Part) : Emission → Prop
  | nop => part = .plain .nop
  | leave => part = .plain .leave
  | pop => part = .plain .pop
  | loadGlobal => part = .plain .loadGlobal
  | defineGlobal => part = .plain .defineGlobal
  | constant v => ∃ index, index < Binary64.largestExact ∧
      part = .plain (.loadConstant index) ∧ pool[index]? = some v
  | loadArgument x => ∃ n, n < Binary64.largestExact ∧
      part = .plain (.loadArgument n) ∧ x = .ofInt n
  | call x => ∃ n, n < Binary64.largestExact ∧ part = .plain (.call n) ∧ x = .ofInt n
  | jump label => part = .jump label
  | jumpIfFalse label => part = .jumpIfFalse label

/-- Only jumps become parts with a label. -/
theorem Emission.Becomes.of_label? {pool : Array Value} {part : Part} {label : Label}
    {e : Emission} (becomes : e.Becomes pool part) (jumps : part.label? = some label) :
    e = .jump label ∨ e = .jumpIfFalse label := by
  cases e with
  | nop | leave | pop | loadGlobal | defineGlobal =>
    cases becomes
    cases jumps
  | constant v =>
    obtain ⟨index, -, rfl, -⟩ := becomes
    cases jumps
  | loadArgument x | call x =>
    obtain ⟨n, -, rfl, -⟩ := becomes
    cases jumps
  | jump target =>
    cases becomes
    cases jumps
    exact .inl rfl
  | jumpIfFalse target =>
    cases becomes
    cases jumps
    exact .inr rfl

/-- Some emissions were added, and nothing else but constants. -/
structure Gains (a b : Assembler) (es : List Emission) : Prop where
  constants : ∀ (index : Nat) v, a.constants[index]? = some v → b.constants[index]? = some v
  bindings : b.bindings = a.bindings
  parts : ∃ new, b.parts.toList = a.parts.toList ++ new ∧
    List.Forall₂ (fun e part => e.Becomes b.constants part) es new

variable {a b c : Assembler} {es es' : List Emission}

theorem Emission.Becomes.mono {pool pool' : Array Value} {part : Part} {e : Emission}
    (becomes : e.Becomes pool part)
    (kept : ∀ (index : Nat) v, pool[index]? = some v → pool'[index]? = some v) :
    e.Becomes pool' part := by
  cases e with
  | constant v =>
    obtain ⟨index, small, made, there⟩ := becomes
    exact ⟨index, small, made, kept index v there⟩
  | _ => exact becomes

theorem Gains.trans (first : Gains a b es) (second : Gains b c es') : Gains a c (es ++ es') where
  constants := fun index v there => second.constants index v (first.constants index v there)
  bindings := second.bindings.trans first.bindings
  parts := by
    obtain ⟨new, added, become⟩ := first.parts
    obtain ⟨new', added', become'⟩ := second.parts
    refine ⟨new ++ new', by rw [added', added, List.append_assoc], ?_⟩
    exact List.rel_append (become.imp fun _ _ b => b.mono second.constants) become'

theorem Gains.emitPart {e : Emission} {part : Part} (becomes : e.Becomes a.constants part) :
    Gains a (a.emitPart part) [e] where
  constants := fun _ _ there => there
  bindings := rfl
  parts := ⟨[part], Array.toList_push, .cons becomes .nil⟩

/-- A constant is put into the pool, where it is found. -/
theorem gains_addConstant (a : Assembler) (v : Value) :
    Gains a (a.addConstant v).1 [] ∧
      (a.addConstant v).1.constants[(a.addConstant v).2]? = some v := by
  obtain ⟨pooled, -, parts, keeps⟩ := Emits.addConstant a v
  refine ⟨⟨keeps.constants, ?_, [], by rw [parts, List.append_nil], .nil⟩, pooled⟩
  unfold addConstant
  split <;> rfl

/-- An operand that was emitted is one that can be read. -/
theorem emitWith_eq_ok {operation : Nat → Operation} {operand : Binary64}
    (emitted : a.emitWith operation operand = .ok b) :
    ∃ n, n < Binary64.largestExact ∧ operand = .ofInt n ∧ b = a.emit (operation n) := by
  unfold emitWith Leb128.unsigned at emitted
  cases safe : operand.toSafeInteger? with
  | none =>
    rw [safe] at emitted
    cases emitted
  | some whole =>
    rw [safe] at emitted
    cases whole with
    | negSucc n => cases emitted
    | ofNat n =>
      cases emitted
      obtain ⟨same, small⟩ := Binary64.toSafeInteger?_eq_some_iff.1 safe
      exact ⟨n, Nat.lt_succ_of_le small, same, rfl⟩

/-- An index that an operand carries is not rounded. -/
theorem eq_of_ofInt_eq {index n : Nat} (small : n < Binary64.largestExact)
    (same : Binary64.ofInt (index : Int) = .ofInt n) : index = n := by
  have safe : (Binary64.ofInt (index : Int)).toSafeInteger? = some (n : Int) :=
    Binary64.toSafeInteger?_eq_some_iff.2 ⟨same, Nat.le_of_lt_succ small⟩
  have least := ((Binary64.whole_round index).toSafeInteger? safe).1
  rw [Leb128.ofInt_natCast (by omega), Leb128.ofInt_natCast (by omega)] at same
  injection same with same
  exact_mod_cast same

theorem gains_pushConstant {v : Value} (pushed : a.pushConstant v = .ok b) :
    Gains a b [.constant v] := by
  obtain ⟨gains, pooled⟩ := gains_addConstant a v
  obtain ⟨n, small, same, rfl⟩ := emitWith_eq_ok pushed
  refine gains.trans (.emitPart ⟨n, small, rfl, ?_⟩)
  rw [← eq_of_ofInt_eq small same]
  exact pooled

/-- Following a directive adds what it asks for. Only a binding moves a label. -/
theorem Directive.gains_apply {d : Directive} (followed : d.apply a = .ok b)
    (keeps : ∀ label, d ≠ .bind label) : Gains a b d.emissions := by
  cases d with
  | nop | leave | pop | defineGlobal | jump label | jumpIfFalse label =>
    cases followed
    exact .emitPart rfl
  | constant v => exact gains_pushConstant followed
  | addConstant v =>
    cases followed
    exact (gains_addConstant a v).1
  | loadGlobal name =>
    rw [apply] at followed
    cases pushed : a.pushConstant (.symbol name) with
    | error refused =>
      rw [pushed] at followed
      cases followed
    | ok between =>
      rw [pushed] at followed
      cases followed
      exact (gains_pushConstant pushed).trans (.emitPart rfl)
  | loadArgument index =>
    obtain ⟨n, small, same, rfl⟩ := emitWith_eq_ok followed
    exact .emitPart ⟨n, small, rfl, same⟩
  | call count =>
    obtain ⟨n, small, same, rfl⟩ := emitWith_eq_ok followed
    exact .emitPart ⟨n, small, rfl, same⟩
  | send selector count =>
    rw [apply] at followed
    cases pushed : a.pushConstant (.symbol selector) with
    | error refused =>
      rw [pushed] at followed
      cases followed
    | ok between =>
      rw [pushed] at followed
      obtain ⟨n, small, same, rfl⟩ := emitWith_eq_ok followed
      exact (gains_pushConstant pushed).trans (.emitPart ⟨n, small, rfl, same⟩)
  | bind label => exact absurd rfl (keeps label)

/-- What directives make of an assembler: the parts that they ask for behind those that it
has, and every label where it was last bound. -/
structure Collects (a b : Assembler) (ds : List Directive) : Prop where
  constants : ∀ (index : Nat) v, a.constants[index]? = some v → b.constants[index]? = some v
  parts : ∃ new, b.parts.toList = a.parts.toList ++ new ∧
    List.Forall₂ (fun e part => e.Becomes b.constants part) (emissions ds) new
  labels : ∀ label, b.place? label =
    ((lastPlace label ds).map (a.parts.size + ·)).or (a.place? label)

theorem collects_apply {d : Directive} (followed : d.apply a = .ok b) : Collects a b [d] := by
  have single : emissions [d] = d.emissions := List.append_nil _
  by_cases binds : ∃ label, d = .bind label
  · obtain ⟨label', rfl⟩ := binds
    cases followed
    refine ⟨fun _ _ there => there, ⟨[], (List.append_nil _).symm, .nil⟩, fun label => ?_⟩
    by_cases same : label' = label
    · subst same
      simp [lastPlace, place?_bind]
    · have apart : label'.index ≠ label.index := fun index => same (congrArg Label.mk index)
      have kept := (Keeps.bind a label' label.index (label.index + 1) (by omega)).labels
        label.index (Nat.le_refl _) (Nat.lt_succ_self _)
      simpa [lastPlace, same] using kept
  · have gains := Directive.gains_apply followed fun label same => binds ⟨label, same⟩
    refine ⟨gains.constants, single ▸ gains.parts, fun label => ?_⟩
    have unbound : lastPlace label [d] = none := by
      cases d with
      | bind label' => exact absurd ⟨label', rfl⟩ binds
      | _ => rfl
    rw [unbound]
    show b.bindings[label.index]? = a.bindings[label.index]?
    rw [gains.bindings]

theorem Collects.size {ds : List Directive} (collects : Collects a b ds) :
    b.parts.size = a.parts.size + (emissions ds).length := by
  obtain ⟨new, added, become⟩ := collects.parts
  rw [← Array.length_toList, added, List.length_append, Array.length_toList, become.length_eq]

/-- One directive before others. -/
theorem Collects.cons {d : Directive} {ds : List Directive} (first : Collects a b [d])
    (rest : Collects b c ds) : Collects a c (d :: ds) where
  constants := fun index v there => rest.constants index v (first.constants index v there)
  parts := by
    obtain ⟨new, added, become⟩ := first.parts
    obtain ⟨new', added', become'⟩ := rest.parts
    have whole : emissions (d :: ds) = emissions [d] ++ emissions ds := by
      simp [emissions]
    refine ⟨new ++ new', by rw [added', added, List.append_assoc], ?_⟩
    rw [whole]
    exact List.rel_append (become.imp fun _ _ b => b.mono rest.constants) become'
  labels := by
    intro label
    rw [rest.labels label]
    cases later : lastPlace label ds with
    | some place =>
      have length : (emissions [d]).length = d.emissions.length := by simp [emissions]
      simp only [lastPlace, later, Option.map_some, Option.some_or, first.size, length]
      rw [Nat.add_assoc]
    | none =>
      have alone : lastPlace label (d :: ds) = lastPlace label [d] := by
        simp only [lastPlace, later]
      rw [alone, ← first.labels label]
      rfl

theorem collects_of_collect {ds : List Directive} (collected : a.collect ds = .ok b) :
    Collects a b ds := by
  induction ds generalizing a with
  | nil =>
    cases collected
    exact ⟨fun _ _ there => there, ⟨[], (List.append_nil _).symm, .nil⟩, fun _ => rfl⟩
  | cons d ds ih =>
    unfold collect at collected
    rw [List.foldlM_cons] at collected
    cases followed : d.apply a with
    | error refused =>
      rw [followed] at collected
      cases collected
    | ok between =>
      rw [followed] at collected
      exact (collects_apply followed).cons (ih collected)

/-! ## Places of labels -/

theorem lastPlace_le {label : Label} {ds : List Directive} {place : Nat}
    (found : lastPlace label ds = some place) : place ≤ (emissions ds).length := by
  induction ds generalizing place with
  | nil => cases found
  | cons d ds ih =>
    have whole : (emissions (d :: ds)).length = d.emissions.length + (emissions ds).length := by
      simp [emissions]
    rw [whole]
    unfold lastPlace at found
    split at found
    next later there =>
      cases found
      exact Nat.add_le_add_left (ih there) _
    next =>
      split at found
      · split at found
        · cases found
          exact Nat.zero_le _
        · cases found
      · cases found

theorem exists_lastPlace {label : Label} {ds : List Directive} (binds : .bind label ∈ ds) :
    ∃ place, lastPlace label ds = some place := by
  induction ds with
  | nil => cases binds
  | cons d ds ih =>
    cases later : lastPlace label ds with
    | some place =>
      simp only [lastPlace, later]
      exact ⟨_, rfl⟩
    | none =>
      rcases List.mem_cons.1 binds with rfl | there
      · simp only [lastPlace, later, if_pos]
        exact ⟨0, rfl⟩
      · obtain ⟨place, found⟩ := ih there
        rw [found] at later
        cases later

/-- Only a jump asks for a jump. -/
theorem mem_of_mem_emissions {label : Label} {ds : List Directive} :
    (.jump label ∈ emissions ds → .jump label ∈ ds) ∧
      (.jumpIfFalse label ∈ emissions ds → .jumpIfFalse label ∈ ds) := by
  unfold emissions
  constructor <;>
  · intro asked
    obtain ⟨d, there, here⟩ := List.mem_flatMap.1 asked
    cases d <;> simp [Directive.emissions] at here
    subst here
    exact there

/-! ## Collected code -/

section

variable {name : String} {argCount : Int} {source : Option Location} {ds : List Directive}

/-- An assembler that was made by following directives from the beginning. -/
structure Collected (a : Assembler) (ds : List Directive) : Prop where
  become : List.Forall₂ (fun e part => e.Becomes a.constants part) (emissions ds) a.parts.toList
  labels : ∀ label, a.place? label = lastPlace label ds

theorem collected_of_collect (followed : (create name argCount source).collect ds = .ok a) :
    Collected a ds := by
  have collects := collects_of_collect followed
  obtain ⟨new, added, become⟩ := collects.parts
  have parts : a.parts.toList = new := added
  refine ⟨parts ▸ become, fun label => ?_⟩
  rw [collects.labels label]
  have unbound : (create name argCount source).place? label = none := Std.TreeMap.getElem?_emptyc
  rw [unbound, Option.or_none]
  cases lastPlace label ds with
  | none => rfl
  | some place => exact congrArg some (Nat.zero_add place)

namespace Collected

variable {place : Nat} {part : Part} {label : Label}

theorem size (collected : Collected a ds) : a.parts.size = (emissions ds).length := by
  rw [← Array.length_toList, collected.become.length_eq]

theorem placed (collected : Collected a ds) : a.Placed := by
  intro label goal found
  rw [collected.labels] at found
  rw [collected.size]
  exact lastPlace_le found

/-- A part was asked for. -/
theorem exists_emission (collected : Collected a ds) (here : a.parts[place]? = some part) :
    ∃ e, (emissions ds)[place]? = some e ∧ e.Becomes a.constants part := by
  obtain ⟨inside, there⟩ := Array.getElem?_eq_some_iff.1 here
  have lt : place < (emissions ds).length := collected.size ▸ inside
  have becomes := collected.become.get lt (by simpa using inside)
  refine ⟨_, List.getElem?_eq_getElem lt, ?_⟩
  simpa [there] using becomes

/-- Every label that is jumped to is bound. -/
theorem allBound (collected : Collected a ds)
    (bound : ∀ label, .jump label ∈ ds ∨ .jumpIfFalse label ∈ ds → .bind label ∈ ds) :
    a.allBound = true := by
  unfold Assembler.allBound
  rw [Array.all_eq_true]
  intro place inside
  obtain ⟨e, asked, becomes⟩ := collected.exists_emission (Array.getElem?_eq_getElem inside)
  have asked' := List.mem_of_getElem? asked
  generalize a.parts[place] = part at becomes
  cases jumps : part.label? with
  | none => rfl
  | some label =>
    have there : .jump label ∈ ds ∨ .jumpIfFalse label ∈ ds := by
      rcases becomes.of_label? jumps with rfl | rfl
      · exact .inl (mem_of_mem_emissions.1 asked')
      · exact .inr (mem_of_mem_emissions.2 asked')
    obtain ⟨goal, found⟩ := exists_lastPlace (bound label there)
    simp only [collected.labels label, found, Option.isSome_some]

/-- The operations of short code can all be read. -/
theorem readable (collected : Collected a ds) (short : total a.sizes < 2 ^ 31) :
    ∀ op ∈ (a.operations a.sizes).toList, op.Readable := by
  refine readable_of_parts collected.placed short fun place op here => ?_
  obtain ⟨e, -, becomes⟩ := collected.exists_emission here
  cases e with
  | nop | leave | pop | loadGlobal | defineGlobal =>
    cases becomes
    trivial
  | constant v =>
    obtain ⟨index, small, same, -⟩ := becomes
    cases same
    exact small
  | loadArgument x | call x =>
    obtain ⟨n, small, same, -⟩ := becomes
    cases same
    exact small
  | jump target | jumpIfFalse target => cases becomes

end Collected

/-- The offset that a label leads to: that of the instruction it was last bound before, or
the end of the code. -/
def goalOf (ds : List Directive) (listed : List Instruction) (code : Code) (label : Label) :
    Option Int :=
  (lastPlace label ds).map fun place => ((listed[place]?.map (·.offset)).getD code.size : Nat)

/-- An emission reads as the operation that its part resolves to. -/
theorem Emission.Becomes.reads {pool : Array Value} {goal : Label → Option Int} {e : Emission}
    {part : Part} {i : Instruction} {sizes places : Array Nat} {place : Nat}
    (becomes : e.Becomes pool part) (operation : i.operation = a.resolve sizes places place part)
    (jumps : ∀ label, part.label? = some label → goal label = some i.jumpTarget) :
    e.Reads pool goal i := by
  cases e with
  | nop | leave | pop | loadGlobal | defineGlobal =>
    cases becomes
    exact operation
  | constant v =>
    obtain ⟨index, -, rfl, there⟩ := becomes
    exact ⟨index, v, operation, there, id⟩
  | loadArgument x | call x =>
    obtain ⟨n, -, rfl, same⟩ := becomes
    exact ⟨n, operation, same⟩
  | jump target | jumpIfFalse target =>
    cases becomes
    exact ⟨⟨_, operation⟩, jumps target rfl⟩

/-- The offset of an instruction, or of the end, is where the operations up to there end. -/
theorem offset_inSequence (ops : List Operation) {place : Nat} (le : place ≤ ops.length) :
    (((Instruction.inSequence 0 ops)[place]?.map (·.offset)).getD
      (ops.flatMap Operation.encode).length) = Instruction.startOf ops place := by
  rw [Instruction.getElem?_inSequence]
  cases there : ops[place]? with
  | some op => simp
  | none =>
    have last : place = ops.length := Nat.le_antisymm le (List.getElem?_eq_none_iff.1 there)
    rw [last, Instruction.startOf, List.take_length]
    rfl

namespace Collected

theorem length_operations (collected : Collected a ds) :
    (a.operations a.sizes).toList.length = (emissions ds).length := by
  rw [← collected.size]
  simp [operations]

/-- The code of short sequences is laid out, and takes what was settled. -/
theorem layout_eq (collected : Collected a ds)
    (bound : ∀ label, .jump label ∈ ds ∨ .jumpIfFalse label ∈ ds → .bind label ∈ ds)
    (short : total a.sizes < 2 ^ 31) :
    a.layout = .ok ((a.operations a.sizes).toList.flatMap Operation.encode).toArray ∧
      ((a.operations a.sizes).toList.flatMap Operation.encode).length = total a.sizes :=
  layout_of_short collected.placed (collected.allBound bound) short

/-- The instruction at a place is the one that was asked for. -/
theorem reads (collected : Collected a ds)
    (bound : ∀ label, .jump label ∈ ds ∨ .jumpIfFalse label ∈ ds → .bind label ∈ ds)
    (short : total a.sizes < 2 ^ 31) {place : Nat} {e : Emission} {i : Instruction}
    (asked : (emissions ds)[place]? = some e)
    (listed : (Instruction.inSequence 0 (a.operations a.sizes).toList)[place]? = some i) :
    e.Reads a.constants (goalOf ds (Instruction.inSequence 0 (a.operations a.sizes).toList)
      ((a.operations a.sizes).toList.flatMap Operation.encode).toArray) i := by
  have inside : place < a.parts.size :=
    collected.size ▸ (List.getElem?_eq_some_iff.1 asked).1
  have here := Array.getElem?_eq_getElem inside
  have resolved : (a.operations a.sizes).toList[place]? =
      some (a.resolve a.sizes (offsets a.sizes) place a.parts[place]) := by
    rw [Array.getElem?_toList, operations, Array.getElem?_mapIdx, here]
    rfl
  rw [Instruction.getElem?_inSequence, resolved, Option.map_some, Nat.zero_add,
    Nat.zero_add] at listed
  cases listed
  obtain ⟨e', asked', becomes⟩ := collected.exists_emission here
  obtain rfl : e = e' := Option.some.inj (asked.symm.trans asked')
  have mem := List.mem_of_getElem? asked
  refine becomes.reads rfl fun label jumps => ?_
  have jumped : .jump label ∈ ds ∨ .jumpIfFalse label ∈ ds := by
    rcases becomes.of_label? jumps with rfl | rfl
    · exact .inl (mem_of_mem_emissions.1 mem)
    · exact .inr (mem_of_mem_emissions.2 mem)
  obtain ⟨goal, found⟩ := exists_lastPlace (bound label jumped)
  have placed : a.place? label = some goal := (collected.labels label).trans found
  have within := collected.placed label goal placed
  have le : goal ≤ (a.operations a.sizes).toList.length := by
    rw [collected.length_operations, ← collected.size]
    exact within
  have settled := map_operations_sizes collected.placed short
  rw [goalOf, found, jumpTarget_eq settled short here jumps placed within rfl rfl, Option.map_some,
    List.size_toArray, offset_inSequence _ le]

end Collected

/-- Every sequence of directives in which the labels of jumps are bound is laid out, if its
code has fewer than `2 ^ 31` bytes: any number of rounds that is large enough gives the
same sizes, which no other round would change, and the bytes split into the emitted
instructions in order. A constant is found in the pool under the index that its
instruction has, and a jump leads where its label was last bound. -/
theorem layout_of_collect
    (followed : (create name argCount source).collect ds = .ok a)
    (bound : ∀ label, .jump label ∈ ds ∨ .jumpIfFalse label ∈ ds → .bind label ∈ ds)
    (short : total a.sizes < 2 ^ 31) :
    (∀ rounds, 8 * a.parts.size + 1 ≤ rounds → a.settle rounds a.initialSizes = a.sizes) ∧
      a.grow a.sizes = a.sizes ∧
      ∃ code listed, a.layout = .ok code ∧ code.size = total a.sizes ∧
        Instruction.decodeAll code = .ok listed ∧
        List.Forall₂ (fun e i => e.Reads a.constants (goalOf ds listed code) i)
          (emissions ds) listed := by
  have collected := collected_of_collect followed
  have fixed := grow_sizes collected.placed short
  obtain ⟨laid, size⟩ := collected.layout_eq bound short
  refine ⟨fun rounds enough => settle_of_le fixed enough, fixed, _, _, laid, size,
    Instruction.decodeAll_of_readable (collected.readable short) rfl,
    List.forall₂_iff_get.2 ⟨?_, fun place lt lt' => ?_⟩⟩
  · rw [Instruction.length_inSequence, collected.length_operations]
  · exact collected.reads bound short (List.getElem?_eq_getElem lt) (List.getElem?_eq_getElem lt')

end

/-- A loop with a way out, an endless loop inside, and a label that is bound twice. -/
def loop : List Directive :=
  [.bind ⟨0⟩, .constant (.integer 7), .jumpIfFalse ⟨1⟩, .bind ⟨1⟩, .bind ⟨2⟩, .jump ⟨2⟩,
    .jump ⟨0⟩, .jumpIfFalse ⟨1⟩, .bind ⟨1⟩, .constant (.integer 7), .leave]

/-- The sequence meets all that the theorem asks for. -/
theorem layout_loop : ∃ a, (create "loop" 0 none).collect loop = .ok a ∧
    (∀ label, .jump label ∈ loop ∨ .jumpIfFalse label ∈ loop → .bind label ∈ loop) ∧
      total a.sizes < 2 ^ 31 ∧ a.grow a.sizes = a.sizes ∧
        ∃ code listed, a.layout = .ok code ∧ Instruction.decodeAll code = .ok listed ∧
          List.Forall₂ (fun e i => e.Reads a.constants (goalOf loop listed code) i)
            (emissions loop) listed := by
  have small : ((create "loop" 0 none).collect loop).toOption.any
      (fun a => decide (total a.sizes < 2 ^ 31)) = true := by
    decide +kernel
  cases followed : (create "loop" 0 none).collect loop with
  | error refused =>
    rw [followed] at small
    cases small
  | ok a =>
    rw [followed] at small
    have short : total a.sizes < 2 ^ 31 := of_decide_eq_true small
    have each : ∀ d ∈ loop, ∀ label, d = .jump label ∨ d = .jumpIfFalse label →
        .bind label ∈ loop := by
      simp [loop]
    have bound (label : Label) (jumped : .jump label ∈ loop ∨ .jumpIfFalse label ∈ loop) :
        .bind label ∈ loop :=
      jumped.elim (each _ · label (.inl rfl)) (each _ · label (.inr rfl))
    obtain ⟨-, fixed, code, listed, laid, -, split, reads⟩ :=
      layout_of_collect followed bound short
    exact ⟨a, rfl, bound, short, fixed, code, listed, laid, split, reads⟩

end MessageMachine.Assembler
