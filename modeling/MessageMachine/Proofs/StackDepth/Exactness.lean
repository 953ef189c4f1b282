/-
# What the analysis accepts

The analysis accepts a string of bytes exactly when it splits into instructions to which
depths can be assigned: 0 at the beginning, every reachable instruction within its
limits, and the depth that an instruction leaves at each of its successors. The capacity
that it answers is the largest depth before or after a reachable instruction.

Depths are assigned here without a worklist. `Reaches` says where control can get to,
`Balances` what an assignment has to satisfy and `Needs` which capacity comes of it.
A walk may then visit what is pending in any order. `Walks` leaves the choice open, and
both halves of the argument are about every walk: a walk that is over has recorded an
assignment, and where there is an assignment no visit is refused. So no order can find
anything else, and since a visit uses up an instruction none goes on for ever.
-/

import Mathlib.Order.Bounds.Basic
import Mathlib.Order.MinMax
import MessageMachine.Proofs.StackDepth.Closure

namespace MessageMachine.StackDepth

/-! ## Assignments of depths -/

/-- The places that control gets to from the beginning of some instructions. The last
ones may lie anywhere. -/
inductive Reaches (listed : List Instruction) : Int → Prop
  | start : Reaches listed 0
  | flow {i : Instruction} {target : Int} :
      Reaches listed i.offset → i ∈ listed → target ∈ i.successors → Reaches listed target

/-- With the depths assigned to places, every instruction that control gets to can be
executed, and control gets to nothing else. -/
structure Balances (listed : List Instruction) (constantCount argCount : Int)
    (depth : Int → Nat) : Prop where
  start : depth 0 = 0
  boundary : ∀ place, Reaches listed place → ∃ i ∈ listed, (i.offset : Int) = place
  constant : ∀ i ∈ listed, Reaches listed i.offset →
    ∀ index, i.operation = .loadConstant index → (index : Int) < constantCount
  argument : ∀ i ∈ listed, Reaches listed i.offset →
    ∀ index, i.operation = .loadArgument index → (index : Int) < argCount
  call : ∀ i ∈ listed, Reaches listed i.offset → ∀ count, i.operation = .call count → 1 ≤ count
  covered : ∀ i ∈ listed, Reaches listed i.offset → i.operation.pops ≤ depth i.offset
  flow : ∀ i ∈ listed, Reaches listed i.offset → ∀ target ∈ i.successors,
    depth target = depth i.offset - i.operation.pops + i.operation.pushes

/-- The depths before and after the instructions that control gets to. -/
def Depths (listed : List Instruction) (depth : Int → Nat) : Set Nat :=
  {d | ∃ i ∈ listed, Reaches listed i.offset ∧
    (d = depth i.offset ∨ d = depth i.offset - i.operation.pops + i.operation.pushes)}

/-- Depths can be assigned to the instructions of some code, and the largest is `capacity`. -/
def Needs (code : Code) (constantCount argCount : Int) (capacity : Nat) : Prop :=
  code ≠ #[] ∧ ∃ listed, Instruction.decodeAll code = .ok listed ∧
    ∃ depth, Balances listed constantCount argCount depth ∧
      IsGreatest (Depths listed depth) capacity

/-! ## Walks in any order -/

/-- A visit to any of the instructions that are pending. -/
inductive Visits (s : Subject) (w : Walk) : Except MalformedCode Walk → Prop
  | intro {before rest : List (Instruction × Nat)} {i : Instruction} {depth : Nat} :
      w.pending = before ++ (i, depth) :: rest →
      Visits s w (visit s i depth { w with pending := before ++ rest })

/-- What a walk may have come to after a number of visits, in whatever order they are made. -/
inductive Walks (s : Subject) (w : Walk) : Nat → Except MalformedCode Walk → Prop
  | here : Walks s w 0 (.ok w)
  | visit {visits : Nat} {w' : Walk} {outcome : Except MalformedCode Walk} :
      Walks s w visits (.ok w') → Visits s w' outcome → Walks s w (visits + 1) outcome

/-- A walk is over when an instruction was refused or nothing is pending. -/
def Over : Except MalformedCode Walk → Prop
  | .ok w => w.pending = []
  | .error _ => True

variable {s : Subject} {listed : List Instruction} {w w' : Walk}
  {outcome : Except MalformedCode Walk} {visits : Nat}

/-- Whatever walks so far keep, a walk that has not been refused has kept. -/
theorem Walks.kept {P : Nat → Walk → Prop} (walks : Walks s w visits (.ok w')) (first : P 0 w)
    (next : ∀ visits v v', P visits v → Visits s v (.ok v') → P (visits + 1) v') : P visits w' := by
  generalize same : Except.ok w' = outcome at walks
  induction walks generalizing w' with
  | here =>
    cases same
    exact first
  | visit _ visited ih =>
    subst same
    exact next _ _ _ (ih rfl) visited

/-- Every walk, refused or not, makes no more visits than were to be made, and as long as it
is not refused everything recorded has been visited or will be. -/
theorem Walks.closing (table : Tabulates s listed) (closing : Closing s w)
    (walks : Walks s w visits (.ok w')) :
    Closing s w' ∧
      w'.pending.length + unrecorded listed w' + visits ≤
        w.pending.length + unrecorded listed w := by
  refine walks.kept
    (P := fun visits v => Closing s v ∧ v.pending.length + unrecorded listed v + visits ≤
      w.pending.length + unrecorded listed w) ⟨closing, Nat.le_refl _⟩ ?_
  rintro visits v v' ⟨closing, fewer⟩ visited
  generalize same : Except.ok v' = outcome at visited
  obtain ⟨pending⟩ := visited
  obtain ⟨closing', one⟩ := closing_of_visit table closing pending same.symm
  exact ⟨closing', by omega⟩

theorem Walks.visits_le (table : Tabulates s listed) (closing : Closing s w)
    (walks : Walks s w visits outcome) : visits ≤ w.pending.length + unrecorded listed w := by
  cases walks with
  | here => exact Nat.zero_le _
  | visit before visited =>
    obtain ⟨-, fewer⟩ := before.closing table closing
    obtain ⟨pending⟩ := visited
    rw [pending, List.length_append, List.length_cons] at fewer
    omega

/-- The walk of the analysis, which visits what was found last, is one of them. -/
theorem walks_of_explore (s : Subject) (fuel : Nat) (w : Walk) :
    ∃ visits, Walks s w visits (explore s fuel w) ∧ (Over (explore s fuel w) ∨ visits = fuel) := by
  suffices onward : ∀ (before : Nat) (v : Walk), Walks s w before (.ok v) →
      ∃ visits, Walks s w (before + visits) (explore s fuel v) ∧
        (Over (explore s fuel v) ∨ visits = fuel) by
    simpa using onward 0 w .here
  induction fuel with
  | zero => exact fun before v walks => ⟨0, walks, .inr rfl⟩
  | succ fuel ih =>
    intro before v walks
    unfold explore
    cases pending : v.pending with
    | nil => exact ⟨0, walks, .inl pending⟩
    | cons entry rest =>
      obtain ⟨i, depth⟩ := entry
      have visited : Visits s v (visit s i depth { v with pending := rest }) :=
        .intro (show v.pending = [] ++ (i, depth) :: rest from pending)
      simp only
      cases next : visit s i depth { v with pending := rest } with
      | error fault =>
        rw [next] at visited
        exact ⟨1, .visit walks visited, .inl trivial⟩
      | ok v' =>
        rw [next] at visited
        obtain ⟨visits, later, finished⟩ := ih (before + 1) v' (.visit walks visited)
        refine ⟨visits + 1, ?_, finished.imp_right (congrArg Nat.succ)⟩
        rw [Nat.add_comm visits 1, ← Nat.add_assoc]
        exact later

/-- A walk that is not over goes on. -/
theorem exists_visits (pending : w.pending ≠ []) : ∃ outcome, Visits s w outcome := by
  obtain ⟨⟨i, depth⟩, rest, same⟩ := List.exists_cons_of_ne_nil pending
  exact ⟨_, .intro (show w.pending = [] ++ (i, depth) :: rest from same)⟩

/-! ## A finished walk has found an assignment -/

/-- The depths that a walk has recorded, 0 elsewhere. -/
def Walk.assigned (w : Walk) : Int → Nat
  | .ofNat offset => (w.depthAt? offset).getD 0
  | .negSucc _ => 0

section

variable {code : Code} {constantCount argCount : Int} {first : Instruction}
  {others : List Instruction}

/-- Everything that is recorded has been visited. -/
structure Closed (s : Subject) (w : Walk) : Prop where
  start : w.depthAt? 0 = some 0
  settled : ∀ offset depth, w.depthAt? offset = some depth →
    ∃ i, s.instructionAt? offset = some i ∧ Settled s w i depth

theorem Closing.closed (closing : Closing s w) (finished : w.pending = []) : Closed s w where
  start := closing.start
  settled := by
    intro offset depth recorded
    obtain ⟨i, here, waiting | settled⟩ := closing.each offset depth recorded
    · rw [finished] at waiting
      cases waiting
    · exact ⟨i, here, settled⟩

/-- A finished walk has recorded a depth wherever control gets to. -/
theorem Closed.recorded (decoded : Instruction.decodeAll code = .ok listed)
    (closed : Closed (subjectOf code listed constantCount argCount) w) {place : Int}
    (reaches : Reaches listed place) :
    ∃ (i : Instruction) (depth : Nat), i ∈ listed ∧ (i.offset : Int) = place ∧
      w.depthAt? i.offset = some depth ∧
      Settled (subjectOf code listed constantCount argCount) w i depth := by
  have table : Tabulates (subjectOf code listed constantCount argCount) listed :=
    tabulates_subjectOf
  have told (offset depth : Nat) (recorded : w.depthAt? offset = some depth) :
      ∃ (i : Instruction) (depth : Nat), i ∈ listed ∧ (i.offset : Int) = offset ∧
        w.depthAt? i.offset = some depth ∧
        Settled (subjectOf code listed constantCount argCount) w i depth := by
    obtain ⟨i, here, settled⟩ := closed.settled offset depth recorded
    have same := table.offset offset i here
    exact ⟨i, depth, table.listed offset i here, congrArg Nat.cast same, same ▸ recorded, settled⟩
  induction reaches with
  | start => exact told 0 0 closed.start
  | @flow i target _ member flows ih =>
    obtain ⟨j, depth, there, same, recorded, settled⟩ := ih
    -- Two instructions at one offset are what the code has there.
    have read := (decodeAll_spec decoded).1 j there
    rw [Int.ofNat.inj same, (decodeAll_spec decoded).1 i member] at read
    cases read
    obtain ⟨k, found, known⟩ := settled.flows target flows
    cases target with
    | ofNat place => exact told place _ (table.offset place k found ▸ known)
    | negSucc _ => cases found

theorem Closed.recorded_of_mem (decoded : Instruction.decodeAll code = .ok listed)
    (closed : Closed (subjectOf code listed constantCount argCount) w) {i : Instruction}
    (member : i ∈ listed) (reaches : Reaches listed i.offset) :
    ∃ depth, w.depthAt? i.offset = some depth ∧
      Settled (subjectOf code listed constantCount argCount) w i depth := by
  obtain ⟨j, depth, there, same, recorded, settled⟩ := closed.recorded decoded reaches
  have read := (decodeAll_spec decoded).1 j there
  rw [Int.ofNat.inj same, (decodeAll_spec decoded).1 i member] at read
  cases read
  exact ⟨depth, recorded, settled⟩

theorem assigned_of_recorded {offset depth : Nat} (recorded : w.depthAt? offset = some depth) :
    w.assigned offset = depth := by
  show (w.depthAt? offset).getD 0 = depth
  rw [recorded]
  rfl

/-- What a finished walk has recorded is an assignment of depths. -/
theorem Closed.balances (decoded : Instruction.decodeAll code = .ok listed)
    (closed : Closed (subjectOf code listed constantCount argCount) w) :
    Balances listed constantCount argCount w.assigned where
  start := assigned_of_recorded closed.start
  boundary := by
    intro place reaches
    obtain ⟨i, -, member, same, -, -⟩ := closed.recorded decoded reaches
    exact ⟨i, member, same⟩
  constant := by
    intro i member reaches
    obtain ⟨depth, -, settled⟩ := closed.recorded_of_mem decoded member reaches
    exact settled.admits.constant
  argument := by
    intro i member reaches
    obtain ⟨depth, -, settled⟩ := closed.recorded_of_mem decoded member reaches
    exact settled.admits.argument
  call := by
    intro i member reaches
    obtain ⟨depth, -, settled⟩ := closed.recorded_of_mem decoded member reaches
    exact settled.admits.call
  covered := by
    intro i member reaches
    obtain ⟨depth, recorded, settled⟩ := closed.recorded_of_mem decoded member reaches
    rw [assigned_of_recorded recorded]
    exact settled.admits.covered
  flow := by
    intro i member reaches target flows
    obtain ⟨depth, recorded, settled⟩ := closed.recorded_of_mem decoded member reaches
    obtain ⟨k, found, known⟩ := settled.flows target flows
    rw [assigned_of_recorded recorded]
    cases target with
    | ofNat place =>
      rw [tabulates_subjectOf.offset place k found] at known
      exact assigned_of_recorded known
    | negSucc _ => cases found

/-! ## No visit is refused where there is an assignment -/

/-- A walk has recorded nothing but the depths of an assignment, and met no others. -/
structure Faithful (listed : List Instruction) (depth : Int → Nat) (w : Walk) : Prop where
  recorded : ∀ offset known, w.depthAt? offset = some known → depth offset = known
  pending : ∀ i known, (i, known) ∈ w.pending →
    i ∈ listed ∧ Reaches listed i.offset ∧ depth i.offset = known
  attained : w.largest ∈ Depths listed depth

variable {depth : Int → Nat}

variable (constantCount argCount) in
/-- Passing control on to a place with the depth assigned to it. -/
theorem Faithful.flowTo (decoded : Instruction.decodeAll code = .ok listed)
    (faithful : Faithful listed depth w) (source : Nat) {known : Nat} {target : Int}
    (reaches : Reaches listed target) {i : Instruction} (member : i ∈ listed)
    (boundary : (i.offset : Int) = target) (assigned : depth target = known) :
    ∃ w', StackDepth.flowTo (subjectOf code listed constantCount argCount) source known w target =
      .ok w' ∧ Faithful listed depth w' := by
  subst boundary
  have found := instructionAt?_of_mem constantCount argCount decoded member
  unfold StackDepth.flowTo
  simp only [found]
  cases recorded : w.depthAt? i.offset with
  | some earlier =>
    have same : earlier = known := (faithful.recorded _ _ recorded).symm.trans assigned
    exact ⟨w, if_pos same, faithful⟩
  | none =>
    refine ⟨_, rfl, ?_, ?_, faithful.attained⟩
    · intro offset other there
      unfold Walk.depthAt? at there
      rw [Array.getElem?_setIfInBounds] at there
      split at there
      next here =>
        split at there
        · cases there
          rw [← here]
          exact assigned
        · cases there
      · exact faithful.recorded offset other there
    · intro j other there
      rcases List.mem_cons.1 there with same | earlier
      · cases same
        exact ⟨member, reaches, assigned⟩
      · exact faithful.pending j other earlier

/-- Passing control on to several places, with the depth assigned to all of them. -/
theorem Faithful.flowToAll (decoded : Instruction.decodeAll code = .ok listed)
    (balances : Balances listed constantCount argCount depth) (faithful : Faithful listed depth w)
    (source known : Nat) {targets : List Int}
    (flows : ∀ target ∈ targets, Reaches listed target ∧ depth target = known) :
    ∃ w', targets.foldlM
        (StackDepth.flowTo (subjectOf code listed constantCount argCount) source known) w = .ok w' ∧
      Faithful listed depth w' := by
  induction targets generalizing w with
  | nil => exact ⟨w, rfl, faithful⟩
  | cons target rest ih =>
    obtain ⟨reaches, assigned⟩ := flows target (List.mem_cons_self ..)
    obtain ⟨i, member, boundary⟩ := balances.boundary target reaches
    obtain ⟨w₁, flowed, faithful₁⟩ := Faithful.flowTo constantCount argCount decoded faithful
      source reaches member boundary assigned
    obtain ⟨w', later, faithful'⟩ := ih faithful₁ fun other there =>
      flows other (List.mem_cons_of_mem _ there)
    refine ⟨w', ?_, faithful'⟩
    rw [List.foldlM_cons, flowed]
    exact later

/-- Operands are in range where there is an assignment. -/
theorem Balances.operandFault?_eq (balances : Balances listed constantCount argCount depth)
    {i : Instruction} (member : i ∈ listed) (reaches : Reaches listed i.offset) :
    operandFault? (subjectOf code listed constantCount argCount) i.operation = none := by
  have constant := balances.constant i member reaches
  have argument := balances.argument i member reaches
  have call := balances.call i member reaches
  unfold operandFault?
  split
  next index loads => exact if_neg (Int.not_le.2 (constant index loads))
  next index loads => exact if_neg (Int.not_le.2 (argument index loads))
  next count calls => exact if_neg (Nat.not_lt.2 (call count calls))
  · rfl

/-- A visit to a pending instruction is not refused, and what it finds is assigned. -/
theorem Faithful.visit (decoded : Instruction.decodeAll code = .ok listed)
    (balances : Balances listed constantCount argCount depth) (faithful : Faithful listed depth w)
    (visited : Visits (subjectOf code listed constantCount argCount) w outcome) :
    ∃ w', outcome = .ok w' ∧ Faithful listed depth w' := by
  obtain ⟨pending⟩ := visited
  next before rest i known =>
  obtain ⟨member, reaches, rfl⟩ := faithful.pending i known (by simp [pending])
  have covered := balances.covered i member reaches
  unfold StackDepth.visit
  simp only [balances.operandFault?_eq member reaches, if_neg (Nat.not_lt.2 covered)]
  have passes : Faithful listed depth { w with
      pending := before ++ rest
      largest := max w.largest (max (depth i.offset) (after i.operation (depth i.offset))) } := by
    refine ⟨faithful.recorded, ?_, ?_⟩
    · intro j other there
      apply faithful.pending j other
      rw [pending]
      rcases List.mem_append.1 there with earlier | later
      · exact List.mem_append_left _ earlier
      · exact List.mem_append_right _ (List.mem_cons_of_mem _ later)
    · show max w.largest (max (depth i.offset) (after i.operation (depth i.offset))) ∈ _
      rcases max_choice w.largest (max (depth i.offset) (after i.operation (depth i.offset)))
        with same | same
      · rw [same]
        exact faithful.attained
      · rw [same]
        refine ⟨i, member, reaches, ?_⟩
        rcases max_choice (depth i.offset) (after i.operation (depth i.offset)) with same | same
        · exact .inl same
        · exact .inr same
  have flows : ∀ target ∈ i.successors, Reaches listed target ∧
      depth target = after i.operation (depth i.offset) :=
    fun target there => ⟨.flow reaches member there, balances.flow i member reaches target there⟩
  exact passes.flowToAll decoded balances i.offset _ flows

theorem faithful_start (decoded : Instruction.decodeAll code = .ok (first :: others))
    (balances : Balances (first :: others) constantCount argCount depth) :
    Faithful (first :: others) depth (start code.size first) := by
  have zero := (decodeAll_spec decoded).2 first rfl
  have member : first ∈ first :: others := List.mem_cons_self ..
  have reaches : Reaches (first :: others) first.offset := by
    rw [zero]
    exact .start
  have assigned : depth first.offset = 0 := by
    rw [zero]
    exact balances.start
  refine ⟨?_, ?_, first, member, reaches, .inl assigned.symm⟩
  · intro offset known recorded
    unfold Walk.depthAt? start at recorded
    rw [Array.getElem?_setIfInBounds] at recorded
    split at recorded
    next here =>
      split at recorded
      · cases recorded
        rw [← here]
        exact balances.start
      · cases recorded
    · rw [Array.getElem?_replicate] at recorded
      split at recorded <;> cases recorded
  · intro i known there
    rcases List.mem_cons.1 there with same | none_
    · cases same
      exact ⟨member, reaches, assigned⟩
    · cases none_

/-- Where there is an assignment no walk is refused. -/
theorem Walks.faithful (decoded : Instruction.decodeAll code = .ok (first :: others))
    (balances : Balances (first :: others) constantCount argCount depth)
    (walks : Walks (subjectOf code (first :: others) constantCount argCount)
      (start code.size first) visits outcome) :
    ∃ w, outcome = .ok w ∧ Faithful (first :: others) depth w := by
  induction walks with
  | here => exact ⟨_, rfl, faithful_start decoded balances⟩
  | visit _ visited ih =>
    obtain ⟨w, same, faithful⟩ := ih
    cases same
    exact faithful.visit decoded balances visited

/-- The largest depth that a finished walk has met is the largest that is assigned. -/
theorem Closed.isGreatest (decoded : Instruction.decodeAll code = .ok listed)
    (closed : Closed (subjectOf code listed constantCount argCount) w)
    (faithful : Faithful listed depth w) : IsGreatest (Depths listed depth) w.largest := by
  refine ⟨faithful.attained, ?_⟩
  rintro d ⟨i, member, reaches, rfl | rfl⟩
  · obtain ⟨known, recorded, settled⟩ := closed.recorded_of_mem decoded member reaches
    rw [faithful.recorded _ _ recorded]
    exact settled.admits.depth_le
  · obtain ⟨known, recorded, settled⟩ := closed.recorded_of_mem decoded member reaches
    rw [faithful.recorded _ _ recorded]
    exact settled.admits.after_le

/-! ## Every order comes to the same end -/

/-- A walk that is over answers the capacity that the code needs, and is refused where the
code has no assignment. -/
theorem Walks.needs_iff (decoded : Instruction.decodeAll code = .ok (first :: others))
    (walks : Walks (subjectOf code (first :: others) constantCount argCount)
      (start code.size first) visits outcome) (finished : Over outcome) (capacity : Nat) :
    outcome.map Walk.largest = .ok capacity ↔ Needs code constantCount argCount capacity := by
  obtain ⟨closing, -⟩ := closing_of_decodeAll constantCount argCount decoded
  constructor
  · intro answered
    cases outcome with
    | error fault => cases answered
    | ok w =>
      cases answered
      have closed := (walks.closing tabulates_subjectOf closing).1.closed finished
      have balances := closed.balances decoded
      obtain ⟨_, same, faithful⟩ := walks.faithful decoded balances
      cases same
      refine ⟨?_, _, decoded, w.assigned, balances, closed.isGreatest decoded faithful⟩
      rintro rfl
      cases decoded
  · rintro ⟨-, listed, split_, depth, balances, greatest⟩
    cases decoded.symm.trans split_
    obtain ⟨w, rfl, faithful⟩ := walks.faithful decoded balances
    have closed := (walks.closing tabulates_subjectOf closing).1.closed finished
    exact congrArg Except.ok ((closed.isGreatest decoded faithful).unique greatest)

variable (constantCount argCount) in
/-- The analysis of code that splits into instructions is a walk that is over. -/
theorem walks_of_analyse (decoded : Instruction.decodeAll code = .ok (first :: others)) :
    ∃ visits, Walks (subjectOf code (first :: others) constantCount argCount)
        (start code.size first) visits (analyse code constantCount argCount) ∧
      Over (analyse code constantCount argCount) := by
  have same : analyse code constantCount argCount =
      explore (subjectOf code (first :: others) constantCount argCount) (first :: others).length
        (start code.size first) := by
    unfold analyse
    rw [decoded]
    rfl
  obtain ⟨closing, enough⟩ := closing_of_decodeAll constantCount argCount decoded
  obtain ⟨visits, walks, finished⟩ := walks_of_explore
    (subjectOf code (first :: others) constantCount argCount) (first :: others).length
    (start code.size first)
  rw [← same] at walks finished
  refine ⟨visits, walks, finished.elim id fun spent => ?_⟩
  -- If the fuel was used up and something were pending, one more visit would be one too many.
  cases ended : analyse code constantCount argCount with
  | error fault => trivial
  | ok w =>
    rw [ended] at walks
    by_contra pending
    obtain ⟨outcome, visited⟩ := exists_visits pending
    have more := (Walks.visit walks visited).visits_le tabulates_subjectOf closing
    omega

/-- Code without instructions is empty. -/
theorem eq_empty_of_decodeAll (decoded : Instruction.decodeAll code = .ok []) : code = #[] := by
  unfold Instruction.decodeAll at decoded
  by_contra some_
  obtain ⟨limit, size⟩ : ∃ limit, code.size = limit + 1 :=
    ⟨code.size - 1, by have := Array.size_pos_iff.2 some_; omega⟩
  rw [size, Instruction.decodeFrom, if_neg (by omega)] at decoded
  cases read : Instruction.decode code (0 : Nat) with
  | error fault =>
    rw [read] at decoded
    cases decoded
  | ok i =>
    rw [read] at decoded
    simp only at decoded
    cases result : Instruction.decodeFrom code limit i.next (#[].push i) with
    | error fault =>
      rw [result] at decoded
      cases decoded
    | ok all =>
      rw [result] at decoded
      obtain ⟨more, whole, -, -⟩ := decodeFrom_spec _ _ _ _ result
      have none_ : all.toList = [] := Except.ok.inj decoded
      rw [none_] at whole
      simp at whole

end

/-- The analysis of some code is exact. -/
structure Exact (code : Code) (constantCount argCount : Int) : Prop where
  /-- Code is accepted where depths can be assigned to it, and the largest is what it needs. -/
  accepted : ∀ capacity, maxStack code constantCount argCount = .ok capacity ↔
    Needs code constantCount argCount capacity
  /-- All other code is refused. -/
  refused : (∃ fault, maxStack code constantCount argCount = .error fault) ↔
    ¬ ∃ capacity, Needs code constantCount argCount capacity
  /-- In whatever order a walk visits what is pending, it makes no more visits than there
  are instructions and goes on until it is over. -/
  ends : ∀ first others visits outcome,
    Instruction.decodeAll code = .ok (first :: others) →
    Walks (subjectOf code (first :: others) constantCount argCount) (start code.size first)
      visits outcome →
    visits ≤ (first :: others).length ∧
      (Over outcome ∨ ∃ next,
        Walks (subjectOf code (first :: others) constantCount argCount) (start code.size first)
          (visits + 1) next)
  /-- All of them come to the same end. -/
  unordered : ∀ first others visits outcome,
    Instruction.decodeAll code = .ok (first :: others) →
    Walks (subjectOf code (first :: others) constantCount argCount) (start code.size first)
      visits outcome →
    Over outcome →
    (outcome.map Walk.largest).toOption = (maxStack code constantCount argCount).toOption

theorem maxStack_eq_ok_iff (code : Code) (constantCount argCount : Int) (capacity : Nat) :
    maxStack code constantCount argCount = .ok capacity ↔
      Needs code constantCount argCount capacity := by
  cases decoded : Instruction.decodeAll code with
  | error fault =>
    have refused : maxStack code constantCount argCount = .error fault := by
      unfold maxStack analyse
      rw [decoded]
      rfl
    refine ⟨fun answered => ?_, fun ⟨_, listed, split_, _⟩ => ?_⟩
    · cases refused.symm.trans answered
    · cases decoded.symm.trans split_
  | ok listed =>
    cases listed with
    | nil =>
      have refused : maxStack code constantCount argCount = .error ⟨.emptyCode, none⟩ := by
        unfold maxStack analyse
        rw [decoded]
        rfl
      refine ⟨fun answered => ?_, fun ⟨some_, _⟩ => absurd (eq_empty_of_decodeAll decoded) some_⟩
      cases refused.symm.trans answered
    | cons first others =>
      obtain ⟨visits, walks, finished⟩ := walks_of_analyse constantCount argCount decoded
      exact walks.needs_iff decoded finished capacity

/-- The analysis accepts what it should and refuses all else, and the order of its visits
makes no difference. -/
theorem exact_of_analysis (code : Code) (constantCount argCount : Int) :
    Exact code constantCount argCount where
  accepted := maxStack_eq_ok_iff code constantCount argCount
  refused := by
    simp only [← maxStack_eq_ok_iff]
    cases maxStack code constantCount argCount <;> simp
  ends := by
    intro first others visits outcome decoded walks
    obtain ⟨closing, enough⟩ := closing_of_decodeAll constantCount argCount decoded
    refine ⟨Nat.le_trans (walks.visits_le tabulates_subjectOf closing) enough, ?_⟩
    cases outcome with
    | error fault => exact .inl trivial
    | ok w =>
      by_cases pending : w.pending = []
      · exact .inl pending
      · obtain ⟨next, visited⟩ := exists_visits pending
        exact .inr ⟨next, .visit walks visited⟩
  unordered := by
    intro first others visits outcome decoded walks finished
    have same (capacity : Nat) : outcome.map Walk.largest = .ok capacity ↔
        maxStack code constantCount argCount = .ok capacity :=
      (walks.needs_iff decoded finished capacity).trans
        (maxStack_eq_ok_iff code constantCount argCount capacity).symm
    cases ended : outcome.map Walk.largest with
    | ok capacity => rw [(same capacity).1 ended]
    | error fault =>
      cases answered : maxStack code constantCount argCount with
      | ok capacity => cases ended.symm.trans ((same capacity).2 answered)
      | error fault => rfl

end MessageMachine.StackDepth
