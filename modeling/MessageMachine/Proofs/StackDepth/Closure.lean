/-
# What a complete walk records

When the analysis accepts code, the depths that it recorded are an annotation of the
code that every instruction respects: at each recorded offset there is an
instruction whose operand is in range, the depth covers what it pops, and all its
successors are recorded with the depth that it leaves. `annotates_of_analyse` says
so for the walk that `StackDepth.analyse` returns.

The walk visits instructions from a worklist with bounded fuel. The bound is enough
because a visit takes one instruction off the list and puts on it only those that it
records for the first time, so what is pending and what is not yet recorded never
outnumber the visits that are left.
-/

import MessageMachine.StackDepth

namespace MessageMachine.StackDepth

/-! ## Annotations -/

/-- An instruction at a depth has an operand in range and operands to take. -/
structure Admits (constantCount argCount : Int) (largest : Nat) (i : Instruction) (depth : Nat) :
    Prop where
  constant : ∀ index, i.operation = .loadConstant index → (index : Int) < constantCount
  argument : ∀ index, i.operation = .loadArgument index → (index : Int) < argCount
  call : ∀ count, i.operation = .call count → 1 ≤ count
  covered : i.operation.pops ≤ depth
  depth_le : depth ≤ largest
  after_le : after i.operation depth ≤ largest

/-- Depths recorded for offsets agree with the code. -/
structure Annotates (code : Code) (constantCount argCount : Int) (largest : Nat)
    (depthAt? : Nat → Option Nat) : Prop where
  start : depthAt? 0 = some 0
  instruction : ∀ offset depth, depthAt? offset = some depth →
    ∃ i, Instruction.decode code offset = .ok i ∧ Admits constantCount argCount largest i depth ∧
      ∀ target ∈ i.successors, ∃ next : Nat,
        target = next ∧ depthAt? next = some (after i.operation depth)

/-! ## Tables of instructions -/

/-- A table holds listed instructions at their offsets. -/
structure Tabulates (s : Subject) (listed : List Instruction) : Prop where
  offset : ∀ (place : Nat) (i : Instruction),
    (s.instructions[place]?).join = some i → i.offset = place
  listed : ∀ (place : Nat) (i : Instruction), (s.instructions[place]?).join = some i → i ∈ listed

theorem foldl_byOffset (listed done : List Instruction) (table : Array (Option Instruction))
    (before : ∀ (place : Nat) i, (table[place]?).join = some i → i.offset = place ∧ i ∈ done) :
    let result := listed.foldl (fun table i => table.setIfInBounds i.offset (some i)) table
    result.size = table.size ∧
      ∀ (place : Nat) i, (result[place]?).join = some i → i.offset = place ∧ i ∈ done ++ listed := by
  induction listed generalizing table done with
  | nil => exact ⟨rfl, by simpa using before⟩
  | cons first rest ih =>
    obtain ⟨size, each⟩ := ih (done ++ [first]) (table.setIfInBounds first.offset (some first)) (by
      intro place i found
      rw [Array.getElem?_setIfInBounds] at found
      by_cases here : first.offset = place
      · rw [if_pos here] at found
        by_cases inside : place < table.size
        · rw [here, if_pos inside] at found
          cases found
          exact ⟨here, by simp⟩
        · rw [here, if_neg inside] at found
          cases found
      · rw [if_neg here] at found
        obtain ⟨offset, member⟩ := before place i found
        exact ⟨offset, List.mem_append_left _ member⟩)
    refine ⟨by simpa using size, fun place i found => ?_⟩
    obtain ⟨offset, member⟩ := each place i found
    exact ⟨offset, by simpa using member⟩

/-- Arranging instructions by offset makes a table of them. -/
theorem byOffset_spec (codeSize : Nat) (listed : List Instruction) :
    (byOffset codeSize listed).size = codeSize ∧
      ∀ (place : Nat) i, ((byOffset codeSize listed)[place]?).join = some i →
        i.offset = place ∧ i ∈ listed := by
  obtain ⟨size, each⟩ := foldl_byOffset listed [] (Array.replicate codeSize none) (by
    intro place i found
    rw [Array.getElem?_replicate] at found
    split at found <;> cases found)
  exact ⟨by simpa [byOffset] using size, by simpa [byOffset] using each⟩

/-! ## Growing walks -/

/-- The listed instructions for which nothing is recorded yet. -/
def unrecorded (listed : List Instruction) (w : Walk) : Nat :=
  listed.countP fun i => (w.depthAt? i.offset).isNone

/-- One walk is a continuation of another: it has recorded more, all of that is
pending, and the visits that are left suffice. -/
structure Continues (s : Subject) (listed : List Instruction) (w w' : Walk) : Prop where
  size : w'.depths.size = w.depths.size
  largest : w'.largest = w.largest
  recorded : ∀ offset depth, w.depthAt? offset = some depth → w'.depthAt? offset = some depth
  pending : ∀ entry ∈ w.pending, entry ∈ w'.pending
  fresh : ∀ offset depth, w'.depthAt? offset = some depth →
    w.depthAt? offset = some depth ∨
      ∃ i, s.instructionAt? offset = some i ∧ (i, depth) ∈ w'.pending
  visits : w'.pending.length + unrecorded listed w' ≤ w.pending.length + unrecorded listed w

namespace Continues

variable {s : Subject} {listed : List Instruction} {w w' w'' : Walk}

theorem refl : Continues s listed w w :=
  ⟨rfl, rfl, fun _ _ found => found, fun _ inside => inside, fun _ _ found => .inl found,
    Nat.le_refl _⟩

theorem trans (first : Continues s listed w w') (second : Continues s listed w' w'') :
    Continues s listed w w'' where
  size := second.size.trans first.size
  largest := second.largest.trans first.largest
  recorded := fun offset depth found => second.recorded _ _ (first.recorded offset depth found)
  pending := fun entry inside => second.pending _ (first.pending entry inside)
  fresh := by
    intro offset depth found
    rcases second.fresh offset depth found with earlier | ⟨i, here, inside⟩
    · rcases first.fresh offset depth earlier with known | ⟨i, here, inside⟩
      · exact .inl known
      · exact .inr ⟨i, here, second.pending _ inside⟩
    · exact .inr ⟨i, here, inside⟩
  visits := Nat.le_trans second.visits first.visits

end Continues

/-- Counting fewer of the listed instructions, and one of them no longer. -/
theorem countP_lt {p q : Instruction → Bool} {listed : List Instruction} {i : Instruction}
    (member : i ∈ listed) (fewer : ∀ j, q j = true → p j = true) (counted : p i = true)
    (dropped : q i = false) : listed.countP q + 1 ≤ listed.countP p := by
  induction listed with
  | nil => cases member
  | cons first rest ih =>
    have rest_le : rest.countP q ≤ rest.countP p :=
      List.countP_mono_left fun j _ holds => fewer j holds
    rw [List.countP_cons, List.countP_cons]
    rcases List.mem_cons.1 member with rfl | inside
    · rw [dropped, counted]
      simpa using rest_le
    · have here := fewer first
      have later := ih inside
      cases holds : q first
      · cases p first <;> simp <;> omega
      · rw [here holds]
        simp
        omega

variable {s : Subject} {listed : List Instruction} {w w' : Walk}

/-- Control that flows to a place finds an instruction there and leaves its depth. -/
theorem continues_of_flowTo (table : Tabulates s listed)
    (size : w.depths.size = s.instructions.size) {source depth : Nat} {target : Int}
    (flowed : flowTo s source depth w target = .ok w') :
    Continues s listed w w' ∧
      ∃ i, s.instructionAt? target = some i ∧ w'.depthAt? i.offset = some depth := by
  unfold flowTo at flowed
  cases found : s.instructionAt? target with
  | none =>
    rw [found] at flowed
    simp only at flowed
    split at flowed <;> cases flowed
  | some i =>
    rw [found] at flowed
    simp only at flowed
    obtain ⟨place, rfl⟩ : ∃ place : Nat, target = place := by
      cases target with
      | ofNat place => exact ⟨place, rfl⟩
      | negSucc _ => cases found
    have entry : (s.instructions[place]?).join = some i := found
    have offset := table.offset place i entry
    have inside : i.offset < w.depths.size := by
      rw [size, offset]
      by_cases lt : place < s.instructions.size
      · exact lt
      · rw [Array.getElem?_eq_none (Nat.le_of_not_lt lt)] at entry
        cases entry
    split at flowed
    · next unknown =>
      cases flowed
      have at_ : ∀ other, Walk.depthAt? { w with
          depths := w.depths.setIfInBounds i.offset (some depth)
          pending := (i, depth) :: w.pending } other =
            if other = i.offset then some depth else w.depthAt? other := by
        intro other
        unfold Walk.depthAt?
        rw [Array.getElem?_setIfInBounds]
        by_cases here : other = i.offset
        · subst here
          simp [inside]
        · rw [if_neg (Ne.symm here), if_neg here]
      refine ⟨⟨by simp, rfl, ?_, ?_, ?_, ?_⟩, i, rfl, by rw [at_, if_pos rfl]⟩
      · intro other known recorded
        rw [at_]
        by_cases here : other = i.offset
        · rw [here, unknown] at recorded
          cases recorded
        · rw [if_neg here]
          exact recorded
      · exact fun entry member => List.mem_cons_of_mem _ member
      · intro other known recorded
        rw [at_] at recorded
        by_cases here : other = i.offset
        · rw [if_pos here] at recorded
          cases recorded
          refine .inr ⟨i, ?_, List.mem_cons_self ..⟩
          rw [here, offset]
          exact found
        · rw [if_neg here] at recorded
          exact .inl recorded
      · have fewer := countP_lt (p := fun j => (w.depthAt? j.offset).isNone)
          (q := fun j => (Walk.depthAt? { w with
            depths := w.depths.setIfInBounds i.offset (some depth)
            pending := (i, depth) :: w.pending } j.offset).isNone)
          (table.listed place i entry) (by
            intro j holds
            simp only [at_] at holds
            by_cases here : j.offset = i.offset
            · simp [here] at holds
            · simpa [here] using holds) (by simp [unknown]) (by simp [at_])
        unfold unrecorded
        simp only [List.length_cons]
        omega
    · next known recorded =>
      split at flowed
      · next same =>
        cases flowed
        exact ⟨.refl, i, rfl, same ▸ recorded⟩
      · cases flowed

theorem continues_of_foldlM (table : Tabulates s listed)
    (size : w.depths.size = s.instructions.size) {source depth : Nat} {targets : List Int}
    (flowed : targets.foldlM (flowTo s source depth) w = .ok w') :
    Continues s listed w w' ∧ ∀ target ∈ targets,
      ∃ i, s.instructionAt? target = some i ∧ w'.depthAt? i.offset = some depth := by
  induction targets generalizing w with
  | nil =>
    cases flowed
    exact ⟨.refl, by simp⟩
  | cons target rest ih =>
    rw [List.foldlM_cons] at flowed
    cases flowed₁ : flowTo s source depth w target with
    | error fault =>
      rw [flowed₁] at flowed
      cases flowed
    | ok middle =>
      rw [flowed₁] at flowed
      obtain ⟨first, i, here, recorded⟩ := continues_of_flowTo table size flowed₁
      obtain ⟨second, others⟩ := ih (first.size.trans size) flowed
      refine ⟨first.trans second, fun other member => ?_⟩
      rcases List.mem_cons.1 member with rfl | later
      · exact ⟨i, here, second.recorded _ _ recorded⟩
      · exact others other later

/-! ## Visits -/

/-- An instruction has been visited: it is admitted and control has been passed on. -/
structure Settled (s : Subject) (w : Walk) (i : Instruction) (depth : Nat) : Prop where
  admits : Admits s.constantCount s.argCount w.largest i depth
  flows : ∀ target ∈ i.successors, ∃ j, s.instructionAt? target = some j ∧
    w.depthAt? j.offset = some (after i.operation depth)

theorem Settled.mono {i : Instruction} {depth : Nat} (settled : Settled s w i depth)
    (recorded : ∀ offset known, w.depthAt? offset = some known → w'.depthAt? offset = some known)
    (largest : w.largest ≤ w'.largest) : Settled s w' i depth where
  admits := { settled.admits with
    depth_le := Nat.le_trans settled.admits.depth_le largest
    after_le := Nat.le_trans settled.admits.after_le largest }
  flows := by
    intro target member
    obtain ⟨j, here, known⟩ := settled.flows target member
    exact ⟨j, here, recorded _ _ known⟩

/-- Whatever is recorded has been visited or will be. -/
structure Closing (s : Subject) (w : Walk) : Prop where
  size : w.depths.size = s.instructions.size
  start : w.depthAt? 0 = some 0
  each : ∀ offset depth, w.depthAt? offset = some depth →
    ∃ i, s.instructionAt? offset = some i ∧ ((i, depth) ∈ w.pending ∨ Settled s w i depth)

/-- The operand of an instruction that is not refused is in range. -/
theorem admits_of_visit {i : Instruction} {depth largest : Nat}
    (operand : operandFault? s i.operation = none) (covered : i.operation.pops ≤ depth)
    (depth_le : depth ≤ largest) (after_le : after i.operation depth ≤ largest) :
    Admits s.constantCount s.argCount largest i depth where
  constant := by
    intro index loads
    simpa [operandFault?, loads] using operand
  argument := by
    intro index loads
    simpa [operandFault?, loads] using operand
  call := by
    intro count calls
    have positive : ¬ count < 1 := by simpa [operandFault?, calls] using operand
    omega
  covered := covered
  depth_le := depth_le
  after_le := after_le

/-- A visit settles its instruction, whichever of those pending it is, and takes one visit. -/
theorem closing_of_visit (table : Tabulates s listed) {i : Instruction} {depth : Nat}
    {before rest : List (Instruction × Nat)} (closing : Closing s w)
    (pending : w.pending = before ++ (i, depth) :: rest)
    (visited : visit s i depth { w with pending := before ++ rest } = .ok w') :
    Closing s w' ∧
      w'.pending.length + unrecorded listed w' + 1 ≤ w.pending.length + unrecorded listed w := by
  unfold visit at visited
  cases operand : operandFault? s i.operation with
  | some defect =>
    rw [operand] at visited
    cases visited
  | none =>
    rw [operand] at visited
    simp only at visited
    split at visited
    · cases visited
    · next covered =>
      let passing : Walk := { w with
        pending := before ++ rest
        largest := max w.largest (max depth (after i.operation depth)) }
      obtain ⟨continues, flows⟩ := continues_of_foldlM (w := passing) table closing.size visited
      have larger : w.largest ≤ w'.largest := by
        rw [continues.largest]
        exact Nat.le_max_left _ _
      have settled : Settled s w' i depth := by
        refine ⟨admits_of_visit operand (Nat.le_of_not_lt covered) ?_ ?_, flows⟩
        · rw [continues.largest]
          exact Nat.le_trans (Nat.le_max_left _ _) (Nat.le_max_right _ _)
        · rw [continues.largest]
          exact Nat.le_trans (Nat.le_max_right _ _) (Nat.le_max_right _ _)
      refine ⟨⟨continues.size.trans closing.size, continues.recorded _ _ closing.start, ?_⟩, ?_⟩
      · intro offset known recorded
        rcases continues.fresh offset known recorded with earlier | ⟨j, here, member⟩
        · obtain ⟨j, here, waiting | done⟩ := closing.each offset known earlier
          · rw [pending, List.mem_append, List.mem_cons] at waiting
            rcases waiting with earlier | same | later
            · exact ⟨j, here, .inl (continues.pending _ (List.mem_append_left _ earlier))⟩
            · cases same
              exact ⟨i, here, .inr settled⟩
            · exact ⟨j, here, .inl (continues.pending _ (List.mem_append_right _ later))⟩
          · exact ⟨j, here, .inr (done.mono continues.recorded larger)⟩
        · exact ⟨j, here, .inl member⟩
      · have visits := continues.visits
        rw [pending, List.length_append, List.length_cons]
        have same : unrecorded listed passing = unrecorded listed w := rfl
        have left : passing.pending.length = before.length + rest.length := List.length_append
        omega

/-- With fuel enough the walk ends when nothing is pending. -/
theorem closed_of_explore (table : Tabulates s listed) (fuel : Nat) (closing : Closing s w)
    (enough : w.pending.length + unrecorded listed w ≤ fuel)
    (explored : explore s fuel w = .ok w') : Closing s w' ∧ w'.pending = [] := by
  induction fuel generalizing w with
  | zero =>
    cases explored
    exact ⟨closing, List.length_eq_zero_iff.1 (by omega)⟩
  | succ fuel ih =>
    unfold explore at explored
    cases pending : w.pending with
    | nil =>
      rw [pending] at explored
      cases explored
      exact ⟨closing, pending⟩
    | cons entry rest =>
      obtain ⟨i, depth⟩ := entry
      rw [pending] at explored
      simp only at explored
      split at explored
      · cases explored
      · next middle visited =>
        obtain ⟨closing', fewer⟩ := closing_of_visit table closing
          (show w.pending = [] ++ (i, depth) :: rest from pending) visited
        exact ih closing' (by omega) explored

/-! ## Decoding -/

/-- An instruction that was read stands where it was read, which is within the code, and
ends further on. -/
theorem span_of_decode {code : Code} {offset : Nat} {i : Instruction}
    (decoded : Instruction.decode code offset = .ok i) :
    i.offset = offset ∧ offset < code.size ∧ offset < i.next := by
  simp only [Instruction.decode] at decoded
  split at decoded
  · cases decoded
  · next byte found =>
    have inside := (Array.getElem?_eq_some_iff.1 found).1
    suffices span : i.offset = offset ∧ offset < i.next from ⟨span.1, inside, span.2⟩
    have mapped : ∀ {α : Type} {result : Except MalformedCode α} {f : α → Instruction},
        (∀ operand, (f operand).offset = offset ∧ offset < (f operand).next) →
        result.map f = .ok i → i.offset = offset ∧ offset < i.next := by
      intro α result f same read
      cases result with
      | error fault => cases read
      | ok operand =>
        cases read
        exact same operand
    have one := Nat.lt_succ_self offset
    unfold Instruction.read at decoded
    split at decoded
    all_goals first
      | (cases decoded; exact ⟨rfl, one⟩)
      | exact mapped (fun _ => ⟨rfl, Nat.lt_of_lt_of_le one (Nat.le_add_right _ _)⟩) decoded
      | cases decoded

theorem offset_of_decode {code : Code} {offset : Nat} {i : Instruction}
    (decoded : Instruction.decode code offset = .ok i) : i.offset = offset :=
  (span_of_decode decoded).1

/-- What decoding adds are the instructions at their offsets, beginning with the
one at the offset where it starts. -/
theorem decodeFrom_spec {code : Code} (limit offset : Nat) (done result : Array Instruction)
    (decoded : Instruction.decodeFrom code limit offset done = .ok result) :
    ∃ more, result.toList = done.toList ++ more ∧
      (∀ i ∈ more, Instruction.decode code i.offset = .ok i) ∧
        ∀ i, more.head? = some i → i.offset = offset := by
  induction limit generalizing offset done with
  | zero =>
    cases decoded
    exact ⟨[], by simp, by simp, by simp⟩
  | succ limit ih =>
    unfold Instruction.decodeFrom at decoded
    split at decoded
    · cases decoded
      exact ⟨[], by simp, by simp, by simp⟩
    · split at decoded
      · cases decoded
      · next i read =>
        obtain ⟨more, whole, each, -⟩ := ih i.next (done.push i) decoded
        have here := offset_of_decode read
        refine ⟨i :: more, by simpa using whole, ?_, ?_⟩
        · intro j member
          rcases List.mem_cons.1 member with rfl | later
          · rw [here]
            exact read
          · exact each j later
        · intro j first
          cases first
          exact here

/-- The instructions of a whole string of bytes are those at their offsets, from 0 on. -/
theorem decodeAll_spec {code : Code} {listed : List Instruction}
    (decoded : Instruction.decodeAll code = .ok listed) :
    (∀ i ∈ listed, Instruction.decode code i.offset = .ok i) ∧
      ∀ i, listed.head? = some i → i.offset = 0 := by
  unfold Instruction.decodeAll at decoded
  cases split_ : Instruction.decodeFrom code code.size 0 #[] with
  | error fault =>
    rw [split_] at decoded
    cases decoded
  | ok result =>
    rw [split_] at decoded
    cases decoded
    obtain ⟨more, whole, each, first⟩ := decodeFrom_spec _ _ _ _ split_
    have same : result.toList = more := by simpa using whole
    rw [same]
    exact ⟨each, first⟩

/-! ## Tables of whole strings -/

/-- A listed instruction leaves no gap at its offset. -/
theorem byOffset_isSome {codeSize : Nat} {listed : List Instruction} {i : Instruction}
    (member : i ∈ listed) (inside : i.offset < codeSize) :
    ∃ j, ((byOffset codeSize listed)[i.offset]?).join = some j := by
  have filled : ∀ (listed : List Instruction) (table : Array (Option Instruction)),
      i.offset < table.size →
      (i ∈ listed ∨ ∃ j, (table[i.offset]?).join = some j) →
      ∃ j, ((listed.foldl (fun table i => table.setIfInBounds i.offset (some i))
        table)[i.offset]?).join = some j := by
    intro listed
    induction listed with
    | nil =>
      intro table _ known
      exact known.elim (fun absurd_ => by cases absurd_) id
    | cons first rest ih =>
      intro table within known
      refine ih _ (by simpa using within) ?_
      rcases known with member | ⟨j, here⟩
      · rcases List.mem_cons.1 member with rfl | later
        · exact .inr ⟨i, by simp [within]⟩
        · exact .inl later
      · right
        by_cases same : first.offset = i.offset
        · exact ⟨first, by simp [same, within]⟩
        · refine ⟨j, ?_⟩
          rw [Array.getElem?_setIfInBounds, if_neg same]
          exact here
  exact filled listed _ (by simpa using inside) (.inl member)

/-- The walk begins by recording depth 0 at the first instruction. -/
theorem closing_start {codeSize : Nat} {first : Instruction} {s : Subject}
    (size : s.instructions.size = codeSize) (nonempty : 0 < codeSize)
    (here : s.instructionAt? (0 : Nat) = some first) : Closing s (start codeSize first) := by
  have at_ : ∀ offset, (start codeSize first).depthAt? offset =
      if offset = 0 then some 0 else none := by
    intro offset
    unfold Walk.depthAt? start
    simp only [Array.getElem?_setIfInBounds, Array.size_replicate, Array.getElem?_replicate]
    by_cases zero : offset = 0
    · subst zero
      simp [nonempty]
    · rw [if_neg (Ne.symm zero), if_neg zero]
      split <;> rfl
  refine ⟨?_, by rw [at_]; rfl, ?_⟩
  · rw [size]
    simp [start]
  · intro offset depth recorded
    rw [at_] at recorded
    split at recorded
    · next zero =>
      cases recorded
      subst zero
      exact ⟨first, here, .inl (List.mem_cons_self ..)⟩
    · cases recorded

/-! ## Code that was split -/

/-- What the analysis is told about code that was split into instructions. -/
def subjectOf (code : Code) (listed : List Instruction) (constantCount argCount : Int) : Subject :=
  ⟨byOffset code.size listed, code.size, constantCount, argCount⟩

section

variable {code : Code} {constantCount argCount : Int} {first i : Instruction}
  {others : List Instruction}

theorem tabulates_subjectOf :
    Tabulates (subjectOf code listed constantCount argCount) listed :=
  ⟨fun place i found => ((byOffset_spec code.size listed).2 place i found).1,
    fun place i found => ((byOffset_spec code.size listed).2 place i found).2⟩

/-- Two entries for one offset are the same, for both are what the code has there. -/
theorem decode_of_instructionAt? (decoded : Instruction.decodeAll code = .ok listed) {place : Nat}
    (found : (subjectOf code listed constantCount argCount).instructionAt? place = some i) :
    Instruction.decode code place = .ok i := by
  have entry : ((byOffset code.size listed)[place]?).join = some i := found
  obtain ⟨offset, member⟩ := (byOffset_spec code.size listed).2 place i entry
  rw [← offset]
  exact (decodeAll_spec decoded).1 i member

variable (constantCount argCount) in
theorem instructionAt?_of_mem (decoded : Instruction.decodeAll code = .ok listed)
    (member : i ∈ listed) :
    (subjectOf code listed constantCount argCount).instructionAt? (i.offset : Nat) = some i := by
  have read := (decodeAll_spec decoded).1 i member
  obtain ⟨j, found⟩ := byOffset_isSome member (span_of_decode read).2.1
  have there : (subjectOf code listed constantCount argCount).instructionAt? i.offset = some j :=
    found
  have same := (decode_of_instructionAt? decoded there).symm.trans read
  cases same
  exact found

variable (constantCount argCount) in
/-- Before the first visit nothing but the first instruction is to be done, and there
are no more visits to come than there are instructions. -/
theorem closing_of_decodeAll (decoded : Instruction.decodeAll code = .ok (first :: others)) :
    Closing (subjectOf code (first :: others) constantCount argCount) (start code.size first) ∧
      (start code.size first).pending.length +
        unrecorded (first :: others) (start code.size first) ≤ (first :: others).length := by
  obtain ⟨each, zero⟩ := decodeAll_spec decoded
  have first_zero := zero first rfl
  have first_read := each first (List.mem_cons_self ..)
  have nonempty : 0 < code.size := first_zero ▸ (span_of_decode first_read).2.1
  have here := instructionAt?_of_mem constantCount argCount decoded (List.mem_cons_self ..)
  rw [first_zero] at here
  have closing := closing_start (byOffset_spec code.size (first :: others)).1 nonempty here
  refine ⟨closing, ?_⟩
  have recorded : ((start code.size first).depthAt? first.offset).isNone = false := by
    rw [first_zero, closing.start]
    rfl
  have le : others.countP (fun i => ((start code.size first).depthAt? i.offset).isNone) ≤
    others.length := List.countP_le_length
  have one : (start code.size first).pending.length = 1 := rfl
  unfold unrecorded
  rw [List.countP_cons, recorded, one, List.length_cons]
  simp only [Bool.false_eq_true, if_false]
  omega

end

/-! ## The complete walk -/

/-- The walk that the analysis returns annotates the code. -/
theorem annotates_of_analyse {code : Code} {constantCount argCount : Int} {w : Walk}
    (analysed : analyse code constantCount argCount = .ok w) :
    Annotates code constantCount argCount w.largest w.depthAt? := by
  unfold analyse at analysed
  split at analysed
  · cases analysed
  · cases analysed
  · next first others decoded =>
    obtain ⟨closing, enough⟩ := closing_of_decodeAll constantCount argCount decoded
    obtain ⟨closed, drained⟩ := closed_of_explore tabulates_subjectOf _ closing enough analysed
    refine ⟨closed.start, fun offset depth recorded => ?_⟩
    obtain ⟨i, found, waiting | settled⟩ := closed.each offset depth recorded
    · rw [drained] at waiting
      cases waiting
    · refine ⟨i, decode_of_instructionAt? decoded found, settled.admits, fun target member => ?_⟩
      obtain ⟨j, there, known⟩ := settled.flows target member
      cases target with
      | ofNat place =>
        refine ⟨place, rfl, ?_⟩
        rw [← tabulates_subjectOf.offset place j there]
        exact known
      | negSucc _ => cases there

end MessageMachine.StackDepth
