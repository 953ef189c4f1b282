/-
# Sizes that grow

Layout gives every part a size and lets the parts grow that need more. `Assembler.grow`
takes the larger of what a part has and what it needs, and a method is laid out only if
in the end every part fills its size. That this always happens rests on one invariant:
no part is given more than it needs (`Tight`). It holds of the smallest sizes, and it
survives a round since needs grow with sizes: when parts become longer, a distance moves
away from zero and never towards it, and so does the length of its encoding. A backward
jump covers its own bytes, which is no exception.

The rounds come to an end since a round that changes anything adds a byte. A jump over
fewer than `2 ^ 31` bytes takes six at most, four more than it begins with, and there are
more than four rounds for every part.
-/

import MessageMachine.Proofs.Layout

namespace MessageMachine.Assembler

/-! ## Sums of sizes -/

/-- The bytes that sizes make up together. -/
def total (sizes : Array Nat) : Nat :=
  sizes.toList.sum

/-- No size is larger, part by part. -/
structure Below (sizes sizes' : Array Nat) : Prop where
  size : sizes.size = sizes'.size
  le : ∀ place, sizes.getD place 0 ≤ sizes'.getD place 0

namespace Below

variable {sizes sizes' sizes'' : Array Nat}

theorem refl (sizes : Array Nat) : Below sizes sizes :=
  ⟨rfl, fun _ => Nat.le_refl _⟩

theorem trans (first : Below sizes sizes') (second : Below sizes' sizes'') : Below sizes sizes'' :=
  ⟨first.size.trans second.size, fun place => Nat.le_trans (first.le place) (second.le place)⟩

end Below

theorem sum_take (sizes : List Nat) (place : Nat) :
    (sizes.take place).sum = ∑ i ∈ Finset.range place, sizes.getD i 0 := by
  induction place with
  | zero => rfl
  | succ place ih =>
    rw [List.take_add_one, List.sum_append, ih, Finset.sum_range_succ, List.getD_eq_getElem?_getD]
    cases sizes[place]? <;> simp

theorem getD_offsets_eq_sum (sizes : Array Nat) {place : Nat} (le : place ≤ sizes.size) :
    (offsets sizes).getD place 0 = ∑ i ∈ Finset.range place, sizes.getD i 0 := by
  rw [getD_offsets sizes le, sum_take]
  simp [Array.getD_eq_getD_getElem?, List.getD_eq_getElem?_getD]

theorem total_eq_sum (sizes : Array Nat) :
    total sizes = ∑ i ∈ Finset.range sizes.size, sizes.getD i 0 := by
  rw [← getD_offsets_eq_sum sizes (Nat.le_refl _), getD_offsets sizes (Nat.le_refl _),
    List.take_of_length_le (Nat.le_of_eq sizes.length_toList), total]

theorem sum_le_total (sizes : Array Nat) (low : Nat) {high : Nat} (le : high ≤ sizes.size) :
    ∑ i ∈ Finset.Ico low high, sizes.getD i 0 ≤ total sizes := by
  rw [total_eq_sum]
  apply Finset.sum_le_sum_of_subset
  intro i inside
  rw [Finset.mem_Ico] at inside
  exact Finset.mem_range.2 (Nat.lt_of_lt_of_le inside.2 le)

theorem Below.total_le {sizes sizes' : Array Nat} (below : Below sizes sizes') :
    total sizes ≤ total sizes' := by
  rw [total_eq_sum, total_eq_sum, below.size]
  exact Finset.sum_le_sum fun place _ => below.le place

/-- Sizes that are no smaller in sum are the same. -/
theorem Below.eq_of_total_le {sizes sizes' : Array Nat} (below : Below sizes sizes')
    (ge : total sizes' ≤ total sizes) : sizes = sizes' := by
  have same : total sizes = total sizes' := Nat.le_antisymm below.total_le ge
  rw [total_eq_sum, total_eq_sum, below.size] at same
  have each := (Finset.sum_eq_sum_iff_of_le fun place _ => below.le place).1 same
  apply Array.ext below.size
  intro place lt lt'
  have here := each place (Finset.mem_range.2 lt')
  simpa [Array.getD_eq_getD_getElem?, lt, lt'] using here

/-! ## Distances -/

variable {a : Assembler} {sizes sizes' : Array Nat} {place : Nat} {part : Part} {label : Label}

/-- Labels are bound to places within the method. -/
def Placed (a : Assembler) : Prop :=
  ∀ label goal, a.place? label = some goal → goal ≤ a.parts.size

/-- A jump ahead covers the parts in between, a jump back those from its goal up to and
including itself. -/
theorem distance_eq_sum (placed : a.Placed) (count : sizes.size = a.parts.size)
    (inside : place < a.parts.size) :
    a.distance (offsets sizes) place (sizes.getD place 0) label =
      (∑ i ∈ Finset.Ico (place + 1) ((a.place? label).getD 0), sizes.getD i 0 : Nat) -
        (∑ i ∈ Finset.Ico ((a.place? label).getD 0) (place + 1), sizes.getD i 0 : Nat) := by
  have within : (a.place? label).getD 0 ≤ a.parts.size := by
    cases found : a.place? label with
    | none => exact Nat.zero_le _
    | some goal => exact placed label goal found
  unfold distance
  simp only
  generalize (a.place? label).getD 0 = goal at within
  rw [getD_offsets_eq_sum sizes (by omega), getD_offsets_eq_sum sizes (by omega)]
  have after := Finset.sum_range_succ (fun i => sizes.getD i 0) place
  rcases Nat.le_total goal (place + 1) with back | ahead
  · have split_ := Finset.sum_range_add_sum_Ico (fun i => sizes.getD i 0) back
    rw [Finset.Ico_eq_empty_of_le back, Finset.sum_empty]
    omega
  · have split_ := Finset.sum_range_add_sum_Ico (fun i => sizes.getD i 0) ahead
    rw [Finset.Ico_eq_empty_of_le ahead, Finset.sum_empty]
    omega

/-- Where sizes grow, distances move away from zero. -/
theorem distance_away (placed : a.Placed) (count : sizes.size = a.parts.size)
    (below : Below sizes sizes') (inside : place < a.parts.size) :
    let near := a.distance (offsets sizes) place (sizes.getD place 0) label
    let far := a.distance (offsets sizes') place (sizes'.getD place 0) label
    0 ≤ near ∧ near ≤ far ∨ far ≤ near ∧ near ≤ 0 := by
  simp only
  rw [distance_eq_sum placed count inside, distance_eq_sum placed (below.size ▸ count) inside]
  have more (low high : Nat) : ∑ i ∈ Finset.Ico low high, sizes.getD i 0 ≤
      ∑ i ∈ Finset.Ico low high, sizes'.getD i 0 := Finset.sum_le_sum fun i _ => below.le i
  generalize (a.place? label).getD 0 = goal
  have ahead_le := more (place + 1) goal
  have back_le := more goal (place + 1)
  rcases Nat.le_total goal (place + 1) with back | ahead
  · rw [Finset.Ico_eq_empty_of_le back, Finset.sum_empty, Finset.sum_empty]
    omega
  · rw [Finset.Ico_eq_empty_of_le ahead, Finset.sum_empty, Finset.sum_empty]
    omega

/-- No jump goes further than all parts together. -/
theorem natAbs_distance_le (placed : a.Placed) (count : sizes.size = a.parts.size)
    (inside : place < a.parts.size) (label : Label) :
    (a.distance (offsets sizes) place (sizes.getD place 0) label).natAbs ≤ total sizes := by
  have within : (a.place? label).getD 0 ≤ a.parts.size := by
    cases found : a.place? label with
    | none => exact Nat.zero_le _
    | some goal => exact placed label goal found
  rw [distance_eq_sum placed count inside]
  have ahead_le := sum_le_total sizes (place + 1) (count ▸ within)
  have back_le := sum_le_total sizes ((a.place? label).getD 0)
    (show place + 1 ≤ sizes.size by omega)
  omega

/-! ## Needs -/

/-- The bytes that a part needs where the parts have the given sizes. -/
def need (a : Assembler) (sizes : Array Nat) (place : Nat) (part : Part) : Nat :=
  (a.resolve sizes (offsets sizes) place part).encode.length

/-- A jump needs a byte and its distance. -/
theorem need_of_label (jumps : part.label? = some label) :
    a.need sizes place part =
      (Leb128.encodeInt (a.distance (offsets sizes) place (sizes.getD place 0) label)).length + 1 := by
  cases part <;> cases jumps <;> rfl

/-- Needs grow with sizes. -/
theorem need_mono (placed : a.Placed) (count : sizes.size = a.parts.size)
    (below : Below sizes sizes') (here : a.parts[place]? = some part) :
    a.need sizes place part ≤ a.need sizes' place part := by
  have inside : place < a.parts.size := (Array.getElem?_eq_some_iff.1 here).1
  cases jumps : part.label? with
  | none =>
    cases part with
    | plain op => exact Nat.le_refl _
    | jump target | jumpIfFalse target => cases jumps
  | some label =>
    rw [need_of_label jumps, need_of_label jumps]
    exact Nat.succ_le_succ
      (Leb128.length_encodeInt_mono (distance_away placed count below inside))

/-- The size that a part begins with. -/
def Part.initialSize (part : Part) : Nat :=
  match part with
  | .plain operation => operation.encode.length
  | .jump _ | .jumpIfFalse _ => 2

/-- In code of fewer than `2 ^ 31` bytes no part needs more than four bytes more than it
begins with. -/
theorem need_le (placed : a.Placed) (count : sizes.size = a.parts.size)
    (short : total sizes < 2 ^ 31) (here : a.parts[place]? = some part) :
    a.need sizes place part ≤ part.initialSize + 4 := by
  have inside : place < a.parts.size := (Array.getElem?_eq_some_iff.1 here).1
  cases jumps : part.label? with
  | none =>
    cases part with
    | plain op => exact Nat.le_add_right _ _
    | jump target | jumpIfFalse target => cases jumps
  | some label =>
    have two : part.initialSize = 2 := by
      cases part <;> cases jumps <;> rfl
    have reach := natAbs_distance_le placed count inside label
    have fits := (Leb128.length_encodeInt_le_iff
      (a.distance (offsets sizes) place (sizes.getD place 0) label) 4).2 (by omega)
    rw [need_of_label jumps, two]
    omega

/-! ## Rounds -/

/-- No part has more than it needs. -/
structure Tight (a : Assembler) (sizes : Array Nat) : Prop where
  size : sizes.size = a.parts.size
  le : ∀ place part, a.parts[place]? = some part → sizes.getD place 0 ≤ a.need sizes place part

theorem size_grow : (a.grow sizes).size = a.parts.size := by
  simp [grow]

theorem getD_grow (here : a.parts[place]? = some part) :
    (a.grow sizes).getD place 0 = max (sizes.getD place 0) (a.need sizes place part) := by
  unfold grow
  simp only [Array.getD_eq_getD_getElem?, Array.getElem?_mapIdx, here]
  rfl

/-- A round gives every part what it needs. -/
theorem Tight.getD_grow (tight : a.Tight sizes) (here : a.parts[place]? = some part) :
    (a.grow sizes).getD place 0 = a.need sizes place part := by
  rw [Assembler.getD_grow here, Nat.max_eq_right (tight.le place part here)]

theorem below_grow (count : sizes.size = a.parts.size) : Below sizes (a.grow sizes) where
  size := by rw [size_grow, count]
  le := by
    intro place
    by_cases inside : place < a.parts.size
    · rw [getD_grow (Array.getElem?_eq_getElem inside)]
      exact Nat.le_max_left _ _
    · simp [Array.getD_eq_getD_getElem?, count, inside]

/-- After a round no part has more than it needs at the sizes after the round. -/
theorem Tight.grow (placed : a.Placed) (tight : a.Tight sizes) : a.Tight (a.grow sizes) where
  size := size_grow
  le := by
    intro place part here
    rw [tight.getD_grow here]
    exact need_mono placed tight.size (below_grow tight.size) here

theorem getD_initialSizes (here : a.parts[place]? = some part) :
    a.initialSizes.getD place 0 = part.initialSize := by
  simp only [initialSizes, Array.getD_eq_getD_getElem?, Array.getElem?_map, here]
  cases part <;> rfl

theorem tight_initialSizes : a.Tight a.initialSizes where
  size := by simp [initialSizes]
  le := by
    intro place part here
    rw [getD_initialSizes here]
    cases jumps : part.label? with
    | none =>
      cases part with
      | plain op => exact Nat.le_refl _
      | jump target | jumpIfFalse target => cases jumps
    | some label =>
      have two : part.initialSize = 2 := by
        cases part <;> cases jumps <;> rfl
      have positive := Leb128.length_encodeInt_pos
        (a.distance (offsets a.initialSizes) place (a.initialSizes.getD place 0) label)
      rw [need_of_label jumps, two]
      omega

/-- What any number of rounds comes to: sizes that are still tight and that have grown by
a byte in every round, unless they are settled. -/
theorem settle_spec (placed : a.Placed) (rounds : Nat) (tight : a.Tight sizes) :
    a.Tight (a.settle rounds sizes) ∧ Below sizes (a.settle rounds sizes) ∧
      (a.grow (a.settle rounds sizes) = a.settle rounds sizes ∨
        total sizes + rounds ≤ total (a.settle rounds sizes)) := by
  induction rounds generalizing sizes with
  | zero => exact ⟨tight, .refl _, .inr (Nat.le_refl _)⟩
  | succ rounds ih =>
    unfold settle
    simp only
    split
    next settled => exact ⟨tight, .refl _, .inl settled⟩
    next changed =>
      have below := below_grow (a := a) tight.size
      have more : total sizes < total (a.grow sizes) := by
        by_contra same
        exact changed (below.eq_of_total_le (Nat.le_of_not_lt same)).symm
      obtain ⟨tight', below', settles⟩ := ih (tight.grow placed)
      exact ⟨tight', below.trans below', settles.imp_right (by omega)⟩

/-- Sizes that need no other round stay as they are in any number of rounds. -/
theorem settle_of_settled (settled : a.grow sizes = sizes) (rounds : Nat) :
    a.settle rounds sizes = sizes := by
  cases rounds with
  | zero => rfl
  | succ rounds => rw [settle, if_pos settled]

/-- More rounds than enough make no difference. -/
theorem settle_of_le {rounds rounds' : Nat}
    (settled : a.grow (a.settle rounds sizes) = a.settle rounds sizes) (le : rounds ≤ rounds') :
    a.settle rounds' sizes = a.settle rounds sizes := by
  induction rounds generalizing sizes rounds' with
  | zero => exact settle_of_settled settled rounds'
  | succ rounds ih =>
    obtain ⟨more, rfl⟩ := Nat.exists_eq_add_of_le' (Nat.le_trans (Nat.succ_pos rounds) le)
    unfold settle at settled ⊢
    simp only at settled ⊢
    split
    · rfl
    next changed =>
      rw [if_neg changed] at settled
      exact ih settled (by omega)

/-- Four bytes more for every part are all that code of fewer than `2 ^ 31` bytes takes. -/
theorem total_le (placed : a.Placed) (tight : a.Tight sizes) (below : Below a.initialSizes sizes)
    (short : total sizes < 2 ^ 31) : total sizes ≤ total a.initialSizes + 4 * a.parts.size := by
  have bound : ∀ place ∈ Finset.range a.parts.size,
      sizes.getD place 0 ≤ a.initialSizes.getD place 0 + 4 := by
    intro place inside
    have here := Array.getElem?_eq_getElem (Finset.mem_range.1 inside)
    rw [getD_initialSizes here]
    exact Nat.le_trans (tight.le place _ here) (need_le placed tight.size short here)
  have sums := Finset.sum_le_sum bound
  rw [Finset.sum_add_distrib, Finset.sum_const, Finset.card_range, smul_eq_mul] at sums
  rw [total_eq_sum, total_eq_sum, below.size, tight.size]
  omega

/-- The sizes of code of fewer than `2 ^ 31` bytes are settled. -/
theorem grow_sizes (placed : a.Placed) (short : total a.sizes < 2 ^ 31) :
    a.grow a.sizes = a.sizes := by
  obtain ⟨tight, below, settled | many⟩ :=
    settle_spec placed (8 * a.parts.size + 1) (tight_initialSizes (a := a))
  · exact settled
  · have few := total_le placed tight below short
    unfold sizes at short
    omega

/-- Every part of settled code has exactly what it needs. -/
theorem map_operations_sizes (placed : a.Placed) (short : total a.sizes < 2 ^ 31) :
    (a.operations a.sizes).map (·.encode.length) = a.sizes := by
  have tight := (settle_spec placed (8 * a.parts.size + 1) (tight_initialSizes (a := a))).1
  apply Array.ext
  · rw [Array.size_map, operations, Array.size_mapIdx]
    exact tight.size.symm
  · intro place lt lt'
    have inside : place < a.parts.size := by
      rw [Array.size_map, operations, Array.size_mapIdx] at lt
      exact lt
    have here := Array.getElem?_eq_getElem inside
    have filled := tight.getD_grow here
    rw [← sizes, grow_sizes placed short, Array.getD_eq_getD_getElem?,
      Array.getElem?_eq_getElem lt', Option.getD_some] at filled
    rw [filled, Array.getElem_map]
    simp only [operations, Array.getElem_mapIdx]
    rfl

end MessageMachine.Assembler
