/-
# Equality is bisimilarity

Two values are equal when nothing that can be reached by heads and tails tells them apart.
`Bisimilar` says so without a comparison: there is a relation that holds of the two, and
whatever it relates is identical, has the same text, or is a pair of cells whose heads and
whose tails it relates again. In cyclic data such a relation goes round for ever, and so
may two cycles of different lengths.

A comparison takes up what is pending in some order. `Rounds` leaves the order open. While a
comparison goes on, what it has taken up is explained by what it has still to do, so when
nothing is left to do the cells taken up are a relation of that kind. And where there is
such a relation, everything that ever becomes pending belongs to it, so that nothing is
found to differ. Hence every order comes to one answer, and each comes to an end, because
every round uses up some of a finite allowance.
-/

import MessageMachine.Proofs.Heap.Equality

namespace MessageMachine

theorem Value.identical_iff {x y : Value} :
    x.identical y = true ↔ x = y ∧ x ≠ malformed .nan := by
  rw [identical, decide_eq_true_iff]

namespace Heap

/-! ## Bisimilarity -/

/-- Two values match when they are alike at first sight, and their heads and tails, if they
have any, are related. -/
inductive Matches (h : Heap) (R : Value → Value → Prop) : Value → Value → Prop
  | identical {x y : Value} : x.identical y = true → Matches h R x y
  | strings {s t : Ref .string} :
      h.stringText s = h.stringText t → Matches h R (.string s) (.string t)
  | cells {p q : Ref .pair} : R (h.head p) (h.head q) → R (h.tail p) (h.tail q) →
      Matches h R (.pair p) (.pair q)

/-- Whatever is related matches. -/
def IsBisimulation (h : Heap) (R : Value → Value → Prop) : Prop :=
  ∀ x y, R x y → h.Matches R x y

/-- Some bisimulation relates the two values. -/
def Bisimilar (h : Heap) (x y : Value) : Prop :=
  ∃ R, h.IsBisimulation R ∧ R x y

variable {h : Heap} {R S : Value → Value → Prop} {x y z : Value}

theorem Matches.mono (found : h.Matches R x y) (weaker : ∀ a b, R a b → S a b) :
    h.Matches S x y := by
  cases found with
  | identical same => exact .identical same
  | strings text => exact .strings text
  | cells heads tails => exact .cells (weaker _ _ heads) (weaker _ _ tails)

theorem Matches.symm (found : h.Matches R x y) : h.Matches (fun a b => R b a) y x := by
  cases found with
  | identical same =>
    obtain ⟨rfl, number⟩ := Value.identical_iff.1 same
    exact .identical (Value.identical_iff.2 ⟨rfl, number⟩)
  | strings text => exact .strings text.symm
  | cells heads tails => exact .cells heads tails

/-- Bisimilarity is a bisimulation itself. -/
theorem isBisimulation_bisimilar (h : Heap) : h.IsBisimulation h.Bisimilar := by
  rintro x y ⟨R, bisimulation, related⟩
  exact (bisimulation x y related).mono fun a b related => ⟨R, bisimulation, related⟩

theorem bisimilar_of_identical (same : x.identical y = true) : h.Bisimilar x y :=
  ⟨fun a b => a.identical b = true, fun _ _ => .identical, same⟩

theorem Bisimilar.symm (related : h.Bisimilar x y) : h.Bisimilar y x := by
  obtain ⟨R, bisimulation, related⟩ := related
  exact ⟨fun a b => R b a, fun a b found => (bisimulation b a found).symm, related⟩

theorem Bisimilar.trans (first : h.Bisimilar x y) (second : h.Bisimilar y z) :
    h.Bisimilar x z := by
  -- Where one of the two steps is an identity, the other one alone goes on.
  refine ⟨fun a c => h.Bisimilar a c ∨ ∃ b, h.Bisimilar a b ∧ h.Bisimilar b c, ?_,
    .inr ⟨y, first, second⟩⟩
  rintro a c (related | ⟨b, first, second⟩)
  · exact (isBisimulation_bisimilar h a c related).mono fun _ _ => .inl
  · cases isBisimulation_bisimilar h a b first with
    | identical same =>
      obtain ⟨rfl, -⟩ := Value.identical_iff.1 same
      exact (isBisimulation_bisimilar h a c second).mono fun _ _ => .inl
    | strings text =>
      cases isBisimulation_bisimilar h _ c second with
      | identical same =>
        obtain ⟨rfl, -⟩ := Value.identical_iff.1 same
        exact .strings text
      | strings text' => exact .strings (text.trans text')
    | cells heads tails =>
      cases isBisimulation_bisimilar h _ c second with
      | identical same =>
        obtain ⟨rfl, -⟩ := Value.identical_iff.1 same
        exact .cells (.inl heads) (.inl tails)
      | cells heads' tails' => exact .cells (.inr ⟨_, heads, heads'⟩) (.inr ⟨_, tails, tails'⟩)

/-! ## Comparisons in any order -/

/-- How far a comparison has got. -/
structure Comparison where
  pending : List (Value × Value)
  compared : CellPairs

/-- The beginning of the comparison of two values. -/
def Comparison.start (x y : Value) : Comparison := ⟨[(x, y)], {}⟩

/-- What becomes of a comparison when two values are taken up and the others are left for
later. There is no going on if the two differ. -/
inductive TakesUp (h : Heap) (others : Comparison) : Value → Value → Option Comparison → Prop
  | identical {x y : Value} : x.identical y = true → TakesUp h others x y (some others)
  | strings {s t : Ref .string} : h.stringText s = h.stringText t →
      TakesUp h others (.string s) (.string t) (some others)
  | again {p q : Ref .pair} : others.compared.contains (p.index, q.index) = true →
      TakesUp h others (.pair p) (.pair q) (some others)
  | cells {p q : Ref .pair} : (Value.pair p).identical (.pair q) = false →
      others.compared.contains (p.index, q.index) = false →
      TakesUp h others (.pair p) (.pair q) (some
        ⟨(h.head p, h.head q) :: (h.tail p, h.tail q) :: others.pending,
          others.compared.insert (p.index, q.index)⟩)
  | differ {x y : Value} : x.identical y = false → (∀ p q, x = .pair p → y ≠ .pair q) →
      (∀ s t, x = .string s → y = .string t → h.stringText s ≠ h.stringText t) →
      TakesUp h others x y none

/-- One round, in which any of what is pending is taken up. -/
inductive Round (h : Heap) (c : Comparison) : Option Comparison → Prop
  | intro {before rest : List (Value × Value)} {x y : Value} {outcome : Option Comparison} :
      c.pending = before ++ (x, y) :: rest →
      TakesUp h ⟨before ++ rest, c.compared⟩ x y outcome → Round h c outcome

/-- What a comparison may have come to after a number of rounds. -/
inductive Rounds (h : Heap) (c : Comparison) : Nat → Option Comparison → Prop
  | here : Rounds h c 0 (some c)
  | next {count : Nat} {c' : Comparison} {outcome : Option Comparison} :
      Rounds h c count (some c') → Round h c' outcome → Rounds h c (count + 1) outcome

/-- A comparison is over when something was found to differ or nothing is pending. -/
def Comparison.Over : Option Comparison → Prop
  | some c => c.pending = []
  | none => True

variable {c c' others : Comparison} {outcome : Option Comparison} {count : Nat}

/-- Any two values can be taken up. -/
theorem exists_takesUp (h : Heap) (others : Comparison) (x y : Value) :
    ∃ outcome, h.TakesUp others x y outcome := by
  cases same : x.identical y with
  | true => exact ⟨_, .identical same⟩
  | false =>
    by_cases cells : ∃ p q, x = .pair p ∧ y = .pair q
    · obtain ⟨p, q, rfl, rfl⟩ := cells
      cases met : others.compared.contains (p.index, q.index) with
      | true => exact ⟨_, .again met⟩
      | false => exact ⟨_, .cells same met⟩
    · by_cases strings : ∃ s t, x = .string s ∧ y = .string t ∧ h.stringText s = h.stringText t
      · obtain ⟨s, t, rfl, rfl, text⟩ := strings
        exact ⟨_, .strings text⟩
      · refine ⟨none, .differ same ?_ ?_⟩
        · exact fun p q left right => cells ⟨p, q, left, right⟩
        · exact fun s t left right text => strings ⟨s, t, left, right, text⟩

theorem exists_round (pending : c.pending ≠ []) : ∃ outcome, h.Round c outcome := by
  obtain ⟨⟨x, y⟩, rest, first⟩ := List.exists_cons_of_ne_nil pending
  obtain ⟨outcome, taken⟩ := h.exists_takesUp ⟨[] ++ rest, c.compared⟩ x y
  exact ⟨outcome, .intro first taken⟩

theorem Rounds.after (first : h.Round c (some c')) (later : h.Rounds c' count outcome) :
    h.Rounds c (count + 1) outcome := by
  induction later with
  | here => exact .next .here first
  | next _ round ih => exact .next ih round

/-- Some comparison comes to an end with the answer. -/
def Comparison.Answers (h : Heap) (c : Comparison) (answer : Bool) : Prop :=
  ∃ count outcome, h.Rounds c count outcome ∧ Over outcome ∧ outcome.isSome = answer

theorem Round.answers {answer : Bool} (round : h.Round c (some c'))
    (later : c'.Answers h answer) : c.Answers h answer := by
  obtain ⟨count, outcome, rounds, ended, answers⟩ := later
  exact ⟨count + 1, outcome, .after round rounds, ended, answers⟩

/-- What is pending first may be taken up. -/
theorem TakesUp.round {rest : List (Value × Value)} {compared : CellPairs}
    (taken : h.TakesUp ⟨rest, compared⟩ x y outcome) :
    h.Round ⟨(x, y) :: rest, compared⟩ outcome :=
  .intro (show (x, y) :: rest = [] ++ (x, y) :: rest from rfl) taken

/-- The comparison that is made takes up what became pending last, and it comes to its end. -/
theorem Settles.answers {pending : List (Value × Value)} {compared : CellPairs} {answer : Bool}
    (settles : h.Settles pending compared answer) :
    Comparison.Answers h ⟨pending, compared⟩ answer := by
  induction settles with
  | done compared => exact ⟨0, _, .here, rfl, rfl⟩
  | identical same _ ih => exact (TakesUp.round (.identical same)).answers ih
  | again met _ ih => exact (TakesUp.round (.again met)).answers ih
  | cells different fresh _ ih => exact (TakesUp.round (.cells different fresh)).answers ih
  | strings text _ ih => exact (TakesUp.round (.strings text)).answers ih
  | apart different cells strings =>
    exact ⟨1, none, .next .here (TakesUp.round (.differ different cells strings)), trivial, rfl⟩

/-! ## Rounds come to an end -/

/-- More rounds than this are not to come. -/
def Comparison.allowance (h : Heap) (c : Comparison) : Nat :=
  roundsOf c.pending + 6 * (h.uncompared c.compared).card

theorem TakesUp.allowance_lt (taken : h.TakesUp others x y (some c)) :
    c.allowance h < rounds (x, y) + others.allowance h := by
  have positive := rounds_pos (x, y)
  cases taken with
  | identical | strings | again => omega
  | cells different fresh => exact roundsOf_cells_lt _ fresh

theorem Round.allowance_lt (round : h.Round c (some c')) : c'.allowance h < c.allowance h := by
  obtain ⟨pending, taken⟩ := round
  have less := taken.allowance_lt
  simp only [Comparison.allowance, pending, roundsOf_append, roundsOf] at less ⊢
  omega

theorem Rounds.allowance_le (rounds : h.Rounds c count (some c')) :
    c'.allowance h + count ≤ c.allowance h := by
  generalize same : some c' = outcome at rounds
  induction rounds generalizing c' with
  | here =>
    cases same
    exact Nat.le_refl _
  | next _ round ih =>
    subst same
    have earlier := ih rfl
    have less := round.allowance_lt
    omega

/-- No comparison goes on for more rounds than it is allowed. -/
theorem Rounds.count_le (rounds : h.Rounds c count outcome) : count ≤ c.allowance h := by
  cases rounds with
  | here => exact Nat.zero_le _
  | next earlier round =>
    have before := earlier.allowance_le
    obtain @⟨_, _, x, y, _, pending, -⟩ := round
    have positive := rounds_pos (x, y)
    simp only [Comparison.allowance, pending, roundsOf_append, roundsOf] at before ⊢
    omega

/-! ## The verdict -/

/-- Two values are explained when they are alike at first sight, were taken up, or are still
to be taken up. -/
inductive Comparison.Explains (h : Heap) (c : Comparison) : Value → Value → Prop
  | identical {x y : Value} : x.identical y = true → Explains h c x y
  | strings {s t : Ref .string} :
      h.stringText s = h.stringText t → Explains h c (.string s) (.string t)
  | compared {p q : Ref .pair} :
      c.compared.contains (p.index, q.index) = true → Explains h c (.pair p) (.pair q)
  | pending {x y : Value} : (x, y) ∈ c.pending → Explains h c x y

/-- The heads and tails of what was taken up are explained. -/
def Comparison.Closed (h : Heap) (c : Comparison) : Prop :=
  ∀ p q : Ref .pair, c.compared.contains (p.index, q.index) = true →
    c.Explains h (h.head p) (h.head q) ∧ c.Explains h (h.tail p) (h.tail q)

/-- A round leaves everything explained that was. -/
theorem Round.explains (round : h.Round c (some c')) (explained : c.Explains h x y) :
    c'.Explains h x y := by
  obtain @⟨before, rest, a, b, _, pending, taken⟩ := round
  cases explained with
  | identical same => exact .identical same
  | strings text => exact .strings text
  | compared met =>
    cases taken with
    | identical | strings | again => exact .compared met
    | cells different fresh =>
      refine .compared ?_
      rw [Std.TreeSet.contains_insert, met, Bool.or_true]
  | pending member =>
    rw [pending, List.mem_append, List.mem_cons] at member
    have split_ : (x, y) = (a, b) ∨ (x, y) ∈ before ++ rest := by
      rw [List.mem_append]
      tauto
    rcases split_ with here | later
    · cases here
      cases taken with
      | identical same => exact .identical same
      | strings text => exact .strings text
      | again met => exact .compared met
      | cells different fresh => exact .compared Std.TreeSet.contains_insert_self
    · cases taken with
      | identical | strings | again => exact .pending later
      | cells different fresh =>
        exact .pending (List.mem_cons_of_mem _ (List.mem_cons_of_mem _ later))

/-- Two cells are the ones just taken up, or were among those before. -/
theorem contains_insert_iff {compared : CellPairs} {p q r t : Ref .pair} :
    (compared.insert (r.index, t.index)).contains (p.index, q.index) = true ↔
      (p = r ∧ q = t) ∨ compared.contains (p.index, q.index) = true := by
  obtain ⟨p⟩ := p
  obtain ⟨q⟩ := q
  obtain ⟨r⟩ := r
  obtain ⟨t⟩ := t
  rw [Std.TreeSet.contains_insert, Bool.or_eq_true, beq_iff_eq]
  simp only [compareLex, compareOn, Ordering.then_eq_eq, Nat.compare_eq_eq, Ref.mk.injEq]
  tauto

theorem Round.closed (round : h.Round c (some c')) (closed : c.Closed h) : c'.Closed h := by
  intro p q met
  have kept (met : c.compared.contains (p.index, q.index) = true) :
      c'.Explains h (h.head p) (h.head q) ∧ c'.Explains h (h.tail p) (h.tail q) :=
    (closed p q met).imp round.explains round.explains
  obtain ⟨pending, taken⟩ := round
  cases taken with
  | identical | strings | again => exact kept met
  | cells different fresh =>
    rcases contains_insert_iff.1 met with ⟨rfl, rfl⟩ | before
    · exact ⟨.pending (List.mem_cons_self ..),
        .pending (List.mem_cons_of_mem _ (List.mem_cons_self ..))⟩
    · exact kept before

/-- All the while the two values are explained, and so is what was taken up. -/
theorem Rounds.explains (rounds : h.Rounds (.start x y) count (some c)) :
    c.Explains h x y ∧ c.Closed h := by
  generalize same : some c = outcome at rounds
  induction rounds generalizing c with
  | here =>
    cases same
    refine ⟨.pending (List.mem_singleton_self _), fun p q met => ?_⟩
    simp [Comparison.start] at met
  | next _ round ih =>
    subst same
    obtain ⟨explained, closed⟩ := ih rfl
    exact ⟨round.explains explained, round.closed closed⟩

/-- When nothing is left to be taken up, explanations are a bisimulation. -/
theorem Comparison.Closed.isBisimulation (closed : c.Closed h) (ended : c.pending = []) :
    h.IsBisimulation (c.Explains h) := by
  intro a b explained
  cases explained with
  | identical same => exact .identical same
  | strings text => exact .strings text
  | compared met => exact .cells (closed _ _ met).1 (closed _ _ met).2
  | pending member =>
    rw [ended] at member
    cases member

/-- Everything that is pending is related. -/
def Comparison.Within (R : Value → Value → Prop) (c : Comparison) : Prop :=
  ∀ a b, (a, b) ∈ c.pending → R a b

/-- Where all that is pending is related by a bisimulation nothing is found to differ, and what
becomes pending is related again. -/
theorem Round.within (bisimulation : h.IsBisimulation R) (round : h.Round c outcome)
    (within : c.Within R) : ∃ c', outcome = some c' ∧ c'.Within R := by
  obtain @⟨before, rest, x, y, _, pending, taken⟩ := round
  have related : R x y := within x y (by rw [pending]; simp)
  have later : Comparison.Within R ⟨before ++ rest, c.compared⟩ := by
    intro a b member
    refine within a b ?_
    rw [pending, List.mem_append, List.mem_cons]
    exact (List.mem_append.1 member).imp_right .inr
  cases taken with
  | identical | strings | again => exact ⟨_, rfl, later⟩
  | @cells p q different fresh =>
    refine ⟨_, rfl, fun a b member => ?_⟩
    cases bisimulation _ _ related with
    | identical same =>
      rw [different] at same
      cases same
    | cells heads tails =>
      rcases List.mem_cons.1 member with here | member
      · cases here
        exact heads
      · rcases List.mem_cons.1 member with here | member
        · cases here
          exact tails
        · exact later a b member
  | differ different cells strings =>
    cases bisimulation _ _ related with
    | identical same =>
      rw [different] at same
      cases same
    | strings text => exact absurd text (strings _ _ rfl rfl)
    | cells heads tails => exact absurd rfl (cells _ _ rfl)

theorem Rounds.within (bisimulation : h.IsBisimulation R) (rounds : h.Rounds c count outcome)
    (within : c.Within R) : ∃ c', outcome = some c' ∧ c'.Within R := by
  induction rounds with
  | here => exact ⟨c, rfl, within⟩
  | next _ round ih =>
    obtain ⟨c', same, within'⟩ := ih
    cases same
    exact round.within bisimulation within'

/-- A comparison that is over has found no difference exactly if there is a bisimulation. -/
theorem Rounds.verdict (rounds : h.Rounds (.start x y) count outcome)
    (ended : Comparison.Over outcome) : outcome.isSome = true ↔ h.Bisimilar x y := by
  constructor
  · intro alike
    obtain ⟨c, rfl⟩ := Option.isSome_iff_exists.1 alike
    obtain ⟨explained, closed⟩ := rounds.explains
    exact ⟨_, closed.isBisimulation ended, explained⟩
  · rintro ⟨R, bisimulation, related⟩
    have first : Comparison.Within R (.start x y) := by
      intro a b member
      cases List.mem_singleton.1 member
      exact related
    obtain ⟨c, rfl, -⟩ := rounds.within bisimulation first
    rfl

/-- The answer to whether two values are equal is the verdict of a comparison. -/
theorem equal_iff_bisimilar (h : Heap) (x y : Value) : h.equal x y = true ↔ h.Bisimilar x y := by
  obtain ⟨count, outcome, rounds, ended, answers⟩ := (h.settles_equal x y).answers
  rw [← answers]
  exact Rounds.verdict rounds ended

/-! ## Equality -/

/-- What structural equality is in a heap, whatever cycles its cells form. -/
structure EqualityIsBisimilarity (h : Heap) : Prop where
  /-- Two values are equal if some bisimulation relates them, and only then. -/
  decides : ∀ x y, h.equal x y = true ↔ h.Bisimilar x y
  /-- The comparison comes to an end by itself, and this is its answer. -/
  settles : ∀ x y, h.Settles [(x, y)] {} (h.equal x y)
  /-- In whatever order what is pending is taken up, the number of rounds is bounded, and
  until the comparison is over there is always a next one. -/
  ends : ∀ x y count outcome, h.Rounds (.start x y) count outcome →
    count ≤ 6 * (h.pairs.size * h.pairs.size) + 3 ∧
      (Comparison.Over outcome ∨ ∃ next, h.Rounds (.start x y) (count + 1) next)
  /-- All orders come to the same answer. -/
  unordered : ∀ x y count outcome, h.Rounds (.start x y) count outcome →
    Comparison.Over outcome → outcome.isSome = h.equal x y
  /-- A value is equal to itself if it is identical to itself. -/
  refl : ∀ x, h.equal x x = x.identical x
  symm : ∀ x y, h.equal x y = h.equal y x
  trans : ∀ x y z, h.equal x y = true → h.equal y z = true → h.equal x z = true

/-- All values but the one number that differs from itself are equal to themselves. -/
theorem equal_self (h : Heap) (x : Value) : h.equal x x = x.identical x := by
  rw [Bool.eq_iff_iff, h.equal_iff_bisimilar]
  refine ⟨fun related => ?_, bisimilar_of_identical⟩
  cases isBisimulation_bisimilar h x x related with
  | identical same => exact same
  | strings text => exact Value.identical_iff.2 ⟨rfl, by simp⟩
  | cells heads tails => exact Value.identical_iff.2 ⟨rfl, by simp⟩

theorem equality_isBisimilarity (h : Heap) : h.EqualityIsBisimilarity where
  decides := h.equal_iff_bisimilar
  settles := h.settles_equal
  ends := by
    intro x y count outcome rounds
    constructor
    · have bound := rounds.count_le
      have few := h.card_uncompared_le {}
      have cost := rounds_le (x, y)
      simp only [Comparison.allowance, Comparison.start, roundsOf] at bound
      omega
    · cases outcome with
      | none => exact .inl trivial
      | some c =>
        by_cases pending : c.pending = []
        · exact .inl pending
        · obtain ⟨next, round⟩ := exists_round pending
          exact .inr ⟨next, .next rounds round⟩
  unordered := by
    intro x y count outcome rounds ended
    rw [Bool.eq_iff_iff, rounds.verdict ended, h.equal_iff_bisimilar]
  refl := h.equal_self
  symm := by
    intro x y
    rw [Bool.eq_iff_iff, h.equal_iff_bisimilar, h.equal_iff_bisimilar]
    exact ⟨.symm, .symm⟩
  trans := by
    intro x y z first second
    rw [h.equal_iff_bisimilar] at *
    exact first.trans second

/-- A cell that is its own tail unfolds like two cells that are each other's tails. -/
example : ({ Heap.empty with pairs :=
    #[⟨.integer 1, .pair ⟨0⟩, none⟩, ⟨.integer 1, .pair ⟨2⟩, none⟩,
      ⟨.integer 1, .pair ⟨1⟩, none⟩] } : Heap).equal (.pair ⟨0⟩) (.pair ⟨1⟩) = true := by
  decide +kernel

end Heap

end MessageMachine
