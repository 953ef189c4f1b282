/-
# Balanced parts

The depth of the operand stack at the places of a method that has not been laid out.
`Level` says that given depths are right on a stretch of parts: every part there may be
executed at its depth, hands on what it leaves to the places that control goes to, and
control goes ahead only, no further than the end of the stretch. `Balanced` hides the
depths in between.

Stretches are put together piece by piece. One after the other is `Balanced.append`, and a
conditional is the only place where control goes two ways, `Balanced.conditional`: both
arms start at the depth below the tested value, and they end one above it.
-/

import Mathlib.Order.Basic
import Mathlib.Order.Nat
import MessageMachine.Proofs.Compiler.Code

namespace MessageMachine.Assembler

/-! ## Parts -/

namespace Part

def pops (part : Part) : Nat :=
  (part.operation 0).pops

/-- The depth behind a part, given one that covers what it pops. -/
def after (part : Part) (depth : Nat) : Nat :=
  depth - part.pops + (part.operation 0).pushes

/-- No part leaves more than one value. -/
theorem pushes_le (part : Part) : (part.operation 0).pushes ≤ 1 := by
  cases part with
  | plain op => cases op <;> simp [operation, Operation.pushes]
  | jump _ | jumpIfFalse _ => exact Nat.zero_le 1

end Part

/-- Control goes from a part at a place on to another place. -/
inductive Goes (a : Assembler) (place : Nat) : Part → Nat → Prop
  | next {op : Operation} : op ≠ .leave → Goes a place (.plain op) (place + 1)
  | jump {label : Label} {goal : Nat} :
      a.place? label = some goal → Goes a place (.jump label) goal
  | taken {label : Label} {goal : Nat} :
      a.place? label = some goal → Goes a place (.jumpIfFalse label) goal
  | passed {label : Label} : Goes a place (.jumpIfFalse label) (place + 1)

/-- The operand of a part means something in its method. Jumps are symbolic, and nothing
returns. -/
def Allows (a : Assembler) (argCount : Nat) : Part → Prop
  | .plain (.loadConstant index) => index < a.constants.size
  | .plain (.loadArgument index) => index < argCount
  | .plain (.call count) => 1 ≤ count
  | .plain .leave | .plain (.jump _) | .plain (.jumpIfFalse _) => False
  | .plain _ => True
  | .jump label | .jumpIfFalse label => (a.place? label).isSome = true

/-! ## Stretches -/

/-- The depths are right on the stretch of parts from one place up to another. -/
structure Level (a : Assembler) (argCount : Nat) (depth : Nat → Nat) (start stop : Nat) :
    Prop where
  each : ∀ place, start ≤ place → place < stop → ∃ part, a.At place part ∧
    a.Allows argCount part ∧ part.pops ≤ depth place ∧ ∀ goal, a.Goes place part goal →
      place < goal ∧ goal ≤ stop ∧ depth goal = part.after (depth place)
  /-- Control gets to every place. -/
  entered : ∀ place, start < place → place ≤ stop → ∃ before part, start ≤ before ∧
    before < place ∧ a.At before part ∧ a.Goes before part place

/-- A stretch takes the depth of the operand stack from `low` to `high`. -/
def Balanced (a : Assembler) (argCount start stop low high : Nat) : Prop :=
  start ≤ stop ∧ ∃ depth, depth start = low ∧ depth stop = high ∧
    Level a argCount depth start stop

variable {a : Assembler} {argCount start middle stop low mid high : Nat} {depth depth' : Nat → Nat}

/-- Only the depths on the stretch matter. -/
theorem Level.congr (level : Level a argCount depth start stop)
    (same : ∀ place, start ≤ place → place ≤ stop → depth' place = depth place) :
    Level a argCount depth' start stop where
  each := by
    intro place from_ below
    obtain ⟨part, here, allowed, covered, goes⟩ := level.each place from_ below
    rw [same place from_ below.le]
    refine ⟨part, here, allowed, covered, fun goal control => ?_⟩
    obtain ⟨ahead, within, level⟩ := goes goal control
    exact ⟨ahead, within, (same goal (from_.trans ahead.le) within).trans level⟩
  entered := level.entered

namespace Balanced

theorem nothing (a : Assembler) (argCount start low : Nat) :
    Balanced a argCount start start low low := by
  refine ⟨le_rfl, fun _ => low, rfl, rfl, fun place from_ below => ?_, fun place from_ upto => ?_⟩
  · omega
  · omega

/-- A single part that control leaves at its end. -/
theorem single {op : Operation} (here : a.At start (.plain op))
    (allowed : a.Allows argCount (.plain op)) (covered : op.pops ≤ low) :
    Balanced a argCount start (start + 1) low (low - op.pops + op.pushes) := by
  have goes : op ≠ .leave := by
    rintro rfl
    exact allowed
  refine ⟨start.le_succ, fun place => if place = start then low else low - op.pops + op.pushes,
    if_pos rfl, if_neg (by omega), fun place from_ below => ?_, fun place from_ upto => ?_⟩
  · obtain rfl : place = start := by omega
    refine ⟨.plain op, here, allowed, covered.trans_eq (if_pos rfl).symm, fun goal control => ?_⟩
    cases control
    refine ⟨place.lt_succ_self, le_rfl, ?_⟩
    rw [if_neg (by omega), if_pos rfl]
    rfl
  · obtain rfl : place = start + 1 := by omega
    exact ⟨start, _, le_rfl, start.lt_succ_self, here, .next goes⟩

/-- Stretches one after the other. -/
theorem append (first : Balanced a argCount start middle low mid)
    (second : Balanced a argCount middle stop mid high) :
    Balanced a argCount start stop low high := by
  obtain ⟨ahead, depth, starts, joins, level⟩ := first
  obtain ⟨ahead', depth', joins', stops, level'⟩ := second
  obtain ⟨joint, same⟩ : ∃ joint : Nat → Nat,
      joint = fun place => if place < middle then depth place else depth' place := ⟨_, rfl⟩
  have early (place : Nat) (upto : place ≤ middle) : joint place = depth place := by
    rw [same]
    rcases Nat.lt_or_eq_of_le upto with below | rfl
    · exact if_pos below
    · exact (if_neg (lt_irrefl _)).trans (joins'.trans joins.symm)
  have late (place : Nat) (from_ : middle ≤ place) : joint place = depth' place := by
    rw [same]
    exact if_neg (Nat.not_lt.2 from_)
  have level := level.congr fun place _ upto => early place upto
  have level' := level'.congr fun place from_ _ => late place from_
  refine ⟨ahead.trans ahead', joint, (early start ahead).trans starts,
    (late stop ahead').trans stops, fun place from_ below => ?_, fun place from_ upto => ?_⟩
  · rcases Nat.lt_or_ge place middle with inside | beyond
    · obtain ⟨part, here, allowed, covered, goes⟩ := level.each place from_ inside
      refine ⟨part, here, allowed, covered, fun goal control => ?_⟩
      obtain ⟨forward, within, left⟩ := goes goal control
      exact ⟨forward, within.trans ahead', left⟩
    · exact level'.each place beyond below
  · rcases Nat.lt_or_ge middle place with beyond | inside
    · obtain ⟨before, part, after, control⟩ := level'.entered place beyond upto
      exact ⟨before, part, ahead.trans after, control⟩
    · exact level.entered place from_ inside

/-- A test and two arms, with the jumps around them. -/
theorem conditional {branch leap : Nat} {otherwise done : Label}
    (test : Balanced a argCount start branch low (low + 1))
    (skips : a.At branch (.jumpIfFalse otherwise))
    (yes : Balanced a argCount (branch + 1) leap low high)
    (leaps : a.At leap (.jump done)) (bound : a.place? otherwise = some (leap + 1))
    (no : Balanced a argCount (leap + 1) stop low high) (bound' : a.place? done = some stop) :
    Balanced a argCount start stop low high := by
  obtain ⟨ahead, depth₁, starts, tested, level₁⟩ := test
  obtain ⟨ahead₂, depth₂, enters₂, leaves₂, level₂⟩ := yes
  obtain ⟨ahead₃, depth₃, enters₃, leaves₃, level₃⟩ := no
  obtain ⟨joint, same⟩ : ∃ joint : Nat → Nat, joint = fun place =>
      if place ≤ branch then depth₁ place else if place ≤ leap then depth₂ place
        else depth₃ place := ⟨_, rfl⟩
  have testing (place : Nat) (upto : place ≤ branch) : joint place = depth₁ place := by
    rw [same]
    exact if_pos upto
  have taking (place : Nat) (from_ : branch + 1 ≤ place) (upto : place ≤ leap) :
      joint place = depth₂ place := by
    rw [same]
    exact (if_neg (by omega)).trans (if_pos upto)
  have skipping (place : Nat) (from_ : leap + 1 ≤ place) : joint place = depth₃ place := by
    rw [same]
    exact (if_neg (by omega)).trans (if_neg (by omega))
  have level₁ := level₁.congr fun place _ upto => testing place upto
  have level₂ := level₂.congr taking
  have level₃ := level₃.congr fun place from_ _ => skipping place from_
  have atBranch : joint branch = low + 1 := (testing branch le_rfl).trans tested
  have atYes : joint (branch + 1) = low := (taking _ le_rfl ahead₂).trans enters₂
  have atLeap : joint leap = high := (taking leap ahead₂ le_rfl).trans leaves₂
  have atNo : joint (leap + 1) = low := (skipping _ le_rfl).trans enters₃
  have atStop : joint stop = high := (skipping stop ahead₃).trans leaves₃
  refine ⟨by omega, joint, (testing start ahead).trans starts, atStop,
    fun place from_ below => ?_, fun place from_ upto => ?_⟩
  · rcases Nat.lt_trichotomy place branch with inside | rfl | behind
    · obtain ⟨part, here, allowed, covered, goes⟩ := level₁.each place from_ inside
      refine ⟨part, here, allowed, covered, fun goal control => ?_⟩
      obtain ⟨forward, within, left⟩ := goes goal control
      exact ⟨forward, by omega, left⟩
    · refine ⟨_, skips, by rw [Allows, bound]; rfl, by rw [atBranch]; exact Nat.le_add_left 1 low,
        fun goal control => ?_⟩
      rw [atBranch]
      cases control with
      | taken found =>
        cases bound.symm.trans found
        exact ⟨by omega, by omega, atNo⟩
      | passed => exact ⟨by omega, by omega, atYes⟩
    · rcases Nat.lt_trichotomy place leap with inside | rfl | beyond
      · obtain ⟨part, here, allowed, covered, goes⟩ := level₂.each place behind inside
        refine ⟨part, here, allowed, covered, fun goal control => ?_⟩
        obtain ⟨forward, within, left⟩ := goes goal control
        exact ⟨forward, by omega, left⟩
      · refine ⟨_, leaps, by rw [Allows, bound']; rfl, Nat.zero_le _, fun goal control => ?_⟩
        rw [atLeap]
        cases control with
        | jump found =>
          cases bound'.symm.trans found
          exact ⟨by omega, le_rfl, atStop⟩
      · exact level₃.each place beyond below
  · rcases Nat.lt_trichotomy place (branch + 1) with inside | rfl | behind
    · exact level₁.entered place from_ (by omega)
    · exact ⟨branch, _, ahead, branch.lt_succ_self, skips, .passed⟩
    · rcases Nat.lt_trichotomy place (leap + 1) with inside | rfl | beyond
      · obtain ⟨before, part, after, control⟩ := level₂.entered place behind (by omega)
        exact ⟨before, part, by omega, control⟩
      · exact ⟨branch, _, ahead, by omega, skips, .taken bound⟩
      · obtain ⟨before, part, after, control⟩ := level₃.entered place beyond upto
        exact ⟨before, part, by omega, control⟩

/-! ## Loads -/

theorem loads {v : Value} (here : a.Loads v start) :
    Balanced a argCount start (start + 1) low (low + 1) := by
  obtain ⟨index, there, pooled⟩ := here
  exact single there (Array.getElem?_eq_some_iff.1 pooled).1 (Nat.zero_le low)

end Balanced

/-- No place on a stretch is deeper than the parts before it can have made it. -/
theorem Level.depth_le (level : Level a argCount depth start stop) (place : Nat)
    (from_ : start ≤ place) (upto : place ≤ stop) : depth place ≤ depth start + (place - start) := by
  induction place using Nat.strongRecOn with
  | ind place ih =>
    rcases Nat.eq_or_lt_of_le from_ with rfl | later
    · omega
    · obtain ⟨before, part, after, earlier, here, control⟩ := level.entered place later upto
      obtain ⟨part', here', -, -, goes⟩ := level.each before after (by omega)
      cases here.symm.trans here'
      have depth_before := ih before earlier after (by omega)
      have pushes := part.pushes_le
      rw [(goes place control).2.2, Part.after]
      omega

end MessageMachine.Assembler
