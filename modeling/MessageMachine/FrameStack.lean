/-
# Frame stacks

The activations of methods on a machine, innermost first. Every call asks how
many there are and every return asks it again, so the number is kept beside the
list; that both agree is part of the type, and a stack is determined by its
list alone.
-/

import MessageMachine.Value

namespace MessageMachine

structure Frame where
  method : Ref .method
  /-- Offset of the next instruction. -/
  ip : Int
  /-- Place of the receiver in the segment. -/
  argBase : Nat
  argCount : Nat
  /-- First operand slot. -/
  stackBase : Nat
  /-- Next free operand slot. -/
  sp : Nat
  /-- One past the last operand slot, which for a negative capacity lies below
  the first. -/
  limit : Int
  deriving DecidableEq, Inhabited

/-- The number of operands of a frame. -/
def Frame.depth (f : Frame) : Nat :=
  f.sp - f.stackBase

structure FrameStack where
  toList : List Frame
  size : Nat
  size_eq : size = toList.length

namespace FrameStack

@[ext] theorem ext {s t : FrameStack} (h : s.toList = t.toList) : s = t := by
  obtain ⟨frames, size, hs⟩ := s
  obtain ⟨others, count, ht⟩ := t
  subst hs ht
  cases h
  rfl

def empty : FrameStack := ⟨[], 0, rfl⟩

instance : Inhabited FrameStack := ⟨empty⟩

def push (s : FrameStack) (f : Frame) : FrameStack :=
  ⟨f :: s.toList, s.size + 1, by simp [s.size_eq]⟩

@[simp] theorem toList_push (s : FrameStack) (f : Frame) : (s.push f).toList = f :: s.toList := rfl

/-- All frames but the innermost. -/
def pop (s : FrameStack) : FrameStack :=
  ⟨s.toList.tail, s.size - 1, by simp [s.size_eq]⟩

@[simp] theorem toList_pop (s : FrameStack) : s.pop.toList = s.toList.tail := rfl

/-- Put a frame in the place of the innermost, if there is one. -/
def setTop (s : FrameStack) (f : Frame) : FrameStack :=
  match s with
  | ⟨[], size, size_eq⟩ => ⟨[], size, size_eq⟩
  | ⟨_ :: outer, size, size_eq⟩ => ⟨f :: outer, size, size_eq⟩

theorem toList_setTop (s : FrameStack) (f : Frame) :
    (s.setTop f).toList = s.toList.modifyHead fun _ => f := by
  obtain ⟨_ | ⟨_, _⟩, _, _⟩ := s <;> rfl

/-- The outermost frames, as many as are told. -/
def keep (s : FrameStack) (count : Nat) : FrameStack :=
  let dropped := s.size - count
  ⟨s.toList.drop dropped, s.size - dropped, by simp [s.size_eq]⟩

@[simp] theorem toList_keep (s : FrameStack) (count : Nat) :
    (s.keep count).toList = s.toList.drop (s.toList.length - count) := by
  rw [← s.size_eq]
  rfl

end FrameStack

end MessageMachine
