/-
# Activations

The activation of a method, from its first instruction until its result is handed back.
Code that is executed in it leaves everything below its frame alone, and this is so
even where the execution stops half-way: then some frames lie on top of those that
were there, and whoever has opened the entry takes them off.

The result of a request is therefore the same whether the machine was idle or not.
`Restored` says that a request leaves nothing behind, and `Left` what can be said of a
machine in the middle of something.
-/

import MessageMachine.Proofs.Compiler.Instruction

namespace MessageMachine.Machine

/-! ## What is left behind -/

/-- Execution has stopped above some frames, and nothing below has changed. -/
structure Left (m : Machine) (outer : List Frame) (k : Machine) : Prop where
  frames : ∃ inner, k.frames.toList = inner ++ outer
  slots : ∀ slot < topOf outer, k.slot? slot = m.slot? slot
  entries : k.entries = m.entries

/-- A machine is what it was, apart from its data. -/
structure Restored (m k : Machine) : Prop where
  frames : k.frames = m.frames
  slots : ∀ slot < m.stackTop, k.slot? slot = m.slot? slot
  entries : k.entries = m.entries

theorem Restored.of_undisturbed {m k : Machine} (u : Undisturbed m k) : Restored m k :=
  ⟨u.frames, fun slot _ => u.slot? slot, u.entries⟩

theorem Restored.trans {m k l : Machine} (first : Restored m k) (second : Restored k l) :
    Restored m l := by
  refine ⟨second.frames.trans first.frames, ?_, second.entries.trans first.entries⟩
  intro slot lt
  have lt' : slot < k.stackTop := by rwa [stackTop_eq, first.frames, ← stackTop_eq]
  rw [second.slots slot lt', first.slots slot lt]

section

variable {library : List Function} {m k l : Machine} {f : Frame} {outer : List Frame} {ip : Nat}
  {vs : List Value} {b : Activity}

/-- A machine that was restored is inside the same frame. -/
theorem Inside.restored (inside : Inside m k f outer ip vs) (restored : Restored k l) :
    Inside m l f outer ip vs := by
  have top : k.stackTop = f.stackBase + vs.length := by
    rw [stackTop_eq, inside.frames]
    rfl
  refine ⟨restored.frames ▸ inside.frames, ?_, ?_, restored.entries.trans inside.entries⟩
  · intro slot lt
    rw [restored.slots slot (by omega), inside.kept slot lt]
  · intro i v there
    have lt := (List.getElem?_eq_some_iff.1 there).1
    rw [restored.slots _ (by omega), inside.operands i v there]

/-- Where execution stops in a frame, nothing below has changed. -/
theorem Inside.left (inside : Inside m k f outer ip vs) (low : topOf outer ≤ f.stackBase) :
    Left m outer k :=
  ⟨⟨[_], inside.frames⟩, fun slot lt => inside.kept slot (Nat.lt_of_lt_of_le lt low),
    inside.entries⟩

/-- Where a method stops that was called from a frame, nothing below that frame has
changed either. -/
theorem Inside.left_of_callee {n : Machine} (inside : Inside m k f outer ip vs)
    (low : topOf outer ≤ f.stackBase) (slots : ∀ slot, n.slot? slot = k.slot? slot)
    (entries : n.entries = k.entries) (left : Left n k.frames.toList l) : Left m outer l := by
  obtain ⟨inner, frames⟩ := left.frames
  have top : topOf k.frames.toList = f.stackBase + vs.length := by
    rw [inside.frames]
    rfl
  refine ⟨⟨inner ++ [{ f with ip := ip, sp := f.stackBase + vs.length }], ?_⟩, ?_,
    left.entries.trans (entries.trans inside.entries)⟩
  · rw [frames, inside.frames, List.append_assoc]
    rfl
  · intro slot lt
    rw [left.slots slot (by omega), slots, inside.kept slot (by omega)]

/-- A result that arrives from outside the code is pushed. -/
theorem Inside.receives (inside : Inside m k f outer ip vs)
    (room : ((f.stackBase + vs.length : Nat) : Int) < f.limit) (entered : m.entries ≠ [])
    (v : Value) :
    ∃ l, step (.reply v) k = .running .fetch l ∧ Inside m l f outer ip (vs ++ [v]) ∧
      l.world = k.world := by
  obtain ⟨l, pushed, inside', world⟩ := inside.push v room
  refine ⟨l, ?_, inside', world⟩
  rw [← inside.entries] at entered
  obtain ⟨base, entries, open_⟩ := List.exists_cons_of_ne_nil entered
  simp only [step, open_, pushed]
  rfl

end

/-! ## Entries -/

/-- An entry is closed, and what was above its beginning is taken off. -/
def takeDown (m : Machine) (base : Nat) (entries : List Nat) : Machine :=
  let m := { m with entries := entries, frames := m.frames.keep base }
  m.truncate m.stackTop

section

variable {m n k : Machine} {shows_ : Value → Activity → Machine → Prop} {calls : Nat}
  {a : Activity}

/-- Taking down an entry of `m` restores it. -/
theorem Left.restored_takeDown (left : Left n m.frames.toList k)
    (slots : ∀ slot < m.stackTop, n.slot? slot = m.slot? slot) :
    Restored m (k.takeDown m.frames.size m.entries) := by
  obtain ⟨inner, frames⟩ := left.frames
  have kept : k.frames.keep m.frames.size = m.frames := by
    ext1
    rw [FrameStack.toList_keep, frames, List.length_append, m.frames.size_eq, Nat.add_sub_cancel,
      List.drop_left]
  refine ⟨kept, ?_, rfl⟩
  intro slot lt
  have live : slot < topOf m.frames.toList := m.stackTop_eq ▸ lt
  have top : slot < ({ k with entries := m.entries, frames := k.frames.keep m.frames.size } :
      Machine).stackTop := by
    rw [stackTop_eq, kept]
    exact live
  rw [← slots slot lt, ← left.slots slot live]
  exact slot?_truncate_stackTop _ slot top

/-- What is done in an entry of `m`, however it ends, is done as by a request that answers
nil where the execution is given up. -/
theorem Follows.contain {x : Evaluation Value} {w : World}
    (follows : Follows calls a n (fun v b k => b = .reply v ∧ Restored m k)
      (Left n m.frames.toList) (x w))
    (entries : n.entries = m.frames.size :: m.entries)
    (slots : ∀ slot < m.stackTop, n.slot? slot = m.slot? slot) :
    Follows calls a n (fun v b k => b = .reply v ∧ Restored m k) (Restored m)
      (Evaluation.contain x w) := by
  unfold Evaluation.contain
  match x w, follows with
  | none, follows => exact follows
  | some (.ok v, w), follows => exact follows
  | some (.error (.abandoned why), w), follows =>
    obtain ⟨k, leads, same, left⟩ := follows
    have restored := left.restored_takeDown slots
    have reported : ((k.takeDown m.frames.size m.entries).report why.kind
        s!"Execution abandoned: {why.message}" k.currentLocation).world =
        { k.world with reports := k.world.reports ++
          [(why.kind, s!"Execution abandoned: {why.message}")] } := by
      refine world_report _ _ _ ?_
      cases why <;> exact Diagnostic.Kind.noConfusion
    refine ⟨.reply .nil, _, leads.trans (.step ?_), reported.trans (same ▸ rfl), rfl,
      restored.frames, restored.slots, restored.entries⟩
    simp only [Stop.activity, Machine.step, abandonEntry, left.entries.trans entries]
    rfl
  | some (.error (.failed f), w), follows =>
    obtain ⟨k, leads, same, left⟩ := follows
    refine ⟨k.takeDown m.frames.size m.entries, leads.trans (.step ?_), same,
      left.restored_takeDown slots⟩
    simp only [Stop.activity, Machine.step, left.entries.trans entries]
    rfl

end

/-! ## Scopes -/

/-- The place of a parameter is the place of its argument. -/
theorem lookup_zip {params : List String} {args : List Value}
    (length : params.length = args.length) (name : String) :
    match params.idxOf? name with
    | some index => ∃ v, args[index]? = some v ∧ (params.zip args).lookup name = some v
    | none => (params.zip args).lookup name = none := by
  induction params generalizing args with
  | nil => rfl
  | cons param params ih =>
    obtain ⟨v, rest, rfl⟩ := List.exists_cons_of_length_eq_add_one length.symm
    rw [List.idxOf?_cons, List.zip_cons_cons, List.lookup_cons]
    by_cases here : param = name
    · subst here
      simp
    · have apart : (param == name) = false := beq_false_of_ne here
      have apart' : (name == param) = false := beq_false_of_ne (Ne.symm here)
      have later := ih (Nat.succ.inj length)
      rw [apart, apart']
      cases found : params.idxOf? name with
      | none =>
        rw [found] at later
        simpa using later
      | some index =>
        rw [found] at later
        simpa using later

/-! ## Activations -/

/-- An activation of a method with arguments: the machine as it was when its frame was
entered, over other frames, and the assembler from which the code of the method was
laid out. -/
structure Activation where
  base : Machine
  frame : Frame
  outer : List Frame
  code : Assembler
  start : Nat → Nat
  params : List String
  args : List Value

namespace Activation

/-- What the parameters stand for. -/
def scope (x : Activation) : List (String × Value) :=
  x.params.zip x.args

/-- The machine is about to execute the code at a place, with some operands. -/
def Shows (x : Activation) (place : Nat) (vs : List Value) : Activity → Machine → Prop :=
  Holds x.base x.frame x.outer (x.start place) vs

/-- Compiled code executes at a place, with some operands. -/
structure Executes (x : Activation) (library : List Function) (place : Nat) (vs : List Value)
    (k : Machine) : Prop where
  running : Running library .fetch k
  coded : k.heap.Coded x.frame.method x.code x.start
  length : x.params.length = x.args.length
  argCount : x.frame.argCount = x.args.length
  bound : ∀ (index : Nat) v, x.args[index]? = some v →
    x.base.slot? (x.frame.argBase + index) = some v
  inside : Inside x.base k x.frame x.outer (x.start place) vs

variable {x : Activation} {library : List Function} {place place' : Nat} {vs ws : List Value}
  {k k' : Machine} {b : Activity}

/-- Execution goes on wherever it has got to. -/
theorem Executes.onward (ex : x.Executes library place vs k) (leads : Leads .fetch k b k')
    (shown : x.Shows place' ws b k') : b = .fetch ∧ x.Executes library place' ws k' := by
  obtain ⟨rfl, inside⟩ := shown
  exact ⟨rfl, ex.running.leads leads, ex.coded.leads leads, ex.length, ex.argCount, ex.bound,
    inside⟩

/-- While code executes, an entry is open that began below its frame. -/
theorem Executes.nested (ex : x.Executes library place vs k) :
    ∃ base entries, x.base.entries = base :: entries ∧ base < x.outer.length + 1 := by
  have nested := (sound_of_reachable ex.running.reachable).nested_fetch
  rw [ex.inside.entries, ex.inside.frames] at nested
  cases open_ : x.base.entries with
  | nil =>
    rw [open_] at nested
    cases nested
  | cons base entries =>
    rw [open_] at nested
    exact ⟨base, entries, rfl, nested.1⟩

/-- The operands of a frame begin above everything that was live before. -/
theorem Executes.low (ex : x.Executes library place vs k) :
    topOf x.outer ≤ x.frame.stackBase := by
  have windows := (sound_of_reachable ex.running.reachable).windows
  rw [ex.inside.frames] at windows
  have base : x.frame.argBase = topOf x.outer := windows.fits.argBase_eq
  have first : x.frame.stackBase = x.frame.argBase + x.frame.argCount := windows.fits.stackBase_eq
  omega

end Activation

end MessageMachine.Machine
