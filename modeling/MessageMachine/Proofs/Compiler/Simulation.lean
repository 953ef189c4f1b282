/-
# The simulation

Compiled code does what direct evaluation does. The statement is about three things that
depend on each other. `Simulates` is about the code of a form, `Sends` about the call
instruction, and `Serves` about a request to call a function, as primitives make it. A
form is taken apart as it is evaluated, down to its messages. A message or request that
needs a call is answered with one call less, so all three hold for any number of calls.

A machine that calls a method in code and one that is asked for it do the same until
the method leaves. What differs is who gets the result, and what happens when there is
none: code is given up together with whoever has called it, a request is answered.
-/

import MessageMachine.Proofs.Compiler.Activation

namespace MessageMachine.Machine

open Evaluation

/-! ## What is simulated -/

/-- The code of every form follows its evaluation. -/
def Simulates (library : List Function) (calls : Nat) : Prop :=
  ∀ (x : Activation) (form : Form) (p q : Nat) (us : List Value) (k : Machine),
    Codes x.code x.params form p q → x.Executes library p us k →
    Follows calls .fetch k (fun v => x.Shows q (us ++ [v])) (Left x.base x.outer)
      (form.eval (dispatch (Evaluation.apply library calls)) x.scope k.world)

/-- The call instruction follows the evaluation of a message. -/
def Sends (library : List Function) (calls : Nat) : Prop :=
  ∀ (x : Activation) (place : Nat) (us values : List Value) (selector : Value) (k : Machine),
    values ≠ [] → x.code.At place (.plain (.call values.length)) →
    x.Executes library place (us ++ values ++ [selector]) k →
    Follows calls .fetch k (fun v => x.Shows (place + 1) (us ++ [v])) (Left x.base x.outer)
      (dispatch (Evaluation.apply library calls) selector values k.world)

/-- A request to call a function follows its evaluation. -/
def Serves (library : List Function) (calls : Nat) : Prop :=
  ∀ (m : Machine) (callable : Callable) (args : List Value),
    args ≠ [] → Running library (.request (.invoke callable args)) m →
    Follows calls (.request (.invoke callable args)) m
      (fun v b k => b = .reply v ∧ Restored m k) (Restored m)
      (contain (Evaluation.apply library calls callable args) m.world)

variable {library : List Function} {calls : Nat} {x : Activation}

/-! ## Forms -/

mutual

theorem follows_eval (sends : Sends library calls) (form : Form)
    {p q : Nat} {us : List Value} {k : Machine}
    (codes : Codes x.code x.params form p q) (ex : x.Executes library p us k) :
    Follows calls .fetch k (fun v => x.Shows q (us ++ [v])) (Left x.base x.outer)
      (form.eval (dispatch (Evaluation.apply library calls)) x.scope k.world) := by
  match form with
  | .datum v =>
    obtain ⟨loads, rfl⟩ := codes
    obtain ⟨l, leads, inside, world⟩ := ex.inside.loads ex.running ex.coded loads
    rw [Form.eval]
    exact ⟨.fetch, l, leads, world, rfl, inside⟩
  | .symbol name =>
    rw [Codes] at codes
    rw [Form.eval]
    have known := lookup_zip ex.length name
    cases found : x.params.idxOf? name with
    | some index =>
      simp only [found] at codes known
      obtain ⟨here, rfl⟩ := codes
      obtain ⟨v, argument, bound⟩ := known
      have lt := (List.getElem?_eq_some_iff.1 argument).1
      obtain ⟨l, leads, inside, world⟩ := ex.inside.loadsArgument ex.running ex.coded here
        (ex.bound index v argument) (ex.argCount ▸ lt)
      rw [Activation.scope, bound]
      exact ⟨.fetch, l, leads, world, rfl, inside⟩
    | none =>
      simp only [found] at codes known
      obtain ⟨looks, rfl⟩ := codes
      rw [Activation.scope, known]
      exact ex.inside.looksUp ex.running ex.coded looks
  | .global name =>
    obtain ⟨looks, rfl⟩ := codes
    rw [Form.eval]
    exact ex.inside.looksUp ex.running ex.coded looks
  | .conditional test yes no =>
    obtain ⟨branch, leap, otherwise, done, tested, fork, taken, jump, other, skipped, end_⟩ := codes
    have taken_lt := (Codes.bounds yes taken).1
    have skipped_le := Codes.bounds no skipped
    rw [Form.eval]
    apply (follows_eval sends test tested ex).bind
    intro v b k₁ leads shown
    obtain ⟨rfl, ex₁⟩ := ex.onward leads shown
    obtain ⟨k₂, onward, inside, world⟩ :=
      ex₁.inside.branches ex₁.coded fork other (by omega) (by omega)
    rw [← world]
    apply Follows.after onward
    by_cases truthy : v.truthy
    · rw [if_pos truthy] at inside
      rw [if_pos truthy]
      obtain ⟨-, ex₂⟩ := ex₁.onward onward ⟨rfl, inside⟩
      apply (follows_eval sends yes taken ex₂).andThen
      intro w b k₃ leads shown
      obtain ⟨rfl, ex₃⟩ := ex₂.onward leads shown
      obtain ⟨k₄, leads, inside, world⟩ :=
        ex₃.inside.jumps ex₃.coded jump end_ (by omega) skipped_le.2
      exact ⟨.fetch, k₄, leads, world, rfl, inside⟩
    · rw [if_neg truthy] at inside
      rw [if_neg truthy]
      obtain ⟨-, ex₂⟩ := ex₁.onward onward ⟨rfl, inside⟩
      exact follows_eval sends no skipped ex₂
  | .sequence forms =>
    rw [Form.eval]
    exact follows_evalInOrder sends forms codes ex
  | .define name value =>
    obtain ⟨last, loads, evaluated, defines, rfl⟩ := codes
    obtain ⟨k₁, leads, inside, world⟩ := ex.inside.loads ex.running ex.coded loads
    obtain ⟨-, ex₁⟩ := ex.onward leads ⟨rfl, inside⟩
    rw [Form.eval, ← world]
    apply Follows.after leads
    apply (follows_eval sends value evaluated ex₁).bind
    intro v b k₂ leads shown
    obtain ⟨rfl, ex₂⟩ := ex₁.onward leads shown
    exact ex₂.inside.binds ex₂.running ex₂.coded defines
  | .message selector operands =>
    obtain ⟨some_, last, evaluated, loads, call, rfl⟩ := codes
    rw [Form.eval]
    apply (follows_evalAll sends operands evaluated ex).bind
    rintro values b k₁ leads ⟨length, shown⟩
    obtain ⟨rfl, ex₁⟩ := ex.onward leads shown
    obtain ⟨k₂, leads, inside, world⟩ := ex₁.inside.loads ex₁.running ex₁.coded loads
    obtain ⟨-, ex₂⟩ := ex₁.onward leads ⟨rfl, inside⟩
    rw [← world]
    apply Follows.after leads
    rw [← length] at call
    refine sends x _ us values _ k₂ ?_ call ex₂
    rintro rfl
    exact some_ (List.length_eq_zero_iff.1 length.symm)
  | .computed receiver args selector =>
    obtain ⟨next, late, last, first, others, selected, call, rfl⟩ := codes
    rw [Form.eval]
    apply (follows_eval sends receiver first ex).bind
    intro v b k₁ leads shown
    obtain ⟨rfl, ex₁⟩ := ex.onward leads shown
    apply (follows_evalAll sends args others ex₁).bind
    rintro values b k₂ leads ⟨length, shown⟩
    obtain ⟨rfl, ex₂⟩ := ex₁.onward leads shown
    apply (follows_eval sends selector selected ex₂).bind
    intro w b k₃ leads shown
    obtain ⟨rfl, ex₃⟩ := ex₂.onward leads shown
    rw [← length] at call
    rw [List.append_assoc us, List.singleton_append] at ex₃
    exact sends x _ us (v :: values) w k₃ (List.cons_ne_nil _ _) call ex₃

theorem follows_evalAll (sends : Sends library calls) (forms : List Form)
    {p q : Nat} {us : List Value} {k : Machine}
    (codes : CodesAll x.code x.params forms p q) (ex : x.Executes library p us k) :
    Follows calls .fetch k
      (fun vs b k => vs.length = forms.length ∧ x.Shows q (us ++ vs) b k) (Left x.base x.outer)
      (Form.evalAll (dispatch (Evaluation.apply library calls)) x.scope forms k.world) := by
  match forms with
  | [] =>
    rw [Form.evalAll]
    obtain rfl : q = p := codes
    exact ⟨.fetch, k, .refl _ _, rfl, rfl, rfl, by rw [List.append_nil]; exact ex.inside⟩
  | form :: rest =>
    obtain ⟨next, first, others⟩ := codes
    rw [Form.evalAll]
    apply (follows_eval sends form first ex).bind
    intro v b k₁ leads shown
    obtain ⟨rfl, ex₁⟩ := ex.onward leads shown
    apply (follows_evalAll sends rest others ex₁).bind
    rintro values b k₂ leads ⟨length, shown⟩
    rw [List.append_assoc, List.singleton_append] at shown
    exact Follows.here ⟨congrArg Nat.succ length, shown⟩

theorem follows_evalInOrder (sends : Sends library calls) (forms : List Form)
    {p q : Nat} {us : List Value} {k : Machine}
    (codes : CodesInOrder x.code x.params forms p q) (ex : x.Executes library p us k) :
    Follows calls .fetch k (fun v => x.Shows q (us ++ [v])) (Left x.base x.outer)
      (Form.evalInOrder (dispatch (Evaluation.apply library calls)) x.scope forms k.world) := by
  match forms with
  | [] =>
    obtain ⟨loads, rfl⟩ := codes
    obtain ⟨l, leads, inside, world⟩ := ex.inside.loads ex.running ex.coded loads
    rw [Form.evalInOrder]
    exact ⟨.fetch, l, leads, world, rfl, inside⟩
  | [form] =>
    rw [Form.evalInOrder]
    exact follows_eval sends form codes ex
  | form :: next :: rest =>
    obtain ⟨last, first, pop, others⟩ := codes
    rw [Form.evalInOrder]
    apply (follows_eval sends form first ex).bind
    intro v b k₁ leads shown
    obtain ⟨rfl, ex₁⟩ := ex.onward leads shown
    obtain ⟨k₂, leads, inside, world⟩ := ex₁.inside.drops ex₁.coded pop
    obtain ⟨-, ex₂⟩ := ex₁.onward leads ⟨rfl, inside⟩
    rw [← world]
    apply Follows.after leads
    exact follows_evalInOrder sends (next :: rest) others ex₂

end

/-! ## Bodies -/

/-- The frame of a method is about to hand its result back, with nothing left of it. -/
def Returns (n : Machine) (outer : List Frame) (low : Nat) (v : Value) (b : Activity)
    (k : Machine) : Prop :=
  ∃ l : Machine, step b k = .ofActivity (l.handBack v) ∧ l.frames.toList = outer ∧
    (∀ slot < low, l.slot? slot = n.slot? slot) ∧ l.entries = n.entries ∧ l.world = k.world

/-- The function that a method implements. -/
theorem implements_of_compiled {m : Machine} {a : Activity} {r : Ref .method} {f : Function}
    (running : Running library a m) (found : library[r.index]? = some f) :
    Implements (m.heap.method r) f :=
  running.compiled.implements r.index f found

/-- A method that was entered with arguments does what the body of its function does. -/
theorem follows_body (simulates : Simulates library calls) {n : Machine} {r : Ref .method}
    {f : Function} {args : List Value} {low : Nat} {outer : List Frame}
    (running : Running library .fetch n) (found : library[r.index]? = some f)
    (length : f.params.length = args.length)
    (frames : n.frames.toList = entering n.heap r low args.length :: outer)
    (bound : ∀ (i : Nat) v, args[i]? = some v → n.slot? (low + i) = some v) :
    Follows calls .fetch n (Returns n outer low) (Left n outer)
      (f.body.eval (dispatch (Evaluation.apply library calls)) (f.params.zip args) n.world) := by
  obtain ⟨a, last, finished, codes, leaves⟩ := (implements_of_compiled running found).code
  obtain ⟨start, coded⟩ := Heap.coded_of_finish finished
  let x : Activation := ⟨n, entering n.heap r low args.length, outer, a, start, f.params, args⟩
  have inside : Inside n n x.frame outer (start 0) [] := by
    refine ⟨?_, fun _ _ => rfl, fun i v none_ => by simp at none_, rfl⟩
    rw [coded.laid.start_zero]
    exact frames
  have ex : x.Executes library 0 [] n := ⟨running, coded, length, rfl, bound, inside⟩
  apply (simulates x f.body 0 last [] n codes ex).andThen
  intro v b k leads shown
  obtain ⟨rfl, ex'⟩ := ex.onward leads shown
  obtain ⟨l, ran, frames', slots, entries, world⟩ := ex'.inside.leaves ex'.running ex'.coded leaves
  exact ⟨.fetch, k, .refl _ _, rfl, l, ran, frames', slots, entries, world⟩

/-! ## Requests -/

/-- An entry that begins with a method is answered as its function is evaluated, and given
up for itself. -/
theorem follows_begin (simulates : Simulates library calls) {m : Machine} {request : Request}
    {r : Ref .method} {f : Function} {args : List Value}
    (running : Running library (.request request) m) (found : library[r.index]? = some f)
    (length : f.params.length = args.length)
    (ran : step (.request request) m = .ofActivity (begin
      { m with segment := writeArgs m.segment m.stackTop args } r m.stackTop args.length)) :
    Follows (calls + 1) (.request request) m (fun v b k => b = .reply v ∧ Restored m k)
      (Restored m) (contain
        (f.body.eval (dispatch (Evaluation.apply library calls)) (f.params.zip args)) m.world) := by
  let n : Machine := { m with segment := writeArgs m.segment m.stackTop args }
  unfold begin at ran
  rcases frameFor_cases n r m.stackTop args.length with ⟨made, -⟩ | refused | refused
  · rw [made] at ran
    let k : Machine :=
      { n.openEntry with frames := n.frames.push (entering n.heap r m.stackTop args.length) }
    have entered : step (.request request) m = .running .fetch k := ran
    have kept : ∀ slot < m.stackTop, k.slot? slot = m.slot? slot := by
      intro slot lt
      show ((writeArgs m.segment m.stackTop args)[slot]?).join = (m.segment[slot]?).join
      rw [slot_writeArgs, if_neg (by omega)]
    have bound : ∀ (i : Nat) v, args[i]? = some v → k.slot? (m.stackTop + i) = some v := by
      intro i v there
      have lt := (List.getElem?_eq_some_iff.1 there).1
      show ((writeArgs m.segment m.stackTop args)[m.stackTop + i]?).join = some v
      rw [slot_writeArgs, if_pos (by omega), Nat.add_sub_cancel_left, there]
    apply Follows.step entered
    have body := follows_body simulates (running.leads (.step entered)) found length rfl bound
    refine Follows.contain (body.andThen ?_) rfl kept
    rintro v b l leads ⟨l', returns, frames, slots, entries, world⟩
    have size : l'.frames.size = m.frames.size := by
      rw [FrameStack.size_eq, frames, FrameStack.size_eq]
    have handed : l'.handBack v = (.reply v, { l' with entries := m.entries }) := by
      unfold handBack
      simp only [entries]
      exact if_pos size
    rw [handed] at returns
    refine ⟨.reply v, _, .step returns, world, rfl, FrameStack.ext frames, ?_, rfl⟩
    intro slot lt
    exact (slots slot lt).trans (kept slot lt)
  · rw [refused] at ran
    exact absurd trivial (running.unlimited _ _ (.step ran))
  · rw [refused] at ran
    exact absurd trivial (running.unlimited _ _ (.step ran))

/-- What a method declares is what its function does. This is true even of references to
nothing, with which no argument can be passed. -/
theorem declares_of_compiled {m : Machine} {a : Activity} (running : Running library a m)
    (r : Ref .method) :
    (m.heap.method r).name = (library.getD r.index default).name ∧
      (m.heap.method r).argCount = (library.getD r.index default).params.length ∧
      ((library.getD r.index default).params ≠ [] →
        library[r.index]? = some (library.getD r.index default)) := by
  rw [List.getD_eq_getElem?_getD]
  cases found : library[r.index]? with
  | some f =>
    have implements := implements_of_compiled running found
    exact ⟨implements.name, implements.argCount, fun _ => rfl⟩
  | none =>
    have beyond : m.heap.methods.size ≤ r.index := by
      rw [running.compiled.size]
      exact List.getElem?_eq_none_iff.1 found
    rw [Heap.method_of_size_le beyond]
    exact ⟨rfl, rfl, fun some_ => absurd rfl some_⟩

/-- A request to call a method. -/
theorem serves_method (simulates : Simulates library calls) {m : Machine} {r : Ref .method}
    {args : List Value} (some_ : args ≠ [])
    (running : Running library (.request (.invoke (.method r) args)) m) :
    Follows (calls + 1) (.request (.invoke (.method r) args)) m
      (fun v b k => b = .reply v ∧ Restored m k) (Restored m)
      (contain (Evaluation.apply library (calls + 1) (.method r) args) m.world) := by
  obtain ⟨name, argCount, found⟩ := declares_of_compiled running r
  rw [Evaluation.apply]
  by_cases length : (library.getD r.index default).params.length = args.length
  · rw [if_pos length]
    apply follows_begin simulates running (found ?_) length
    · simp only [step, enter, invokeCallable, argCount, length]
      rfl
    · rintro none_
      rw [none_] at length
      exact some_ (List.length_eq_zero_iff.1 length.symm)
  · rw [if_neg length]
    have apart : ¬ ((library.getD r.index default).params.length : Int) = args.length :=
      fun same => length (Int.ofNat.inj same)
    have complained := complain_wrongArity m (m.heap.method r).name (m.heap.method r).argCount
      args.length
    unfold contain
    rw [name, argCount] at complained
    rw [complained]
    refine ⟨.reply .nil, _, .step ?_, rfl, rfl, .of_undisturbed ?_⟩
    · simp only [step, enter, invokeCallable, name, argCount, if_neg apart]
      rfl
    · exact undisturbed_report m _ none (by decide)

/-- A request to call a primitive. -/
theorem serves_primitive (serves : Serves library calls) {m : Machine} {p : Ref .primitive}
    {args : List Value} (running : Running library (.request (.invoke (.primitive p) args)) m) :
    Follows (calls + 1) (.request (.invoke (.primitive p) args)) m
      (fun v b k => b = .reply v ∧ Restored m k) (Restored m)
      (contain (Evaluation.apply library (calls + 1) (.primitive p) args) m.world) := by
  have performed : Performed (Evaluation.apply library calls) _ _ _ :=
    performed_callPrimitive m running.compiled.standard p args
  have undisturbed := (answers_callPrimitive m p args).undisturbed
  have ran : step (.request (.invoke (.primitive p) args)) m =
      .ofActivity (m.invokeCallable (.primitive p) args) := rfl
  simp only [invokeCallable] at ran
  have applied : Evaluation.apply library (calls + 1) (.primitive p) args m.world =
      Evaluation.callPrimitive (Evaluation.apply library calls) (m.heap.primitive p) args m.world :=
    rfl
  have outcome : contain (Evaluation.apply library (calls + 1) (.primitive p) args) m.world =
      contain (fun _ => Evaluation.callPrimitive (Evaluation.apply library calls)
        (m.heap.primitive p) args m.world) m.world := rfl
  rw [outcome]
  generalize Evaluation.callPrimitive (Evaluation.apply library calls) (m.heap.primitive p) args
    m.world = result at performed ⊢
  generalize m.callPrimitive p args = next at performed undisturbed ran
  obtain ⟨b, k⟩ := next
  have restored := Restored.of_undisturbed undisturbed
  cases performed with
  | reply v => exact ⟨.reply v, k, .step ran, rfl, rfl, restored⟩
  | stop why =>
    cases why with
    | failed f => exact ⟨k, .step ran, rfl, restored⟩
    | abandoned why =>
      have left : Left k.openEntry m.frames.toList k.openEntry :=
        ⟨⟨[], congrArg FrameStack.toList restored.frames⟩, fun _ _ => rfl, rfl⟩
      have opened : k.openEntry.entries = m.frames.size :: m.entries := by
        show k.frames.size :: k.entries = m.frames.size :: m.entries
        rw [restored.frames, restored.entries]
      have halted : Follows (calls + 1) (.abandon why) k.openEntry
          (fun v b l => b = .reply v ∧ Restored m l) (Left k.openEntry m.frames.toList)
          (some (.error (.abandoned why), k.world)) := ⟨k.openEntry, .refl _ _, rfl, left⟩
      apply Follows.after (.step ran)
      exact Follows.contain (x := fun _ => some (.error (.abandoned why), k.world)) (w := m.world)
        halted opened restored.slots
  | @invoke callable rest others =>
    have nested := congrFun (contain_contain (Evaluation.apply library calls callable rest)) k.world
    show Follows _ _ _ _ _ (contain (contain (Evaluation.apply library calls callable rest)) k.world)
    rw [nested]
    apply Follows.step ran
    apply (serves k callable rest others (running.leads (.step ran))).mono
    · rintro v b l ⟨rfl, restored'⟩
      exact ⟨rfl, restored.trans restored'⟩
    · exact fun l restored' => restored.trans restored'

/-! ## Calls -/

/-- The call instruction has taken its operands, and its result is awaited at a place. -/
structure Activation.Delivers (x : Activation) (library : List Function) (place : Nat)
    (us values : List Value) (selector : Value) (k l : Machine) : Prop where
  running : Running library .fetch k
  ran : step .fetch k = .ofActivity (l.deliver selector values)
  inside : Inside x.base l x.frame x.outer (x.start place) us
  world : l.world = k.world
  passed : ∀ (i : Nat) v, values[i]? = some v →
    l.slot? (x.frame.stackBase + us.length + i) = some v
  room : ((x.frame.stackBase + us.length : Nat) : Int) < x.frame.limit
  nested : ∃ base entries, x.base.entries = base :: entries ∧ base < x.outer.length + 1
  low : topOf x.outer ≤ x.frame.stackBase

theorem Activation.Executes.delivers {place : Nat} {us values : List Value} {selector : Value}
    {k : Machine} (ex : x.Executes library place (us ++ values ++ [selector]) k)
    (some_ : values ≠ []) (here : x.code.At place (.plain (.call values.length))) :
    ∃ l, x.Delivers library (place + 1) us values selector k l := by
  have decoded := ex.coded.laid.plain place _ here (Int.natCast_nonneg _)
  have room : ((x.frame.stackBase + us.length : Nat) : Int) < x.frame.limit := by
    apply ex.inside.room ex.running ex.coded.verified decoded rfl
    rw [List.append_assoc, List.length_append, List.length_append]
    rfl
  obtain ⟨n, ran, inside, world⟩ := ex.inside.fetch decoded
  obtain ⟨l, called, inside', world', passed⟩ := inside.calls some_ (x.start place)
  refine ⟨l, ex.running, ?_, inside', world'.trans world, passed, room, ex.nested, ex.low⟩
  rw [ran, ← called]
  rfl

namespace Activation.Delivers

variable {place : Nat} {us values : List Value} {selector : Value} {k l : Machine}

/-- A result that the machine has at once is pushed. -/
theorem push (d : x.Delivers library place us values selector k l) {n : Machine} (v : Value)
    (delivered : l.deliver selector values = n.push v)
    (inside : Inside x.base n x.frame x.outer (x.start place) us) :
    Follows calls .fetch k (fun v => x.Shows place (us ++ [v])) (Left x.base x.outer)
      (some (.ok v, n.world)) := by
  obtain ⟨n', pushed, inside', world⟩ := inside.push v d.room
  have ran := d.ran
  rw [delivered, pushed] at ran
  exact ⟨.fetch, n', .step ran, world, rfl, inside'⟩

/-- A result that arrives is pushed as well. -/
theorem receive (d : x.Delivers library place us values selector k l) {n : Machine} (v : Value)
    (inside : Inside x.base n x.frame x.outer (x.start place) us) :
    ∃ b n', Leads (.reply v) n b n' ∧ n'.world = n.world ∧ x.Shows place (us ++ [v]) b n' := by
  obtain ⟨base, entries, open_, -⟩ := d.nested
  have entered : x.base.entries ≠ [] := by
    rw [open_]
    exact List.cons_ne_nil _ _
  obtain ⟨n', ran, inside', world⟩ := inside.receives d.room entered v
  exact ⟨.fetch, n', .step ran, world, rfl, inside'⟩

theorem reply (d : x.Delivers library place us values selector k l) {n : Machine} (v : Value)
    (delivered : l.deliver selector values = (.reply v, n))
    (inside : Inside x.base n x.frame x.outer (x.start place) us) :
    Follows calls .fetch k (fun v => x.Shows place (us ++ [v])) (Left x.base x.outer)
      (some (.ok v, n.world)) := by
  obtain ⟨b, n', leads, world, shown⟩ := d.receive v inside
  have ran := d.ran
  rw [delivered] at ran
  exact ⟨b, n', (Leads.step ran).trans leads, world, shown⟩

/-- A method is called. -/
theorem method (simulates : Simulates library calls) {r : Ref .method}
    (d : x.Delivers library place us values selector k l) (some_ : values ≠ [])
    (delivered : l.deliver selector values =
      if (l.heap.method r).argCount = values.length then
        match l.frameFor r l.stackTop values.length with
        | .error what => (.abandon (.exhausted what), l)
        | .ok callee => (.fetch, { l with frames := l.frames.push callee })
      else
        ((l.truncate l.stackTop).wrongArity (l.heap.method r).name (l.heap.method r).argCount
          values.length).push .nil) :
    Follows (calls + 1) .fetch k (fun v => x.Shows place (us ++ [v])) (Left x.base x.outer)
      (Evaluation.apply library (calls + 1) (.method r) values l.world) := by
  have heap : l.heap = k.heap := congrArg World.heap d.world
  obtain ⟨name, argCount, found⟩ := declares_of_compiled d.running r
  rw [← heap] at name argCount
  rw [Evaluation.apply]
  by_cases length : (library.getD r.index default).params.length = values.length
  · have found' : library[r.index]? = some (library.getD r.index default) := by
      apply found
      intro none_
      rw [none_] at length
      exact some_ (List.length_eq_zero_iff.1 length.symm)
    rw [if_pos length]
    rw [if_pos (argCount.trans (congrArg Nat.cast length))] at delivered
    rcases frameFor_cases l r l.stackTop values.length with ⟨made, -⟩ | refused | refused
    · rw [made] at delivered
      have entered : step .fetch k = .running .fetch
          { l with frames := l.frames.push (entering l.heap r l.stackTop values.length) } := by
        rw [d.ran, delivered]
        rfl
      have bound := d.passed
      rw [← d.inside.stackTop] at bound
      have body := follows_body simulates (d.running.leads (.step entered)) found' length rfl bound
      apply Follows.step entered
      apply (body.andThen ?_).mono (fun _ _ _ shown => shown) ?_
      · rintro v b n leads ⟨l', returns, frames, slots, entries, world⟩
        have inside := d.inside.restored ⟨FrameStack.ext frames, slots, entries⟩
        obtain ⟨n', pushed, inside', world'⟩ := inside.push v d.room
        obtain ⟨base, rest, open_, below⟩ := d.nested
        have deeper : l'.frames.size ≠ base := by
          rw [FrameStack.size_eq, inside.frames, List.length_cons]
          exact Nat.ne_of_gt below
        have handed : l'.handBack v = (.fetch, n') := by
          unfold handBack
          simp only [inside.entries, open_, if_neg deeper, pushed]
        rw [handed] at returns
        exact ⟨.fetch, n', .step returns, world'.trans world, rfl, inside'⟩
      · intro l' left
        refine d.inside.left_of_callee d.low ?_ ?_ left
        · exact fun _ => rfl
        · rfl
    · rw [refused] at delivered
      have ran := d.ran
      rw [delivered] at ran
      exact (d.running.unlimited l _ (.step ran) trivial).elim
    · rw [refused] at delivered
      have ran := d.ran
      rw [delivered] at ran
      exact (d.running.unlimited l _ (.step ran) trivial).elim
  · rw [if_neg length]
    have apart : ¬ (l.heap.method r).argCount = values.length := by
      rw [argCount]
      exact fun same => length (Int.ofNat.inj same)
    rw [if_neg apart] at delivered
    have complained := complain_wrongArity (l.truncate l.stackTop) (l.heap.method r).name
      (l.heap.method r).argCount values.length
    rw [← name, ← argCount]
    show Follows _ _ _ _ _ (Evaluation.wrongArity _ _ _ (l.truncate l.stackTop).world)
    rw [complained]
    exact d.push .nil delivered (d.inside.truncate.congr rfl rfl rfl)

/-- A primitive is called. -/
theorem primitive (serves : Serves library calls) {p : Ref .primitive}
    (d : x.Delivers library place us values selector k l)
    (delivered : l.deliver selector values = (l.truncate l.stackTop).callPrimitive p values) :
    Follows (calls + 1) .fetch k (fun v => x.Shows place (us ++ [v])) (Left x.base x.outer)
      (Evaluation.apply library (calls + 1) (.primitive p) values l.world) := by
  have heap : l.heap = k.heap := congrArg World.heap d.world
  have standard : (l.truncate l.stackTop).heap.Standard := by
    show l.heap.Standard
    rw [heap]
    exact d.running.compiled.standard
  have performed : Performed (Evaluation.apply library calls) _ _ _ :=
    performed_callPrimitive (l.truncate l.stackTop) standard p values
  have undisturbed := (answers_callPrimitive (l.truncate l.stackTop) p values).undisturbed
  have ran := d.ran
  rw [delivered] at ran
  show Follows _ _ _ _ _ (Evaluation.callPrimitive (Evaluation.apply library calls)
    ((l.truncate l.stackTop).heap.primitive p) values (l.truncate l.stackTop).world)
  generalize Evaluation.callPrimitive (Evaluation.apply library calls)
    ((l.truncate l.stackTop).heap.primitive p) values (l.truncate l.stackTop).world = result
    at performed ⊢
  generalize (l.truncate l.stackTop).callPrimitive p values = next at performed undisturbed ran
  obtain ⟨b, n⟩ := next
  have inside := d.inside.truncate.congr undisturbed.frames undisturbed.segment undisturbed.entries
  cases performed with
  | reply v =>
    obtain ⟨b, n', leads, world, shown⟩ := d.receive v inside
    exact ⟨b, n', (Leads.step ran).trans leads, world, shown⟩
  | stop why => exact ⟨n, .step ran, rfl, inside.left d.low⟩
  | @invoke callable args others =>
    apply Follows.step ran
    have served := serves n callable args others (d.running.leads (.step ran))
    apply (served.andThen ?_).mono (fun _ _ _ shown => shown) ?_
    · rintro v b n' leads ⟨rfl, restored⟩
      exact d.receive v (inside.restored restored)
    · exact fun l' restored => (inside.restored restored).left d.low

end Activation.Delivers

/-- Messages follow their evaluation if calls do that may make one call less. -/
theorem sends_of (fewer : ∀ c, calls = c + 1 → Simulates library c ∧ Serves library c) :
    Sends library calls := by
  intro x place us values selector k some_ here ex
  obtain ⟨l, d⟩ := ex.delivers some_ here
  rw [← d.world]
  cases symbol : selector.asSymbol? with
  | none =>
    have delivered : l.deliver selector values = ((l.truncate l.stackTop).report
        .messageNotUnderstood s!"Selector is not a symbol: {l.heap.print selector}").push .nil := by
      unfold deliver
      rw [symbol]
    have complained := complain_report (l.truncate l.stackTop)
      s!"Selector is not a symbol: {l.heap.print selector}" none
      (show Diagnostic.Kind.messageNotUnderstood ≠ .trace from Diagnostic.Kind.noConfusion)
    rw [dispatch_of_none symbol]
    exact complained ▸ d.push .nil delivered (d.inside.truncate.reported _ _ _)
  | some name =>
    cases handler : l.image.handler? l.heap (l.image.classOf l.heap (values.headD .nil)) name with
    | error fault =>
      have ran := d.ran
      unfold deliver at ran
      simp only [symbol, handler] at ran
      rw [dispatch_of_error (w := l.world) symbol handler]
      exact ⟨l, .step ran, rfl, d.inside.left d.low⟩
    | ok result =>
      match result with
      | none =>
        have delivered : l.deliver selector values =
            (l.truncate l.stackTop).notUnderstood (values.headD .nil) name := by
          unfold deliver
          simp only [symbol, handler]
        have complained := complain_notUnderstood (l.truncate l.stackTop) (values.headD .nil) name
        rw [dispatch_of_missing (w := l.world) symbol handler]
        exact complained ▸ d.reply .nil delivered (d.inside.truncate.reported _ _ _)
      | some ⟨owner, .primitive p⟩ =>
        rw [dispatch_of_handler (w := l.world) symbol handler]
        cases calls with
        | zero => exact ⟨.fetch, k, .zero⟩
        | succ calls =>
          apply d.primitive (fewer calls rfl).2
          unfold deliver
          simp only [symbol, handler]
      | some ⟨owner, .method r⟩ =>
        rw [dispatch_of_handler (w := l.world) symbol handler]
        cases calls with
        | zero => exact ⟨.fetch, k, .zero⟩
        | succ calls =>
          apply d.method (fewer calls rfl).1 some_
          unfold deliver
          rewrite [symbol]
          dsimp only
          rewrite [handler]
          rfl

end MessageMachine.Machine
