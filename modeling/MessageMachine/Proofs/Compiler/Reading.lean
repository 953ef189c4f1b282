/-
# What compilation accepts

How a value is understood as a form, and that the code that is compiled for it is code
of that form. `Reads` is the grammar of expressions: it says of every shape that a
value may have what it means, in terms of the simpler forms, and it numbers the methods
in the order in which they are made. It knows nothing of code. `Translates` ties both
together, value by value, in the order in which the compiler takes a value apart.

A value is read in the heap as it is at the moment of compilation. Later changes to its
pairs change neither the form nor the code.
-/

import MessageMachine.Expr.Code
import MessageMachine.Proofs.Compiler.Code

namespace MessageMachine

open Assembler

/-! ## The grammar -/

/-- The heads of forms that are not messages. -/
def Form.keywords : List String :=
  ["quote", "if", "begin", "define", "send", "defclass", "defmethod"]

mutual

/-- A value is understood as a form. The methods in it are made one after the other,
numbered from `first` on, and a method after those inside it. -/
inductive Reads (h : Heap) : (first : Nat) → Value → Form → List Function → Prop
  | symbol {first : Nat} {name : String} : Reads h first (.symbol name) (.symbol name) []
  /-- What is neither a symbol nor a pair stands for itself. -/
  | datum {first : Nat} {v : Value} :
      v.asSymbol? = none → v.asPair? = none → Reads h first v (.datum v) []
  | quote {first : Nat} {r : Ref .pair} {v : Value} :
      h.elements? (.pair r) = some [.symbol "quote", v] → Reads h first (.pair r) (.datum v) []
  | conditional {first : Nat} {r : Ref .pair} {test yes no : Value} {test' yes' no' : Form}
      {fs gs hs : List Function} :
      h.elements? (.pair r) = some [.symbol "if", test, yes, no] →
      Reads h first test test' fs → Reads h (first + fs.length) yes yes' gs →
      Reads h (first + fs.length + gs.length) no no' hs →
      Reads h first (.pair r) (.conditional test' yes' no') (fs ++ (gs ++ hs))
  /-- A missing alternative is nil. -/
  | oneArmed {first : Nat} {r : Ref .pair} {test yes : Value} {test' yes' : Form}
      {fs gs : List Function} :
      h.elements? (.pair r) = some [.symbol "if", test, yes] →
      Reads h first test test' fs → Reads h (first + fs.length) yes yes' gs →
      Reads h first (.pair r) (.conditional test' yes' (.datum .nil)) (fs ++ gs)
  | sequence {first : Nat} {r : Ref .pair} {body : List Value} {forms : List Form}
      {fs : List Function} :
      h.elements? (.pair r) = some (.symbol "begin" :: body) →
      ReadsAll h first body forms fs → Reads h first (.pair r) (.sequence forms) fs
  | define {first : Nat} {r : Ref .pair} {name : String} {v : Value} {value : Form}
      {fs : List Function} :
      h.elements? (.pair r) = some [.symbol "define", .symbol name, v] →
      Reads h first v value fs → Reads h first (.pair r) (.define name value) fs
  /-- The selector is written second and evaluated last. -/
  | computed {first : Nat} {r : Ref .pair} {receiver selector : Value} {args : List Value}
      {receiver' selector' : Form} {args' : List Form} {fs gs hs : List Function} :
      h.elements? (.pair r) = some (.symbol "send" :: receiver :: selector :: args) →
      Reads h first receiver receiver' fs → ReadsAll h (first + fs.length) args args' gs →
      Reads h (first + fs.length + gs.length) selector selector' hs →
      Reads h first (.pair r) (.computed receiver' args' selector') (fs ++ (gs ++ hs))
  | message {first : Nat} {r : Ref .pair} {selector : String} {operands : List Value}
      {forms : List Form} {fs : List Function} :
      h.elements? (.pair r) = some (.symbol selector :: operands) →
      selector ∉ Form.keywords → operands ≠ [] → ReadsAll h first operands forms fs →
      Reads h first (.pair r) (.message selector forms) fs
  /-- A message without operands goes to nil. -/
  | bareMessage {first : Nat} {r : Ref .pair} {selector : String} :
      h.elements? (.pair r) = some [.symbol selector] → selector ∉ Form.keywords →
      Reads h first (.pair r) (.message selector [.datum .nil]) []
  /-- A class without a base is derived from `Object`. -/
  | rootClass {first : Nat} {r : Ref .pair} {name : String} :
      h.elements? (.pair r) = some [.symbol "defclass", .symbol name] →
      Reads h first (.pair r)
        (.message "subclass" [.global "Object", .datum (.symbol name)]) []
  | defineClass {first : Nat} {r : Ref .pair} {name base : String} :
      h.elements? (.pair r) = some [.symbol "defclass", .symbol name, .symbol base] →
      Reads h first (.pair r) (.message "subclass" [.global base, .datum (.symbol name)]) []
  /-- A method is installed on its class. Its parameters are all that its body sees of
  what surrounds it. -/
  | defineMethod {first : Nat} {r : Ref .pair} {className selector : String} {sign : Value}
      {params : List String} {body : List Value} {forms : List Form} {fs : List Function} :
      h.elements? (.pair r) =
        some (.symbol "defmethod" :: .symbol className :: sign :: body) →
      h.elements? sign = some (.symbol selector :: params.map .symbol) →
      params ≠ [] → params.Nodup → ReadsAll h first body forms fs →
      Reads h first (.pair r)
        (.message "install" [.global className, .datum (.symbol selector),
          .datum (.callable (.method ⟨first + fs.length⟩))])
        (fs ++ [⟨s!"{className}>>{selector}", params, .sequence forms⟩])

/-- Values are understood as forms, from left to right. -/
inductive ReadsAll (h : Heap) : (first : Nat) → List Value → List Form → List Function → Prop
  | nil {first : Nat} : ReadsAll h first [] [] []
  | cons {first : Nat} {v : Value} {rest : List Value} {form : Form} {forms : List Form}
      {fs gs : List Function} :
      Reads h first v form fs → ReadsAll h (first + fs.length) rest forms gs →
      ReadsAll h first (v :: rest) (form :: forms) (fs ++ gs)

end

/-! ## One reading

The shape of a value decides how it is read: no two rules of the grammar apply to the
same list, since a message never begins with a keyword. -/

section

variable {h : Heap}

mutual

/-- A value is understood in one way only. -/
theorem Reads.unique {first : Nat} {v : Value} {form form' : Form} {fs fs' : List Function}
    (reads : Reads h first v form fs) (reads' : Reads h first v form' fs') :
    form = form' ∧ fs = fs' := by
  match reads with
  | .symbol =>
    cases reads' with
    | symbol => exact ⟨rfl, rfl⟩
    | datum none_ _ => cases none_
  | .datum none_ apart =>
    cases reads' with
    | symbol => cases none_
    | datum _ _ => exact ⟨rfl, rfl⟩
    | _ => cases apart
  | .quote shape =>
    cases reads' with
    | datum _ apart => cases apart
    | quote shape' =>
      rw [shape] at shape'
      cases shape'
      exact ⟨rfl, rfl⟩
    | _ => grind [Form.keywords]
  | .conditional shape test yes no =>
    cases reads' with
    | datum _ apart => cases apart
    | conditional shape' test' yes' no' =>
      rw [shape] at shape'
      cases shape'
      obtain ⟨rfl, rfl⟩ := test.unique test'
      obtain ⟨rfl, rfl⟩ := yes.unique yes'
      obtain ⟨rfl, rfl⟩ := no.unique no'
      exact ⟨rfl, rfl⟩
    | _ => grind [Form.keywords]
  | .oneArmed shape test yes =>
    cases reads' with
    | datum _ apart => cases apart
    | oneArmed shape' test' yes' =>
      rw [shape] at shape'
      cases shape'
      obtain ⟨rfl, rfl⟩ := test.unique test'
      obtain ⟨rfl, rfl⟩ := yes.unique yes'
      exact ⟨rfl, rfl⟩
    | _ => grind [Form.keywords]
  | .sequence shape body =>
    cases reads' with
    | datum _ apart => cases apart
    | sequence shape' body' =>
      rw [shape] at shape'
      cases shape'
      obtain ⟨rfl, rfl⟩ := body.unique body'
      exact ⟨rfl, rfl⟩
    | _ => grind [Form.keywords]
  | .define shape value =>
    cases reads' with
    | datum _ apart => cases apart
    | define shape' value' =>
      rw [shape] at shape'
      cases shape'
      obtain ⟨rfl, rfl⟩ := value.unique value'
      exact ⟨rfl, rfl⟩
    | _ => grind [Form.keywords]
  | .computed shape receiver args selector =>
    cases reads' with
    | datum _ apart => cases apart
    | computed shape' receiver' args' selector' =>
      rw [shape] at shape'
      cases shape'
      obtain ⟨rfl, rfl⟩ := receiver.unique receiver'
      obtain ⟨rfl, rfl⟩ := args.unique args'
      obtain ⟨rfl, rfl⟩ := selector.unique selector'
      exact ⟨rfl, rfl⟩
    | _ => grind [Form.keywords]
  | .message shape plain some_ operands =>
    cases reads' with
    | datum _ apart => cases apart
    | message shape' _ _ operands' =>
      rw [shape] at shape'
      cases shape'
      obtain ⟨rfl, rfl⟩ := operands.unique operands'
      exact ⟨rfl, rfl⟩
    | _ => grind [Form.keywords]
  | .bareMessage shape plain =>
    cases reads' with
    | datum _ apart => cases apart
    | bareMessage shape' _ =>
      rw [shape] at shape'
      cases shape'
      exact ⟨rfl, rfl⟩
    | _ => grind [Form.keywords]
  | .rootClass shape =>
    cases reads' with
    | datum _ apart => cases apart
    | rootClass shape' =>
      rw [shape] at shape'
      cases shape'
      exact ⟨rfl, rfl⟩
    | _ => grind [Form.keywords]
  | .defineClass shape =>
    cases reads' with
    | datum _ apart => cases apart
    | defineClass shape' =>
      rw [shape] at shape'
      cases shape'
      exact ⟨rfl, rfl⟩
    | _ => grind [Form.keywords]
  | .defineMethod shape sign some_ distinct body =>
    cases reads' with
    | datum _ apart => cases apart
    | defineMethod shape' sign' _ _ body' =>
      rw [shape] at shape'
      cases shape'
      rw [sign] at sign'
      have heads := List.cons.inj (Option.some.inj sign')
      obtain rfl := Value.symbol.inj heads.1
      obtain rfl := (List.map_inj_right fun _ _ => Value.symbol.inj).1 heads.2
      obtain ⟨rfl, rfl⟩ := body.unique body'
      exact ⟨rfl, rfl⟩
    | _ => grind [Form.keywords]

theorem ReadsAll.unique {first : Nat} {vs : List Value} {forms forms' : List Form}
    {fs fs' : List Function} (reads : ReadsAll h first vs forms fs)
    (reads' : ReadsAll h first vs forms' fs') : forms = forms' ∧ fs = fs' := by
  match reads with
  | .nil =>
    cases reads'
    exact ⟨rfl, rfl⟩
  | .cons one others =>
    cases reads' with
    | cons one' others' =>
      obtain ⟨rfl, rfl⟩ := one.unique one'
      obtain ⟨rfl, rfl⟩ := others.unique others'
      exact ⟨rfl, rfl⟩

end

end

/-! ## Methods that are made -/

/-- A method was finished over code of the body of a function. -/
structure Implements (m : Method) (f : Function) : Prop where
  name : m.name = f.name
  argCount : m.argCount = f.params.length
  code : ∃ a last, a.finish = .ok m ∧ Codes a f.params f.body 0 last ∧
    a.At last (.plain .leave)

/-- Methods have been added for functions, and nothing else has changed. -/
structure Makes (h h' : Heap) (functions : List Function) : Prop where
  data : { h' with methods := h.methods } = h
  size : h'.methods.size = h.methods.size + functions.length
  kept : ∀ index < h.methods.size, h'.methods[index]? = h.methods[index]?
  made : ∀ (index : Nat) f, functions[index]? = some f →
    ∃ m, h'.methods[h.methods.size + index]? = some m ∧ Implements m f

namespace Makes

variable {h h' h'' : Heap} {fs gs : List Function}

theorem nothing (h : Heap) : Makes h h [] :=
  ⟨rfl, rfl, fun _ _ => rfl, fun _ _ none_ => by simp at none_⟩

theorem append (first : Makes h h' fs) (second : Makes h' h'' gs) : Makes h h'' (fs ++ gs) where
  data := by
    have inner := second.data
    have outer := first.data
    rw [← inner] at outer
    exact outer
  size := by rw [second.size, first.size, List.length_append, Nat.add_assoc]
  kept := by
    intro index lt
    rw [second.kept index (by rw [first.size]; exact Nat.lt_add_right _ lt), first.kept index lt]
  made := by
    intro index f found
    by_cases early : index < fs.length
    · rw [List.getElem?_append_left early] at found
      obtain ⟨m, there, implements⟩ := first.made index f found
      refine ⟨m, ?_, implements⟩
      rw [second.kept _ (by rw [first.size]; exact Nat.add_lt_add_left early _), there]
    · rw [List.getElem?_append_right (Nat.le_of_not_lt early)] at found
      obtain ⟨m, there, implements⟩ := second.made _ f found
      refine ⟨m, ?_, implements⟩
      rw [first.size] at there
      have place : h.methods.size + fs.length + (index - fs.length) = h.methods.size + index := by
        omega
      rw [place] at there
      exact there

theorem method (h : Heap) {m : Method} {f : Function} (implements : Implements m f) :
    Makes h (h.allocMethod m).1 [f] where
  data := rfl
  size := Array.size_push _
  kept := by
    intro index lt
    show (h.methods.push m)[index]? = _
    rw [Array.getElem?_push_lt lt, ← Array.getElem?_eq_getElem lt]
  made := by
    intro index g found
    obtain ⟨rfl, rfl⟩ : index = 0 ∧ f = g := by
      cases index with
      | zero => exact ⟨rfl, Option.some.inj found⟩
      | succ index => simp at found
    exact ⟨m, Array.getElem?_push_size, implements⟩

end Makes

/-! ## Translations -/

/-- Wherever the code of an expression is emitted, it is code of the form that the value
is understood as. -/
def Translates (source : Heap) (params : List String) (v : Value) (e : Expr) : Prop :=
  ∀ h a h' a', e.emit h a = .ok (h', a') → ∃ form functions,
    Reads source h.methods.size v form functions ∧ Makes h h' functions ∧
      Emits a a' fun c => Codes c params form

def TranslatesAll (source : Heap) (params : List String) (vs : List Value) (es : List Expr) :
    Prop :=
  ∀ h a h' a', Expr.emitAll es h a = .ok (h', a') → ∃ forms functions,
    ReadsAll source h.methods.size vs forms functions ∧ Makes h h' functions ∧
      forms.length = es.length ∧ Emits a a' fun c => CodesAll c params forms

/-- The same of expressions in sequence. -/
def TranslatesInOrder (source : Heap) (params : List String) (vs : List Value)
    (es : List Expr) : Prop :=
  ∀ h a h' a', (Expr.inSequence es).emit h a = .ok (h', a') → ∃ forms functions,
    ReadsAll source h.methods.size vs forms functions ∧ Makes h h' functions ∧
      Emits a a' fun c => CodesInOrder c params forms

theorem exists_of_bind_eq_ok {ε α β : Type} {x : Except ε α} {f : α → Except ε β} {b : β}
    (bound : x >>= f = .ok b) : ∃ a, x = .ok a ∧ f a = .ok b := by
  cases x with
  | error e => cases bound
  | ok a => exact ⟨a, rfl, bound⟩

section Translation

variable {source : Heap} {params : List String} {r : Ref .pair} {e : Expr}

/-! ### Lists of values -/

theorem translatesAll_of_mapM {compile : Value → Except Expr.Error Expr}
    (each : ∀ v e, compile v = .ok e → Translates source params v e) (vs : List Value)
    (es : List Expr) (compiled : vs.mapM compile = .ok es) :
    TranslatesAll source params vs es := by
  induction vs generalizing es with
  | nil =>
    cases compiled
    intro h a h' a' emitted
    cases emitted
    exact ⟨[], [], .nil, .nothing h, rfl, (Emits.nothing a).mono fun _ _ _ codes => codes⟩
  | cons v rest ih =>
    rw [List.mapM_cons] at compiled
    obtain ⟨e, first, compiled⟩ := exists_of_bind_eq_ok compiled
    obtain ⟨es, others, compiled⟩ := exists_of_bind_eq_ok compiled
    cases compiled
    intro h a h' a' emitted
    obtain ⟨⟨h₁, a₁⟩, emitted₁, emitted⟩ := exists_of_bind_eq_ok emitted
    obtain ⟨form, fs, reads, makes, emits⟩ := each v e first h a h₁ a₁ emitted₁
    obtain ⟨forms, gs, reads', makes', count, emits'⟩ := ih es others h₁ a₁ h' a' emitted
    rw [makes.size] at reads'
    exact ⟨form :: forms, fs ++ gs, .cons reads reads', makes.append makes',
      congrArg Nat.succ count, (emits.andThen emits').mono fun _ _ _ codes => codes⟩

theorem translatesInOrder_of_mapM {compile : Value → Except Expr.Error Expr}
    (each : ∀ v e, compile v = .ok e → Translates source params v e) (vs : List Value)
    (es : List Expr) (compiled : vs.mapM compile = .ok es) :
    TranslatesInOrder source params vs es := by
  induction vs generalizing es with
  | nil =>
    cases compiled
    intro h a h' a' emitted
    cases emitted
    exact ⟨[], [], .nil, .nothing h, (Emits.constant a .nil).mono fun _ _ _ codes => codes⟩
  | cons v rest ih =>
    rw [List.mapM_cons] at compiled
    obtain ⟨e, first, compiled⟩ := exists_of_bind_eq_ok compiled
    obtain ⟨es, others, compiled⟩ := exists_of_bind_eq_ok compiled
    cases compiled
    intro h a h' a' emitted
    cases rest with
    | nil =>
      cases others
      obtain ⟨form, fs, reads, makes, emits⟩ := each v e first h a h' a' emitted
      have reads' := ReadsAll.cons reads .nil
      rw [List.append_nil] at reads'
      exact ⟨[form], fs, reads', makes, emits.mono fun _ _ _ codes => codes⟩
    | cons next rest =>
      have others' := others
      rw [List.mapM_cons] at others'
      obtain ⟨e', -, others'⟩ := exists_of_bind_eq_ok others'
      obtain ⟨es', -, others'⟩ := exists_of_bind_eq_ok others'
      cases others'
      rw [Expr.inSequence_cons_cons] at emitted
      obtain ⟨⟨h₁, a₁⟩, emitted₁, emitted⟩ := exists_of_bind_eq_ok emitted
      obtain ⟨form, fs, reads, makes, emits⟩ := each v e first h a h₁ a₁ emitted₁
      obtain ⟨forms, gs, reads', makes', emits'⟩ := ih _ others h₁ (a₁.emit .pop) h' a' emitted
      rw [makes.size] at reads'
      refine ⟨form :: forms, fs ++ gs, .cons reads reads', makes.append makes', ?_⟩
      cases reads' with
      | cons _ _ =>
        refine ((emits.andThen (Emits.emit a₁ .pop)).andThen emits').mono ?_
        rintro c start stop ⟨_, ⟨last, codes, pops, rfl⟩, codes'⟩
        exact ⟨last, codes, pops, codes'⟩

/-! ### Single values -/

theorem translates_ofSymbol (name : String) :
    Translates source params (.symbol name) (Expr.ofSymbol params name) := by
  intro h a h' a' emitted
  unfold Expr.ofSymbol at emitted
  split at emitted
  next index found =>
    cases emitted
    refine ⟨.symbol name, [], .symbol, .nothing h, (Emits.emit a _).mono ?_⟩
    intro c start stop codes
    simpa only [Codes, found] using codes
  next none_ =>
    cases emitted
    refine ⟨.symbol name, [], .symbol, .nothing h, (Emits.loadGlobal a name).mono ?_⟩
    intro c start stop codes
    simpa only [Codes, none_] using codes

theorem translates_constant {v w : Value} (reads : ∀ first, Reads source first v (.datum w) []) :
    Translates source params v (.constant w) := by
  intro h a h' a' emitted
  cases emitted
  exact ⟨.datum w, [], reads _, .nothing h, (Emits.constant a w).mono fun _ _ _ codes => codes⟩

theorem translates_conditional {test yes no : Value} {et ey en : Expr}
    (found : source.elements? (.pair r) = some [.symbol "if", test, yes, no])
    (tested : Translates source params test et) (taken : Translates source params yes ey)
    (skipped : Translates source params no en) :
    Translates source params (.pair r) (.conditional et ey en) := by
  intro h a h' a' emitted
  obtain ⟨⟨h₁, a₁⟩, emitted₁, emitted⟩ := exists_of_bind_eq_ok emitted
  obtain ⟨⟨h₂, a₂⟩, emitted₂, emitted⟩ := exists_of_bind_eq_ok emitted
  obtain ⟨⟨h₃, a₃⟩, emitted₃, emitted⟩ := exists_of_bind_eq_ok emitted
  cases emitted
  obtain ⟨test', fs, reads₁, makes₁, emits₁⟩ := tested _ _ _ _ emitted₁
  obtain ⟨yes', gs, reads₂, makes₂, emits₂⟩ := taken _ _ _ _ emitted₂
  obtain ⟨no', hs, reads₃, makes₃, emits₃⟩ := skipped _ _ _ _ emitted₃
  rw [makes₂.size, makes₁.size] at reads₃
  rw [makes₁.size] at reads₂
  exact ⟨.conditional test' yes' no', fs ++ (gs ++ hs), .conditional found reads₁ reads₂ reads₃,
    makes₁.append (makes₂.append makes₃),
    (Emits.conditional emits₁ emits₂ emits₃).mono fun _ _ _ codes => codes⟩

theorem translates_oneArmed {test yes : Value} {et ey : Expr}
    (found : source.elements? (.pair r) = some [.symbol "if", test, yes])
    (tested : Translates source params test et) (taken : Translates source params yes ey) :
    Translates source params (.pair r) (.conditional et ey (.constant .nil)) := by
  intro h a h' a' emitted
  obtain ⟨⟨h₁, a₁⟩, emitted₁, emitted⟩ := exists_of_bind_eq_ok emitted
  obtain ⟨⟨h₂, a₂⟩, emitted₂, emitted⟩ := exists_of_bind_eq_ok emitted
  cases emitted
  obtain ⟨test', fs, reads₁, makes₁, emits₁⟩ := tested _ _ _ _ emitted₁
  obtain ⟨yes', gs, reads₂, makes₂, emits₂⟩ := taken _ _ _ _ emitted₂
  rw [makes₁.size] at reads₂
  exact ⟨.conditional test' yes' (.datum .nil), fs ++ gs, .oneArmed found reads₁ reads₂,
    makes₁.append makes₂,
    (Emits.conditional emits₁ emits₂ (Emits.constant _ .nil)).mono fun _ _ _ codes => codes⟩

theorem translates_sequence {body : List Value} {es : List Expr}
    (found : source.elements? (.pair r) = some (.symbol "begin" :: body))
    (inOrder : TranslatesInOrder source params body es) :
    Translates source params (.pair r) (Expr.inSequence es) := by
  intro h a h' a' emitted
  obtain ⟨forms, fs, reads, makes, emits⟩ := inOrder h a h' a' emitted
  exact ⟨.sequence forms, fs, .sequence found reads, makes, emits.mono fun _ _ _ codes => codes⟩

theorem translates_define {name : String} {v : Value}
    (found : source.elements? (.pair r) = some [.symbol "define", .symbol name, v])
    (evaluated : Translates source params v e) :
    Translates source params (.pair r) (.define name e) := by
  intro h a h' a' emitted
  obtain ⟨⟨h₁, a₁⟩, emitted₁, emitted⟩ := exists_of_bind_eq_ok emitted
  cases emitted
  obtain ⟨value, fs, reads, makes, emits⟩ := evaluated _ _ _ _ emitted₁
  refine ⟨.define name value, fs, .define found reads, makes, ?_⟩
  refine (((Emits.constant a (.symbol name)).andThen emits).andThen
    (Emits.emit a₁ .defineGlobal)).mono ?_
  rintro c start stop ⟨last, ⟨_, ⟨loads, rfl⟩, codes⟩, defines, rfl⟩
  exact ⟨last, loads, codes, defines, rfl⟩

theorem translates_computed {receiver selector : Value} {args : List Value} {er es : Expr}
    {eas : List Expr}
    (found : source.elements? (.pair r) = some (.symbol "send" :: receiver :: selector :: args))
    (received : Translates source params receiver er)
    (others : TranslatesAll source params args eas)
    (selected : Translates source params selector es) :
    Translates source params (.pair r) (.perform er eas es) := by
  intro h a h' a' emitted
  obtain ⟨⟨h₁, a₁⟩, emitted₁, emitted⟩ := exists_of_bind_eq_ok emitted
  obtain ⟨⟨h₂, a₂⟩, emitted₂, emitted⟩ := exists_of_bind_eq_ok emitted
  obtain ⟨⟨h₃, a₃⟩, emitted₃, emitted⟩ := exists_of_bind_eq_ok emitted
  cases emitted
  obtain ⟨receiver', fs, reads₁, makes₁, emits₁⟩ := received _ _ _ _ emitted₁
  obtain ⟨args', gs, reads₂, makes₂, count, emits₂⟩ := others _ _ _ _ emitted₂
  obtain ⟨selector', hs, reads₃, makes₃, emits₃⟩ := selected _ _ _ _ emitted₃
  rw [makes₂.size, makes₁.size] at reads₃
  rw [makes₁.size] at reads₂
  refine ⟨.computed receiver' args' selector', fs ++ (gs ++ hs),
    .computed found reads₁ reads₂ reads₃, makes₁.append (makes₂.append makes₃), ?_⟩
  refine (((emits₁.andThen emits₂).andThen emits₃).andThen (Emits.emit a₃ _)).mono ?_
  rintro c start stop ⟨last, ⟨late, ⟨next, codes₁, codes₂⟩, codes₃⟩, calls, rfl⟩
  refine ⟨next, late, last, codes₁, codes₂, codes₃, ?_, rfl⟩
  rw [← count] at calls
  exact calls

theorem translates_message {selector : String} {operands : List Value} {es : List Expr}
    (found : source.elements? (.pair r) = some (.symbol selector :: operands))
    (plain : selector ∉ Form.keywords) (some_ : operands ≠ [])
    (all : TranslatesAll source params operands es) :
    Translates source params (.pair r) (.send selector es) := by
  intro h a h' a' emitted
  obtain ⟨⟨h₁, a₁⟩, emitted₁, emitted⟩ := exists_of_bind_eq_ok emitted
  cases emitted
  obtain ⟨forms, fs, reads, makes, count, emits⟩ := all _ _ _ _ emitted₁
  have some' : forms ≠ [] := by
    rintro rfl
    cases reads
    exact some_ rfl
  refine ⟨.message selector forms, fs, .message found plain some_ reads, makes, ?_⟩
  refine ((emits.andThen (Emits.constant a₁ (.symbol selector))).andThen (Emits.emit _ _)).mono ?_
  rintro c start stop ⟨_, ⟨last, codes, loads, rfl⟩, calls, rfl⟩
  rw [← count] at calls
  exact ⟨some', last, codes, loads, calls, rfl⟩

theorem translates_bareMessage {selector : String}
    (found : source.elements? (.pair r) = some [.symbol selector])
    (plain : selector ∉ Form.keywords) :
    Translates source params (.pair r) (.send selector [.constant .nil]) := by
  intro h a h' a' emitted
  cases emitted
  refine ⟨_, [], .bareMessage found plain, .nothing h, ?_⟩
  refine (((Emits.constant a .nil).andThen (Emits.constant _ (.symbol selector))).andThen
    (Emits.emit _ _)).mono ?_
  rintro c start stop ⟨_, ⟨_, ⟨subject, rfl⟩, loads, rfl⟩, calls, rfl⟩
  exact ⟨List.cons_ne_nil _ _, start + 1, ⟨_, ⟨subject, rfl⟩, rfl⟩, loads, calls, rfl⟩

theorem translates_classDefinition {name base : String}
    (reads : ∀ first, Reads source first (.pair r)
      (.message "subclass" [.global base, .datum (.symbol name)]) []) :
    Translates source params (.pair r) (Expr.classDefinition name base) := by
  intro h a h' a' emitted
  cases emitted
  refine ⟨_, [], reads _, .nothing h, ?_⟩
  refine ((((Emits.loadGlobal a base).andThen (Emits.constant _ (.symbol name))).andThen
    (Emits.constant _ (.symbol "subclass"))).andThen (Emits.emit _ _)).mono ?_
  rintro c start stop ⟨_, ⟨_, ⟨_, ⟨looks, rfl⟩, named, rfl⟩, loads, rfl⟩, calls, rfl⟩
  exact ⟨List.cons_ne_nil _ _, start + 3,
    ⟨_, ⟨looks, rfl⟩, _, ⟨named, rfl⟩, rfl⟩, loads, calls, rfl⟩

/-- A method that is finished over the code of a body implements the function. -/
theorem implements_of_emits {name : String} {inner : List String} {body : Form}
    {place : Option Location} {b : Assembler} {m : Method}
    (emits : Emits (.create name inner.length place) b fun c => Codes c inner body)
    (finished : (b.emit .leave).finish = .ok m) : Implements m ⟨name, inner, body⟩ := by
  have whole := emits.andThen (Emits.emit b .leave)
  obtain ⟨last, codes, leaves, -⟩ := whole.codes _ (.refl _ _ _)
  have made : m.name = (b.emit .leave).name ∧ m.argCount = (b.emit .leave).argCount := by
    unfold finish at finished
    split at finished
    · cases finished
    · split at finished
      · cases finished
      · cases finished
        exact ⟨rfl, rfl⟩
  exact ⟨made.1.trans whole.keeps.name, made.2.trans whole.keeps.argCount,
    _, last, finished, codes, leaves⟩

/-- The body of a method is compiled on its own, and the method is a constant of the code
around it. -/
theorem translates_methodDefinition {className selector : String} {sign : Value}
    {inner : List String} {body : List Value} {es : List Expr} {place : Option Location}
    (found : source.elements? (.pair r) =
      some (.symbol "defmethod" :: .symbol className :: sign :: body))
    (signed : source.elements? sign = some (.symbol selector :: inner.map .symbol))
    (some_ : inner ≠ []) (different : inner.Nodup)
    (inOrder : TranslatesInOrder source inner body es) :
    Translates source params (.pair r)
      (Expr.methodDefinition className selector inner.length (Expr.inSequence es) place) := by
  intro h a h' a' emitted
  obtain ⟨⟨h₃, a₃⟩, operands, emitted⟩ := exists_of_bind_eq_ok emitted
  cases emitted
  obtain ⟨⟨h₀, a₀⟩, looked, operands⟩ := exists_of_bind_eq_ok operands
  cases looked
  obtain ⟨⟨h₁, a₁⟩, named, operands⟩ := exists_of_bind_eq_ok operands
  cases named
  obtain ⟨⟨h₂, a₂⟩, made, operands⟩ := exists_of_bind_eq_ok operands
  cases operands
  obtain ⟨⟨h₁, b⟩, bodied, made⟩ := exists_of_bind_eq_ok made
  obtain ⟨m, finished, made⟩ := exists_of_bind_eq_ok made
  cases made
  obtain ⟨forms, fs, reads, makes, emits⟩ := inOrder _ _ _ _ bodied
  have sequenced : Emits _ b fun c => Codes c inner (.sequence forms) :=
    emits.mono fun _ _ _ codes => codes
  have implements := implements_of_emits sequenced finished
  refine ⟨_, fs ++ [_], .defineMethod found signed some_ different reads,
    makes.append (.method h₁ implements), ?_⟩
  rw [← makes.size]
  refine (((((Emits.loadGlobal a className).andThen
    (Emits.constant _ (.symbol selector))).andThen (Emits.constant _ _)).andThen
    (Emits.constant _ (.symbol "install"))).andThen (Emits.emit _ _)).mono ?_
  rintro c start stop
    ⟨_, ⟨_, ⟨_, ⟨_, ⟨looks, rfl⟩, named, rfl⟩, method, rfl⟩, loads, rfl⟩, calls, rfl⟩
  exact ⟨List.cons_ne_nil _ _, start + 4,
    ⟨_, ⟨looks, rfl⟩, _, ⟨named, rfl⟩, _, ⟨method, rfl⟩, rfl⟩, loads, calls, rfl⟩

end Translation

/-! ## Method signatures -/

theorem asSymbol?_eq_some {v : Value} {name : String} (symbol : v.asSymbol? = some name) :
    v = .symbol name := by
  cases v <;> cases symbol
  rfl

theorem exists_of_parameterNames {vs : List Value} {seen params : List String}
    (named : Expr.parameterNames seen vs = .ok params) :
    ∃ names : List String, vs = names.map .symbol ∧ params = seen ++ names ∧
      (seen.Nodup → params.Nodup) := by
  induction vs generalizing seen with
  | nil =>
    cases named
    exact ⟨[], rfl, (List.append_nil _).symm, fun different => different⟩
  | cons v rest ih =>
    unfold Expr.parameterNames at named
    split at named
    next => contradiction
    next _ name rest' same =>
      cases same
      split at named
      · cases named
      next fresh =>
        obtain ⟨names, rfl, rfl, different⟩ := ih named
        refine ⟨name :: names, rfl, by simp, fun distinct => different ?_⟩
        have absent : name ∉ seen := by simpa using fresh
        apply List.nodup_append.2
        refine ⟨distinct, List.nodup_cons.2 ⟨List.not_mem_nil, List.nodup_nil⟩, ?_⟩
        intro other member other' single same
        rw [List.mem_singleton] at single
        exact absent (single ▸ same ▸ member)
    next => cases named

theorem signature_spec {h : Heap} {v : Value} {selector : String} {params : List String}
    (signed : Expr.signature h v = .ok (selector, params)) :
    h.elements? v = some (.symbol selector :: params.map .symbol) ∧ params ≠ [] ∧
      params.Nodup := by
  unfold Expr.signature at signed
  split at signed
  next first receiver others found =>
    split at signed
    next name symbol =>
      cases named : Expr.parameterNames [] (receiver :: others) with
      | error flaw =>
        rw [named] at signed
        cases signed
      | ok names =>
        rw [named] at signed
        cases signed
        obtain ⟨names, same, rfl, different⟩ := exists_of_parameterNames named
        refine ⟨?_, ?_, different List.nodup_nil⟩
        · rw [found, same, asSymbol?_eq_some symbol]
        · rintro rfl
          cases same
    · cases signed
  · cases signed

theorem methodParts_spec {h : Heap} {operands body : List Value} {className selector : String}
    {params : List String}
    (parts : Expr.methodParts h operands = .ok (className, selector, params, body)) :
    ∃ sign, operands = .symbol className :: sign :: body ∧
      Expr.signature h sign = .ok (selector, params) := by
  unfold Expr.methodParts at parts
  split at parts
  next first sign rest =>
    split at parts
    · cases parts
    next name symbol =>
      cases signed : Expr.signature h sign with
      | error flaw =>
        rw [signed] at parts
        cases parts
      | ok pair =>
        rw [signed] at parts
        cases parts
        exact ⟨sign, by rw [asSymbol?_eq_some symbol], signed⟩
  · cases parts

/-! ## Every accepted value -/

/-- Only a keyword is the head of a form that is not a message. -/
theorem ofName_spec (name : String) :
    (name ∉ Form.keywords ∧ Expr.Head.ofName name = .selector name) ∨
    (name = "quote" ∧ Expr.Head.ofName name = .quote) ∨
    (name = "if" ∧ Expr.Head.ofName name = .conditional) ∨
    (name = "begin" ∧ Expr.Head.ofName name = .sequence) ∨
    (name = "define" ∧ Expr.Head.ofName name = .define) ∨
    (name = "send" ∧ Expr.Head.ofName name = .perform) ∨
    (name = "defclass" ∧ Expr.Head.ofName name = .defineClass) ∨
    (name = "defmethod" ∧ Expr.Head.ofName name = .defineMethod) := by
  unfold Expr.Head.ofName
  split
  all_goals simp_all [Form.keywords]

section Acceptance

variable {source : Heap} {params : List String} {r : Ref .pair} {e : Expr}
  {compile : Value → Except Expr.Error Expr} {refuse : Expr.Flaw → Except Expr.Error Expr}

/-- A combination that is not a method definition, when its operands translate. -/
theorem translates_of_ofForm {name : String} {operands : List Value}
    (found : source.elements? (.pair r) = some (.symbol name :: operands))
    (each : ∀ v e, compile v = .ok e → Translates source params v e)
    (refuses : ∀ flaw e, refuse flaw ≠ .ok e)
    (compiled : Expr.ofForm (.ofName name) operands compile refuse = .ok e) :
    Translates source params (.pair r) e := by
  rcases ofName_spec name with ⟨plain, head⟩ | ⟨rfl, head⟩ | ⟨rfl, head⟩ | ⟨rfl, head⟩ |
    ⟨rfl, head⟩ | ⟨rfl, head⟩ | ⟨rfl, head⟩ | ⟨rfl, head⟩
  all_goals rw [head] at compiled
  · cases operands with
    | nil =>
      cases compiled
      exact translates_bareMessage found plain
    | cons v rest =>
      obtain ⟨es, all, compiled⟩ := exists_of_bind_eq_ok compiled
      cases compiled
      exact translates_message found plain (List.cons_ne_nil _ _)
        (translatesAll_of_mapM each _ _ all)
  · match operands with
    | [v] =>
      cases compiled
      exact translates_constant fun _ => .quote found
    | [] => exact absurd compiled (refuses _ _)
    | _ :: _ :: _ => exact absurd compiled (refuses _ _)
  · match operands with
    | [test, yes] =>
      obtain ⟨et, tested, compiled⟩ := exists_of_bind_eq_ok compiled
      obtain ⟨ey, taken, compiled⟩ := exists_of_bind_eq_ok compiled
      cases compiled
      exact translates_oneArmed found (each _ _ tested) (each _ _ taken)
    | [test, yes, no] =>
      obtain ⟨et, tested, compiled⟩ := exists_of_bind_eq_ok compiled
      obtain ⟨ey, taken, compiled⟩ := exists_of_bind_eq_ok compiled
      obtain ⟨en, skipped, compiled⟩ := exists_of_bind_eq_ok compiled
      cases compiled
      exact translates_conditional found (each _ _ tested) (each _ _ taken) (each _ _ skipped)
    | [] => exact absurd compiled (refuses _ _)
    | [_] => exact absurd compiled (refuses _ _)
    | _ :: _ :: _ :: _ :: _ => exact absurd compiled (refuses _ _)
  · obtain ⟨es, inOrder, compiled⟩ := exists_of_bind_eq_ok compiled
    cases compiled
    exact translates_sequence found (translatesInOrder_of_mapM each _ _ inOrder)
  · match operands with
    | [defined, v] =>
      cases defined with
      | symbol name =>
        obtain ⟨e, evaluated, compiled⟩ := exists_of_bind_eq_ok compiled
        cases compiled
        exact translates_define found (each _ _ evaluated)
      | _ => exact absurd compiled (refuses _ _)
    | [] => exact absurd compiled (refuses _ _)
    | [v] => cases v <;> exact absurd compiled (refuses _ _)
    | v :: _ :: _ :: _ => cases v <;> exact absurd compiled (refuses _ _)
  · match operands with
    | receiver :: selector :: args =>
      obtain ⟨er, received, compiled⟩ := exists_of_bind_eq_ok compiled
      obtain ⟨eas, others, compiled⟩ := exists_of_bind_eq_ok compiled
      obtain ⟨es, selected, compiled⟩ := exists_of_bind_eq_ok compiled
      cases compiled
      exact translates_computed found (each _ _ received) (translatesAll_of_mapM each _ _ others)
        (each _ _ selected)
    | [] => exact absurd compiled (refuses _ _)
    | [_] => exact absurd compiled (refuses _ _)
  · match operands with
    | [defined] =>
      cases defined with
      | symbol name =>
        cases compiled
        exact translates_classDefinition fun _ => .rootClass found
      | _ => exact absurd compiled (refuses _ _)
    | [defined, base] =>
      cases defined with
      | symbol name =>
        cases base with
        | symbol base =>
          cases compiled
          exact translates_classDefinition fun _ => .defineClass found
        | _ => exact absurd compiled (refuses _ _)
      | _ => exact absurd compiled (refuses _ _)
    | [] => exact absurd compiled (refuses _ _)
    | v :: w :: _ :: _ => cases v <;> cases w <;> exact absurd compiled (refuses _ _)
  · exact absurd compiled (refuses _ _)

/-- An expression that a value denotes translates it. -/
theorem translates_of_ofValueWithin (fuel : Nat) (params : List String)
    (outer : Option Location) (v : Value) (e : Expr)
    (compiled : Expr.ofValueWithin source fuel params outer v = .ok e) :
    Translates source params v e := by
  induction fuel generalizing params outer v e with
  | zero =>
    cases v with
    | symbol name =>
      cases compiled
      exact translates_ofSymbol name
    | pair r => cases compiled
    | _ =>
      cases compiled
      exact translates_constant fun _ => .datum rfl rfl
  | succ fuel ih =>
    cases v with
    | symbol name =>
      cases compiled
      exact translates_ofSymbol name
    | pair r =>
      unfold Expr.ofValueWithin at compiled
      simp only at compiled
      split at compiled
      · cases compiled
      · cases compiled
      next head operands found =>
        cases symbol : head.asSymbol? with
        | none =>
          rw [symbol] at compiled
          cases compiled
        | some name =>
          rw [symbol] at compiled
          rw [asSymbol?_eq_some symbol] at found
          cases kind : Expr.Head.ofName name with
          | defineMethod =>
            simp only [Option.map_some, kind] at compiled
            split at compiled
            · cases compiled
            next className selector inner body parts =>
              obtain ⟨es, inOrder, compiled⟩ := exists_of_bind_eq_ok compiled
              cases compiled
              obtain ⟨sign, rfl, signed⟩ := methodParts_spec parts
              obtain ⟨found', some_, different⟩ := signature_spec signed
              have keyword : name = "defmethod" := by
                have spec := ofName_spec name
                simpa [kind] using spec
              subst keyword
              exact translates_methodDefinition found found' some_ different
                (translatesInOrder_of_mapM (ih inner _) _ _ inOrder)
          | _ =>
            simp only [Option.map_some, kind] at compiled
            rw [← kind] at compiled
            exact translates_of_ofForm found (ih params _) (fun flaw e accepted => by cases accepted)
              compiled
    | _ =>
      cases compiled
      exact translates_constant fun _ => .datum rfl rfl

end Acceptance

/-- A value that compiles is an expression, and its code is added to the methods inside
it as one more method, without parameters. -/
theorem makes_of_compile {h h' : Heap} {v : Value} {location : Option Location} {name : String}
    {program : Ref .method} (compiled : h.compile v location name = .ok (h', program)) :
    ∃ form functions, Reads h h.methods.size v form functions ∧
      Makes h h' (functions ++ [⟨name, [], form⟩]) ∧
      program.index = h.methods.size + functions.length := by
  unfold Heap.compile at compiled
  split at compiled
  · cases compiled
  next e accepted =>
    split at compiled
    · cases compiled
    next assembled =>
      cases compiled
      obtain ⟨⟨h₁, a⟩, emitted, assembled⟩ := exists_of_bind_eq_ok assembled
      obtain ⟨m, finished, made⟩ := exists_of_bind_eq_ok assembled
      cases made
      obtain ⟨form, functions, reads, makes, emits⟩ :=
        translates_of_ofValueWithin _ _ _ _ _ accepted _ _ _ _ emitted
      have implements : Implements m ⟨name, [], form⟩ := implements_of_emits emits finished
      exact ⟨form, functions, reads, makes.append (.method h₁ implements), makes.size⟩

end MessageMachine
