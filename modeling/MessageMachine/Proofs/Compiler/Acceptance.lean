/-
# What the compiler accepts

A value is accepted exactly if it is well-formed, and `Heap.WellFormed` says what that is with
no word about the compiler. `Expr.Checks` is what a part of the compiler may answer: a result
with some property, or what is wrong with a form. For an acyclic value that is never that it
has no end, since forms are nested no deeper than pairs are.

What is accepted is scoped, and so it has code, and all of its methods are straight.
-/

import Mathlib.Data.List.Forall2
import MessageMachine.Proofs.Compiler.Emission
import MessageMachine.Proofs.Heap.Acyclic

namespace MessageMachine

/-! ## Well-formed values -/

/-- Everything in the value that would be evaluated is an atom or a proper list that begins
with a symbol and is what that symbol asks for. What is quoted may be anything. -/
inductive Heap.WellFormed (h : Heap) : Value → Prop
  | atom {v : Value} : v.asPair? = none → WellFormed h v
  | quote {v datum : Value} : h.ListOf v [.symbol "quote", datum] → WellFormed h v
  | conditional {v : Value} {parts : List Value} : h.ListOf v (.symbol "if" :: parts) →
      parts.length = 2 ∨ parts.length = 3 → (∀ x ∈ parts, WellFormed h x) → WellFormed h v
  | sequence {v : Value} {body : List Value} : h.ListOf v (.symbol "begin" :: body) →
      (∀ x ∈ body, WellFormed h x) → WellFormed h v
  | define {v value : Value} {name : String} :
      h.ListOf v [.symbol "define", .symbol name, value] → WellFormed h value → WellFormed h v
  | computed {v : Value} {parts : List Value} : h.ListOf v (.symbol "send" :: parts) →
      2 ≤ parts.length → (∀ x ∈ parts, WellFormed h x) → WellFormed h v
  | defineClass {v : Value} {names : List String} :
      h.ListOf v (.symbol "defclass" :: names.map .symbol) →
      names.length = 1 ∨ names.length = 2 → WellFormed h v
  | defineMethod {v sign : Value} {className selector : String} {params : List String}
      {body : List Value} :
      h.ListOf v (.symbol "defmethod" :: .symbol className :: sign :: body) →
      h.ListOf sign (.symbol selector :: params.map .symbol) → params ≠ [] → params.Nodup →
      (∀ x ∈ body, WellFormed h x) → WellFormed h v
  | message {v : Value} {selector : String} {operands : List Value} :
      h.ListOf v (.symbol selector :: operands) → selector ∉ Form.keywords →
      (∀ x ∈ operands, WellFormed h x) → WellFormed h v

namespace Expr

/-! ## Checks -/

/-- A result has a property, or a form has a flaw. -/
def Checks {α : Type} (good : α → Prop) : Except Error α → Prop
  | .ok a => good a
  | .error e => e.flaw ≠ .endless

namespace Checks

variable {α β : Type} {good : α → Prop} {good' : β → Prop} {x : Except Error α}

theorem bind {f : α → Except Error β} (first : Checks good x)
    (second : ∀ a, good a → Checks good' (f a)) : Checks good' (x >>= f) := by
  cases x with
  | ok a => exact second a first
  | error e => exact first

/-- Results are checked one after the other. -/
theorem mapM {compile : Value → Except Error Expr} {good : Value → Expr → Prop} {vs : List Value}
    (each : ∀ v ∈ vs, Checks (good v) (compile v)) :
    Checks (List.Forall₂ good vs) (vs.mapM compile) := by
  induction vs with
  | nil => exact .nil
  | cons v rest ih =>
    rw [List.mapM_cons]
    refine (each v List.mem_cons_self).bind fun e first => ?_
    refine (ih fun w member => each w (List.mem_cons_of_mem v member)).bind fun es others => ?_
    exact .cons first others

end Checks

theorem exists_mapM {compile : Value → Except Error Expr} {vs : List Value}
    (each : ∀ v ∈ vs, ∃ e, compile v = .ok e) : ∃ es, vs.mapM compile = .ok es := by
  induction vs with
  | nil => exact ⟨[], rfl⟩
  | cons v rest ih =>
    obtain ⟨e, first⟩ := each v List.mem_cons_self
    obtain ⟨es, others⟩ := ih fun w member => each w (List.mem_cons_of_mem v member)
    rw [List.mapM_cons]
    exact ⟨e :: es, bind_eq_ok first (bind_eq_ok others rfl)⟩

/-! ## Scopes -/

variable {h : Heap} {argCount : Nat}

/-- The value is well-formed, and the expression is scoped. -/
def Accepts (h : Heap) (argCount : Nat) (v : Value) (e : Expr) : Prop :=
  h.WellFormed v ∧ e.Scoped argCount

theorem wellFormed_of_forall₂ {vs : List Value} {es : List Expr}
    (all : List.Forall₂ (Accepts h argCount) vs es) : ∀ v ∈ vs, h.WellFormed v := by
  induction all with
  | nil => exact fun v member => absurd member List.not_mem_nil
  | cons first _ ih => exact List.forall_mem_cons.2 ⟨first.1, ih⟩

theorem scopedAll_of_forall₂ {vs : List Value} {es : List Expr}
    (all : List.Forall₂ (Accepts h argCount) vs es) : ScopedAll argCount es := by
  induction all with
  | nil => trivial
  | cons first _ ih => exact ⟨first.2, ih⟩

theorem scoped_inSequence {es : List Expr} (all : ScopedAll argCount es) :
    (inSequence es).Scoped argCount := by
  match es with
  | [] => trivial
  | [e] => exact all.1
  | e :: next :: rest =>
    rw [inSequence_cons_cons]
    exact ⟨all.1, scoped_inSequence all.2⟩

theorem scoped_ofSymbol (params : List String) (name : String) :
    (ofSymbol params name).Scoped params.length := by
  unfold ofSymbol
  split
  next index found => exact (List.idxOf?_eq_some_iff.1 found).1
  next => trivial

/-- A list that begins with a symbol is a combination. -/
theorem exists_combination {v : Value} {name : String} {operands : List Value}
    {bound fuel : Nat} (listed : h.ListOf v (.symbol name :: operands))
    (within : h.Within bound v) (covered : bound ≤ fuel) (small : bound ≤ h.pairs.size) :
    ∃ r less rest, v = .pair r ∧ fuel = rest + 1 ∧ less ≤ rest ∧ less ≤ h.pairs.size ∧
      h.elements? (.pair r) = some (.symbol name :: operands) ∧ ∀ x ∈ operands, h.Within less x := by
  have found := (Heap.elements?_eq_some_iff (within.mono small)).2 listed
  have inner (less : Nat) (within : h.Within (less + 1) v) : ∀ x ∈ operands, h.Within less x :=
    fun x member => listed.within within x (List.mem_cons_of_mem _ member)
  cases within with
  | atom apart =>
    have some_ : Value.symbol name :: operands ≠ [] := List.cons_ne_nil _ _
    generalize Value.symbol name :: operands = elements at listed some_
    cases listed with
    | nil => exact absurd rfl some_
    | cons _ _ => cases apart
  | @pair less r cell held head tail =>
    obtain ⟨more, rfl⟩ := Nat.exists_eq_add_of_lt covered
    exact ⟨r, less, less + more, rfl, rfl, Nat.le_add_right _ _, less.le_succ.trans small, found,
      inner less (.pair held head tail)⟩

/-! ## Only well-formed values are accepted -/

/-- A combination that is not a method definition, when its operands are checked. -/
theorem checks_ofForm {v : Value} {name : String} {operands : List Value}
    {compile : Value → Except Error Expr} {location : Option Location}
    (listed : h.ListOf v (.symbol name :: operands)) (other : name ≠ "defmethod")
    (each : ∀ x ∈ operands, Checks (Accepts h argCount x) (compile x)) :
    Checks (Accepts h argCount v) (ofForm (.ofName name) operands compile
      fun flaw => .error ⟨flaw, location⟩) := by
  rcases ofName_spec name with ⟨plain, head⟩ | ⟨rfl, head⟩ | ⟨rfl, head⟩ | ⟨rfl, head⟩ |
    ⟨rfl, head⟩ | ⟨rfl, head⟩ | ⟨rfl, head⟩ | ⟨rfl, head⟩
  all_goals rw [head]
  · have all := Checks.mapM each
    cases operands with
    | nil =>
      exact ⟨.message listed plain fun x member => absurd member List.not_mem_nil,
        List.cons_ne_nil _ _, trivial, trivial⟩
    | cons x rest =>
      refine all.bind fun es all => ⟨.message listed plain (wellFormed_of_forall₂ all), ?_,
        scopedAll_of_forall₂ all⟩
      rintro rfl
      cases all
  · match operands with
    | [datum] => exact ⟨.quote listed, trivial⟩
    | [] | _ :: _ :: _ => exact Flaw.noConfusion
  · match operands with
    | [test, yes] =>
      obtain ⟨tests, takes, -⟩ := List.forall_mem_cons.1 each |>.imp_right List.forall_mem_cons.1
      refine tests.bind fun et tested => takes.bind fun ey taken => ⟨?_, tested.2, taken.2, trivial⟩
      refine .conditional listed (.inl rfl) ?_
      simp [tested.1, taken.1]
    | [test, yes, no] =>
      have tests := each test (by simp)
      have takes := each yes (by simp)
      have skips := each no (by simp)
      refine tests.bind fun et tested => takes.bind fun ey taken => skips.bind fun en skipped =>
        ⟨?_, tested.2, taken.2, skipped.2⟩
      refine .conditional listed (.inr rfl) ?_
      simp [tested.1, taken.1, skipped.1]
    | [] | [_] | _ :: _ :: _ :: _ :: _ => exact Flaw.noConfusion
  · exact (Checks.mapM each).bind fun es all => ⟨.sequence listed (wellFormed_of_forall₂ all),
      scoped_inSequence (scopedAll_of_forall₂ all)⟩
  · match operands with
    | [defined, value] =>
      cases defined with
      | symbol name =>
        exact (each value (by simp)).bind fun e good => ⟨.define listed good.1, good.2⟩
      | _ => exact Flaw.noConfusion
    | [] => exact Flaw.noConfusion
    | [x] | x :: _ :: _ :: _ => cases x <;> exact Flaw.noConfusion
  · match operands with
    | receiver :: selector :: args =>
      have receives := each receiver (by simp)
      have selects := each selector (by simp)
      have others := Checks.mapM fun x (member : x ∈ args) => each x (by simp [member])
      refine receives.bind fun er received => others.bind fun eas all => selects.bind
        fun es selected => ⟨?_, received.2, scopedAll_of_forall₂ all, selected.2⟩
      refine .computed listed (Nat.le_add_left 2 _) ?_
      exact List.forall_mem_cons.2
        ⟨received.1, List.forall_mem_cons.2 ⟨selected.1, wellFormed_of_forall₂ all⟩⟩
    | [] | [_] => exact Flaw.noConfusion
  · have definition (name base : String) : (classDefinition name base).Scoped argCount :=
      ⟨List.cons_ne_nil _ _, trivial, trivial, trivial⟩
    match operands with
    | [defined] =>
      cases defined with
      | symbol name => exact ⟨@Heap.WellFormed.defineClass h v [name] listed (.inl rfl), definition _ _⟩
      | _ => exact Flaw.noConfusion
    | [defined, base] =>
      cases defined with
      | symbol name =>
        cases base with
        | symbol base =>
          exact ⟨@Heap.WellFormed.defineClass h v [name, base] listed (.inr rfl), definition _ _⟩
        | _ => exact Flaw.noConfusion
      | _ => exact Flaw.noConfusion
    | [] => exact Flaw.noConfusion
    | x :: y :: _ :: _ => cases x <;> cases y <;> exact Flaw.noConfusion
  · exact absurd rfl other

/-! ### Method definitions -/

theorem parameterNames_ne_endless (seen : List String) (vs : List Value) :
    parameterNames seen vs ≠ .error .endless := by
  fun_induction parameterNames seen vs with
  | case1 seen => exact nofun
  | case2 seen name rest present => exact nofun
  | case3 seen name rest fresh ih => exact ih
  | case4 seen v rest other => exact nofun

theorem methodParts_ne_endless (h : Heap) (operands : List Value) :
    methodParts h operands ≠ .error .endless := by
  unfold methodParts signature
  split
  · split
    · exact nofun
    · split
      · split
        next receiver others _ _ name _ =>
          have named := parameterNames_ne_endless [] (receiver :: others)
          cases found : parameterNames [] (receiver :: others) with
          | ok params => exact nofun
          | error flaw =>
            rw [found] at named
            rintro ⟨⟩
            exact named rfl
        · exact nofun
      · exact nofun
  · exact nofun

/-- A method has no more parameters than there are pairs. -/
theorem accepts_methodDefinition {v sign : Value} {className selector : String}
    {params : List String} {body : List Value} {es : List Expr} {location : Option Location}
    (few : h.pairs.size ≤ Binary64.largestExact) (within : h.Within h.pairs.size sign)
    (listed : h.ListOf v (.symbol "defmethod" :: .symbol className :: sign :: body))
    (signed : signature h sign = .ok (selector, params))
    (all : List.Forall₂ (Accepts h params.length) body es) :
    Accepts h argCount v
      (methodDefinition className selector params.length (inSequence es) location) := by
  obtain ⟨found, some_, different⟩ := signature_spec signed
  have signs := (Heap.elements?_eq_some_iff within).1 found
  have count := signs.length_le within
  rw [List.length_cons, List.length_map] at count
  refine ⟨.defineMethod listed signs some_ different (wellFormed_of_forall₂ all),
    List.cons_ne_nil _ _, trivial, trivial, ?_, trivial⟩
  exact ⟨by omega, scoped_inSequence (scopedAll_of_forall₂ all)⟩

/-- What an acyclic value is compiled to is scoped, and the value is well-formed. -/
theorem checks_ofValueWithin (few : h.pairs.size ≤ Binary64.largestExact) {bound fuel : Nat}
    (params : List String) (outer : Option Location) {v : Value} (within : h.Within bound v)
    (covered : bound ≤ fuel) (small : bound ≤ h.pairs.size) :
    Checks (Accepts h params.length v) (ofValueWithin h fuel params outer v) := by
  induction fuel generalizing bound params outer v with
  | zero =>
    obtain rfl := Nat.le_zero.1 covered
    cases within with
    | atom apart =>
      cases v with
      | symbol name => exact ⟨.atom rfl, scoped_ofSymbol params name⟩
      | pair r => cases apart
      | _ => exact ⟨.atom rfl, trivial⟩
  | succ fuel ih =>
    cases v with
    | symbol name => exact ⟨.atom rfl, scoped_ofSymbol params name⟩
    | pair r =>
      unfold ofValueWithin
      simp only
      split
      · exact Flaw.noConfusion
      · exact Flaw.noConfusion
      next head operands found =>
        cases symbol : head.asSymbol? with
        | none => exact Flaw.noConfusion
        | some name =>
          rw [asSymbol?_eq_some symbol] at found
          have listed := (Heap.elements?_eq_some_iff (within.mono small)).1 found
          obtain ⟨_, less, _, -, ⟨⟩, covered, small, -, inner⟩ :=
            exists_combination listed within covered small
          cases kind : Head.ofName name with
          | defineMethod =>
            obtain rfl : name = "defmethod" := by
              have spec := ofName_spec name
              simpa [kind] using spec
            simp only [Option.map_some, kind]
            split
            next flaw parts =>
              rintro rfl
              exact methodParts_ne_endless h operands parts
            next className selector params' body parts =>
              obtain ⟨sign, rfl, signed⟩ := methodParts_spec parts
              refine (Checks.mapM fun x member =>
                ih params' _ (inner x (by simp [member])) covered small).bind fun es all => ?_
              have signs := (inner sign (by simp)).mono small
              exact accepts_methodDefinition few signs listed signed all
          | _ =>
            simp only [Option.map_some, kind]
            rw [← kind]
            refine checks_ofForm listed ?_ fun x member =>
              ih params _ (inner x member) covered small
            rintro rfl
            cases kind
    | _ => exact ⟨.atom rfl, trivial⟩

/-! ## All of them are -/

theorem parameterNames_map_symbol {seen names : List String} (different : (seen ++ names).Nodup) :
    parameterNames seen (names.map .symbol) = .ok (seen ++ names) := by
  induction names generalizing seen with
  | nil => simp [parameterNames]
  | cons name rest ih =>
    have fresh : seen.contains name = false := by
      have apart := List.nodup_append.1 different
      simpa using fun member => apart.2.2 name member name List.mem_cons_self rfl
    rw [List.map_cons, parameterNames, fresh]
    rw [List.append_cons] at different ⊢
    simpa using ih different

theorem signature_eq_ok {sign : Value} {selector : String} {params : List String}
    (found : h.elements? sign = some (.symbol selector :: params.map .symbol))
    (some_ : params ≠ []) (different : params.Nodup) :
    signature h sign = .ok (selector, params) := by
  obtain ⟨receiver, others, rfl⟩ := List.exists_cons_of_ne_nil some_
  have named := parameterNames_map_symbol (show ([] ++ receiver :: others).Nodup from different)
  rw [List.map_cons] at named found
  rw [signature, found]
  simp only [Value.asSymbol?]
  rw [named]
  rfl

/-- What a combination denotes that is not a method definition. -/
theorem ofValueWithin_combination {r : Ref .pair} {name : String} {operands : List Value}
    (found : h.elements? (.pair r) = some (.symbol name :: operands)) (other : name ≠ "defmethod")
    (fuel : Nat) (params : List String) (outer : Option Location) :
    ofValueWithin h (fuel + 1) params outer (.pair r) =
      ofForm (.ofName name) operands
        (ofValueWithin h fuel params ((h.pair r).source.or outer))
        fun flaw => .error ⟨flaw, (h.pair r).source.or outer⟩ := by
  rw [ofValueWithin]
  simp only [found, Value.asSymbol?, Option.map_some]
  rcases ofName_spec name with ⟨-, head⟩ | ⟨-, head⟩ | ⟨-, head⟩ | ⟨-, head⟩ | ⟨-, head⟩ |
    ⟨-, head⟩ | ⟨-, head⟩ | ⟨rfl, head⟩
  all_goals try rw [head]
  exact absurd rfl other

/-- A well-formed value denotes an expression, if the fuel covers its depth. -/
theorem exists_ofValueWithin {v : Value} (wellFormed : h.WellFormed v) {bound fuel : Nat}
    (params : List String) (outer : Option Location) (within : h.Within bound v)
    (covered : bound ≤ fuel) (small : bound ≤ h.pairs.size) :
    ∃ e, ofValueWithin h fuel params outer v = .ok e := by
  induction wellFormed generalizing bound fuel params outer with
  | @atom v apart =>
    cases v with
    | pair r => cases apart
    | _ => cases fuel <;> exact ⟨_, rfl⟩
  | quote listed =>
    obtain ⟨r, less, fuel, rfl, rfl, covered, small, found, -⟩ :=
      exists_combination listed within covered small
    exact ⟨_, ofValueWithin_combination found (by decide) fuel params outer⟩
  | @conditional v parts listed count _ ih =>
    obtain ⟨r, less, fuel, rfl, rfl, covered, small, found, inner⟩ :=
      exists_combination listed within covered small
    rw [ofValueWithin_combination found (by decide)]
    have each x (member : x ∈ parts) := ih x member params ((h.pair r).source.or outer)
      (inner x member) covered small
    match parts, count with
    | [test, yes], _ =>
      obtain ⟨et, tested⟩ := each test (by simp)
      obtain ⟨ey, taken⟩ := each yes (by simp)
      exact ⟨_, bind_eq_ok tested (bind_eq_ok taken rfl)⟩
    | [test, yes, no], _ =>
      obtain ⟨et, tested⟩ := each test (by simp)
      obtain ⟨ey, taken⟩ := each yes (by simp)
      obtain ⟨en, skipped⟩ := each no (by simp)
      exact ⟨_, bind_eq_ok tested (bind_eq_ok taken (bind_eq_ok skipped rfl))⟩
  | sequence listed _ ih =>
    obtain ⟨r, less, fuel, rfl, rfl, covered, small, found, inner⟩ :=
      exists_combination listed within covered small
    rw [ofValueWithin_combination found (by decide)]
    obtain ⟨es, all⟩ := exists_mapM fun x member => ih x member params
      ((h.pair r).source.or outer) (inner x member) covered small
    exact ⟨_, bind_eq_ok all rfl⟩
  | define listed _ ih =>
    obtain ⟨r, less, fuel, rfl, rfl, covered, small, found, inner⟩ :=
      exists_combination listed within covered small
    rw [ofValueWithin_combination found (by decide)]
    obtain ⟨e, value⟩ := ih params ((h.pair r).source.or outer) (inner _ (by simp)) covered small
    exact ⟨_, bind_eq_ok value rfl⟩
  | @computed v parts listed count _ ih =>
    obtain ⟨r, less, fuel, rfl, rfl, covered, small, found, inner⟩ :=
      exists_combination listed within covered small
    rw [ofValueWithin_combination found (by decide)]
    have each x (member : x ∈ parts) := ih x member params ((h.pair r).source.or outer)
      (inner x member) covered small
    match parts, count with
    | receiver :: selector :: args, _ =>
      obtain ⟨er, received⟩ := each receiver (by simp)
      obtain ⟨es, selected⟩ := each selector (by simp)
      obtain ⟨eas, others⟩ := exists_mapM fun x (member : x ∈ args) => each x (by simp [member])
      exact ⟨_, bind_eq_ok received (bind_eq_ok others (bind_eq_ok selected rfl))⟩
  | @defineClass v names listed count =>
    obtain ⟨r, less, fuel, rfl, rfl, covered, small, found, -⟩ :=
      exists_combination listed within covered small
    rw [ofValueWithin_combination found (by decide)]
    match names, count with
    | [name], _ => exact ⟨_, rfl⟩
    | [name, base], _ => exact ⟨_, rfl⟩
  | @defineMethod v sign className selector names body listed signs some_ different _ ih =>
    obtain ⟨r, less, fuel, rfl, rfl, covered, small, found, inner⟩ :=
      exists_combination listed within covered small
    have found' := (Heap.elements?_eq_some_iff ((inner sign (by simp)).mono small)).2 signs
    have parts : methodParts h (.symbol className :: sign :: body) =
        .ok (className, selector, names, body) := by
      rw [methodParts]
      simp only [Value.asSymbol?]
      rw [signature_eq_ok found' some_ different]
      rfl
    obtain ⟨es, all⟩ := exists_mapM fun x member => ih x member names
      ((h.pair r).source.or outer) (inner x (by simp [member])) covered small
    rw [ofValueWithin]
    simp only [found, Value.asSymbol?, Option.map_some, Head.ofName, parts]
    exact ⟨_, bind_eq_ok all rfl⟩
  | @message v selector operands listed plain _ ih =>
    obtain ⟨r, less, fuel, rfl, rfl, covered, small, found, inner⟩ :=
      exists_combination listed within covered small
    have head : Head.ofName selector = .selector selector := by
      have spec := ofName_spec selector
      simp only [Form.keywords] at plain spec
      grind
    rw [ofValueWithin_combination found (by rintro rfl; exact plain (by decide)), head]
    cases operands with
    | nil => exact ⟨_, rfl⟩
    | cons x rest =>
      obtain ⟨es, all⟩ := exists_mapM fun x member => ih x member params
        ((h.pair r).source.or outer) (inner x member) covered small
      exact ⟨_, bind_eq_ok all rfl⟩

end Expr

/-! ## Compilation -/

namespace Heap

variable {h : Heap} {v : Value} {location : Option Location} {name : String}

/-- The code of the program and of each method in it has fewer than `2 ^ 31` bytes. -/
def ShortCode (h : Heap) (v : Value) (location : Option Location) (name : String) : Prop :=
  ∀ e, Expr.ofValue h location v = .ok e →
    (Expr.method name 0 e location).Short h (.create name 0 location)

/-- The compiler decides whether a value is well-formed. -/
structure Decides (h : Heap) (v : Value) (location : Option Location) (name : String) :
    Prop where
  /-- It makes a program, or it finds a flaw in a form. -/
  outcome : (∃ compiled, h.compile v location name = .ok compiled) ∨
    ∃ e, h.compile v location name = .error (.rejected e) ∧ e.flaw ≠ .endless
  accepts : (∃ compiled, h.compile v location name = .ok compiled) ↔ h.WellFormed v
  /-- Nothing but methods is added, which are all straight. The last one is the program. -/
  makes : ∀ h' program, h.compile v location name = .ok (h', program) →
    h.AddsStraight h' ∧ h.methods.size ≤ program.index ∧ h'.methods.size = program.index + 1

/-- A scoped expression with short code has a program. -/
theorem exists_program {e : Expr} (within : e.Scoped 0)
    (short : (Expr.method name 0 e location).Short h (.create name 0 location)) :
    ∃ h' program, e.program h name location = .ok (h', program) ∧ h.AddsStraight h' ∧
      h.methods.size ≤ program.index ∧ h'.methods.size = program.index + 1 := by
  obtain ⟨h₁, a, emitted, whole⟩ := e.exists_emit within short.1
  obtain ⟨m, finished, straight⟩ := whole.exists_finish (Nat.zero_le _) (short.2 h₁ a emitted)
  exact ⟨_, _, bind_eq_ok emitted (bind_eq_ok finished rfl),
    whole.methods.trans (.method h₁ straight), whole.methods.size, Array.size_push _⟩

/-- The compiler accepts exactly the well-formed values among those that are acyclic and
have short code, and every method that it makes runs straight to its return.

Parameters that are not used leave no trace in the code, however many there are, and they are
counted by a number. `few` says that it counts them exactly, and there is no heap for which it
fails: `2 ^ 53` pairs of two fields each take more memory than any address reaches. -/
theorem decides_of_acyclic (acyclic : h.Acyclic v) (few : h.pairs.size ≤ Binary64.largestExact)
    (short : h.ShortCode v location name) : h.Decides v location name := by
  have checks := Expr.checks_ofValueWithin few [] location acyclic.within (Nat.le_succ _) le_rfl
  have accepted (wellFormed : h.WellFormed v) :=
    Expr.exists_ofValueWithin wellFormed [] location acyclic.within (Nat.le_succ _) le_rfl
  cases found : Expr.ofValue h location v with
  | error e =>
    have compiled : h.compile v location name = .error (.rejected e) := by
      rw [compile, found]
    rw [show Expr.ofValueWithin _ _ _ _ _ = _ from found] at checks accepted
    refine ⟨.inr ⟨e, compiled, checks⟩, ?_, ?_⟩
    · rw [compiled]
      exact iff_of_false nofun fun wellFormed => by cases (accepted wellFormed).choose_spec
    · rw [compiled]
      exact nofun
  | ok e =>
    rw [show Expr.ofValueWithin _ _ _ _ _ = _ from found] at checks
    obtain ⟨h', program, assembled, makes⟩ := exists_program checks.2 (short e found)
    have compiled : h.compile v location name = .ok (h', program) := by
      rw [compile, found]
      simp only [assembled]
    refine ⟨.inl ⟨_, compiled⟩, iff_of_true ⟨_, compiled⟩ checks.1, fun h'' program' again => ?_⟩
    cases compiled.symm.trans again
    exact makes

/-- The data of `(defmethod C (m self) self)`, a method that answers its receiver. -/
def selfMethod : Heap :=
  { empty with
    pairs := #[⟨.symbol "defmethod", .pair ⟨1⟩, none⟩, ⟨.symbol "C", .pair ⟨2⟩, none⟩,
      ⟨.pair ⟨4⟩, .pair ⟨3⟩, none⟩, ⟨.symbol "self", .nil, none⟩,
      ⟨.symbol "m", .pair ⟨5⟩, none⟩, ⟨.symbol "self", .nil, none⟩] }

theorem decides_selfMethod : selfMethod.Acyclic (.pair ⟨0⟩) ∧
    selfMethod.pairs.size ≤ Binary64.largestExact ∧
    selfMethod.ShortCode (.pair ⟨0⟩) none programName ∧
    selfMethod.Decides (.pair ⟨0⟩) none programName := by
  have body : selfMethod.Acyclic (.pair ⟨3⟩) := .pair rfl (.atom rfl) (.atom rfl)
  have sign : selfMethod.Acyclic (.pair ⟨4⟩) :=
    .pair rfl (.atom rfl) (.pair rfl (.atom rfl) (.atom rfl))
  have acyclic : selfMethod.Acyclic (.pair ⟨0⟩) :=
    .pair rfl (.atom rfl) (.pair rfl (.atom rfl) (.pair rfl sign body))
  have few : selfMethod.pairs.size ≤ Binary64.largestExact := by decide
  have short : selfMethod.ShortCode (.pair ⟨0⟩) none programName := by
    intro e accepted
    have denotes : Expr.ofValue selfMethod none (.pair ⟨0⟩) =
      .ok (Expr.methodDefinition "C" "m" 1 (.argument 0) none) := rfl
    cases denotes.symm.trans accepted
    refine ⟨⟨trivial, fun _ _ looked => ⟨trivial, fun _ _ named => ⟨⟨trivial, ?_⟩, ?_⟩⟩⟩, ?_⟩
    · rintro _ _ ⟨⟩
      decide +kernel
    · exact fun _ _ _ => trivial
    · intro h a emitted
      have small : ∀ made ∈ ((Expr.methodDefinition "C" "m" 1 (.argument 0) none).emit selfMethod
          (.create programName 0 none)).toOption,
          Assembler.total (made.2.emit .leave).sizes < 2 ^ 31 := by
        decide +kernel
      exact small (h, a) (congrArg Except.toOption emitted)
  exact ⟨acyclic, few, short, decides_of_acyclic acyclic few short⟩

end Heap

end MessageMachine
