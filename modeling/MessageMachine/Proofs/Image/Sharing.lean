/-
# Images that share an environment

Images can live in one heap and share a global environment, and then a program of one can
name the classes of another and define classes on them. But what a class keeps of its base is a
number, and the number is looked up in the table of the image in use. For a base out of
another table that number means nothing: it may be that of another class, of no class yet, or
of the very class that is being defined, which is then its own base and has no end of bases.

`Coexist` is how images come to be together, and `Hierarchy` is what is true of each all the
same. The base of a class is the class of the image's own table with the number of the
declared base. That is the declared base exactly if it belongs to the image; and chains and
lookups end as long as the declared base of every class has a lower number than the class.
-/

import MessageMachine.Machine.Primitive
import MessageMachine.Proofs.Image.Inheritance

namespace MessageMachine.Image

/-- An image among others, and the classes that were defined in it since it was made, each with the
base that it was given. -/
structure Resident where
  image : Image
  defined : List (Ref .classObject × Option (Ref .classObject))

/-- Images come to be in one heap, each with an environment of its own or that of an earlier one.
Classes are defined in them on any class of the heap, handlers are installed on any, and
whatever else happens leaves the classes alone. -/
inductive Coexist : Heap → List Resident → Prop
  | alone (h : Heap) : Coexist h []
  | create {h : Heap} {residents : List Resident} (shared : Option Environment) (bare : Bool) :
      (∀ e, shared = some e → ∃ r ∈ residents, r.image.globals = e) → Coexist h residents →
      Coexist (create h shared bare).1 (⟨(create h shared bare).2, []⟩ :: residents)
  | define {h : Heap} {before after : List Resident} {r : Resident} (name : String)
      (base : Option (Ref .classObject)) (tag : Tag) :
      (∀ b, base = some b → b.index < h.classes.size) → Coexist h (before ++ r :: after) →
      Coexist (r.image.defineClass h name base tag).1
        (before ++ ⟨(r.image.defineClass h name base tag).2.1,
          ((r.image.defineClass h name base tag).2.2, base) :: r.defined⟩ :: after)
  /-- A program defines a class. -/
  | subclass {m m' : Machine} {before after : List Resident} {r : Resident}
      {primitive name : String} {base c : Ref .classObject} :
      base.index < m.heap.classes.size → m.image = r.image →
      m.perform .subclass primitive [.classObject base, .symbol name] =
        (.reply (.classObject c), m') →
      Coexist m.heap (before ++ r :: after) →
      Coexist m'.heap (before ++ ⟨m'.image, (c, some base) :: r.defined⟩ :: after)
  | install {h : Heap} {residents : List Resident} (c : Ref .classObject) (selector : String)
      (callable : Callable) :
      Coexist h residents → Coexist (h.install c selector callable) residents
  | elsewhere {h h' : Heap} {residents : List Resident} :
      h'.classes = h.classes → Coexist h residents → Coexist h' residents

/-! ## Every image has a history -/

/-- What was done to the classes of an image includes all definitions since it was made, and
the bases of the others are its own. -/
structure Remembered (h : Heap) (r : Resident) (deeds : List Deed) : Prop where
  history : History h r.image deeds
  told : ∀ c base, (c, base) ∈ r.defined → .define c base ∈ deeds
  others : ∀ c b, .define c (some b) ∈ deeds → (c, some b) ∈ r.defined ∨ b ∈ r.image.classes

variable {h h' : Heap} {r : Resident} {deeds : List Deed} {residents : List Resident}

theorem Spares.of_addsClasses {image : Image} (adds : h.AddsClasses h')
    (held : ∀ c ∈ image.classes, c.index < h.classes.size) : Spares image h image h' where
  table := rfl
  same := fun c member => adds.same c (held c member)
  size := adds.size
  number := fun c inside => congrArg Class.number (adds.same c inside)

namespace Remembered

theorem aside (remembered : Remembered h r deeds) (spares : Spares r.image h r.image h') :
    Remembered h' r deeds :=
  ⟨.aside spares remembered.history, remembered.told, remembered.others⟩

theorem of_addsClasses (remembered : Remembered h r deeds) (adds : h.AddsClasses h') :
    Remembered h' r deeds :=
  remembered.aside (.of_addsClasses adds remembered.history.recorded.held)

theorem define (remembered : Remembered h r deeds) (name : String)
    (base : Option (Ref .classObject)) (tag : Tag)
    (known : ∀ b, base = some b → b.index < h.classes.size) :
    Remembered (r.image.defineClass h name base tag).1
      ⟨(r.image.defineClass h name base tag).2.1,
        ((r.image.defineClass h name base tag).2.2, base) :: r.defined⟩
      (.define (r.image.defineClass h name base tag).2.2 base :: deeds) where
  history := .define name base tag known remembered.history
  told := by
    intro c base' member
    rcases List.mem_cons.1 member with same | before
    · cases same
      exact List.mem_cons_self
    · exact List.mem_cons_of_mem _ (remembered.told c base' before)
  others := by
    intro c b member
    rcases List.mem_cons.1 member with same | before
    · cases same
      exact .inl List.mem_cons_self
    · rcases remembered.others c b before with listed | own
      · exact .inl (List.mem_cons_of_mem _ listed)
      · exact .inr (Array.mem_push.2 (.inl own))

/-- On whatever class a handler is installed, it is a deed of the image or leaves it alone. -/
theorem install (remembered : Remembered h r deeds) (c : Ref .classObject) (selector : String)
    (callable : Callable) :
    ∃ deeds', Remembered (h.install c selector callable) r deeds' := by
  by_cases own : c ∈ r.image.classes
  · refine ⟨_, .install selector callable own remembered.history, ?_, ?_⟩
    · exact fun k base member => List.mem_cons_of_mem _ (remembered.told k base member)
    · intro k b member
      rcases List.mem_cons.1 member with same | before
      · cases same
      · exact remembered.others k b before
  · refine ⟨deeds, remembered.aside ⟨rfl, ?_, ?_, ?_⟩⟩
    · intro k member
      rw [h.classAt_install, if_neg]
      rintro ⟨rfl, -⟩
      exact own member
    · exact Nat.le_of_eq (h.size_classes_install c selector callable).symm
    · exact fun k _ => h.number_install c selector callable k

end Remembered

/-- A class that a program defines is defined like any other. -/
theorem perform_subclass (m : Machine) (primitive name : String) (base : Ref .classObject) :
    m.perform .subclass primitive [.classObject base, .symbol name] =
      (.reply (.classObject (m.image.defineClass m.heap name (some base) .«instance»).2.2),
        { m with
          heap := (m.image.defineClass m.heap name (some base) .«instance»).1
          image := (m.image.defineClass m.heap name (some base) .«instance»).2.1 }) :=
  rfl

/-- A definition in one image leaves the others as they were. -/
theorem exists_remembered_define {before after : List Resident}
    (all : ∀ r' ∈ before ++ r :: after, ∃ deeds, Remembered h r' deeds) (name : String)
    (base : Option (Ref .classObject)) (tag : Tag)
    (known : ∀ b, base = some b → b.index < h.classes.size) :
    ∀ r' ∈ before ++ ⟨(r.image.defineClass h name base tag).2.1,
        ((r.image.defineClass h name base tag).2.2, base) :: r.defined⟩ :: after,
      ∃ deeds, Remembered (r.image.defineClass h name base tag).1 r' deeds := by
  have other {r' : Resident} (member : r' ∈ before ++ r :: after) :
      ∃ deeds, Remembered (r.image.defineClass h name base tag).1 r' deeds := by
    obtain ⟨deeds, remembered⟩ := all r' member
    exact ⟨deeds, remembered.of_addsClasses (addsClasses_defineClass ..)⟩
  intro r' member
  rcases List.mem_append.1 member with earlier | later
  · exact other (List.mem_append_left _ earlier)
  · rcases List.mem_cons.1 later with rfl | later
    · obtain ⟨deeds, remembered⟩ := all r (by simp)
      exact ⟨_, remembered.define name base tag known⟩
    · exact other (List.mem_append_right _ (List.mem_cons_of_mem _ later))

theorem Coexist.remembered (coexist : Coexist h residents) :
    ∀ r ∈ residents, ∃ deeds, Remembered h r deeds := by
  induction coexist with
  | alone h => exact fun r none_ => absurd none_ List.not_mem_nil
  | @create h residents shared bare _ _ ih =>
    have native := native_create h shared bare
    intro r member
    rcases List.mem_cons.1 member with rfl | before
    · obtain ⟨deeds, history, homebred⟩ := native.history
      exact ⟨deeds, history, nofun, fun c b told => .inr (homebred c b told)⟩
    · obtain ⟨deeds, remembered⟩ := ih r before
      exact ⟨deeds, remembered.of_addsClasses native.adds⟩
  | define name base tag known _ ih => exact exists_remembered_define ih name base tag known
  | @subclass m m' before after r primitive name base c held same performed _ ih =>
    rw [perform_subclass, same] at performed
    cases performed
    refine exists_remembered_define ih name (some base) .«instance» ?_
    rintro b ⟨⟩
    exact held
  | install c selector callable _ ih =>
    intro r member
    obtain ⟨deeds, remembered⟩ := ih r member
    exact remembered.install c selector callable
  | elsewhere classes _ ih =>
    intro r member
    obtain ⟨deeds, remembered⟩ := ih r member
    exact ⟨deeds, remembered.of_addsClasses (.of_classes classes)⟩

/-! ## Numbers that fall -/

/-- If the number of the declared base is always the lower one, every class has a base chain that
ends. -/
theorem Recorded.exists_lineage {image : Image} (recorded : Recorded h image deeds)
    (falls : ∀ c b, .define c (some b) ∈ deeds → (h.classAt b).number < (h.classAt c).number)
    {c : Ref .classObject} (member : c ∈ image.classes) : ∃ chain, Lineage image h c chain := by
  refine Image.exists_lineage (P := (· ∈ image.classes)) (fun c member => ?_) member
  obtain ⟨base, told⟩ := (recorded.defined c).1 member
  cases base with
  | none => exact .inl (recorded.base?_of_none told)
  | some b =>
    have lower := falls c b told
    have inside := Nat.lt_trans lower (recorded.number_lt member)
    have there := Array.getElem?_eq_getElem inside
    refine .inr ⟨_, by rw [recorded.base?_eq told, there], Array.getElem_mem inside, ?_⟩
    rw [recorded.numbered _ _ there]
    exact lower

/-! ## Hierarchies -/

/-- What the classes of an image derive from, whatever other images there are. -/
structure Hierarchy (h : Heap) (r : Resident) : Prop where
  /-- A class that was defined on none has no base. -/
  top : ∀ c, (c, none) ∈ r.defined → r.image.base? h c = .ok none
  /-- The base of a class is the class of the image's own table that has the number of the declared
  base; if there is none, looking for it fails. -/
  numbers : ∀ c b, (c, some b) ∈ r.defined →
    r.image.base? h c =
      match r.image.classes[(h.classAt b).number]? with
      | some found => .ok (some found)
      | none => .error (.outOfRange (.classNumber (.ofInt (h.classAt b).number)))
  /-- It is the declared base exactly if that belongs to the image. -/
  own_iff : ∀ c b, (c, some b) ∈ r.defined →
    (r.image.base? h c = .ok (some b) ↔ b ∈ r.image.classes)
  /-- A base that belongs to the image has the lower number. -/
  older : ∀ c b, (c, some b) ∈ r.defined → b ∈ r.image.classes →
    (h.classAt b).number < (h.classAt c).number
  /-- While all declared bases have lower numbers, the base chain of each class ends, and so does
  every lookup on it. -/
  ends : (∀ c b, (c, some b) ∈ r.defined → (h.classAt b).number < (h.classAt c).number) →
    ∀ c ∈ r.image.classes, ∃ chain, r.image.ancestry h c = .ok chain ∧
      ∀ selector, ∃ answer, r.image.handler? h c selector = .ok answer ∧
        ∀ limit, chain.length ≤ limit → r.image.search h selector limit c = .ok answer
  /-- A class with the number of its declared base is its own base. Its base chain is endless, and so
  is every lookup on it for which it has no handler itself. -/
  loops : ∀ c b, (c, some b) ∈ r.defined → (h.classAt b).number = (h.classAt c).number →
    r.image.base? h c = .ok (some c) ∧
      r.image.ancestry h c = .error .endlessBases ∧
      ∀ selector, h.ownHandler? c selector = none →
        r.image.handler? h c selector = .error .endlessBases
  /-- What is endless has no end, however many bases are climbed. -/
  endless : ∀ c limit,
    (r.image.ancestry h c = .error .endlessBases →
      r.image.chain h limit c = .error .endlessBases) ∧
    ∀ selector, r.image.handler? h c selector = .error .endlessBases →
      r.image.search h selector limit c = .error .endlessBases

theorem hierarchy_of_coexist (coexist : Coexist h residents) (member : r ∈ residents) :
    Hierarchy h r := by
  obtain ⟨deeds, history, told, others⟩ := coexist.remembered r member
  have recorded := history.recorded
  constructor
  case top => exact fun c listed => recorded.base?_of_none (told c _ listed)
  case numbers => exact fun c b listed => recorded.base?_eq (told c _ listed)
  case own_iff => exact fun c b listed => recorded.base?_eq_ok_iff (told c _ listed)
  case older => exact fun c b listed own => recorded.older c b (told c _ listed) own
  case ends =>
    intro falls c inside
    have all : ∀ c b, .define c (some b) ∈ deeds →
        (h.classAt b).number < (h.classAt c).number := by
      intro c b defined
      rcases others c b defined with listed | own
      · exact falls c b listed
      · exact recorded.older c b defined own
    obtain ⟨chain, lineage⟩ := recorded.exists_lineage all inside
    refine ⟨chain, ancestry_eq_ok_iff.2 lineage, fun selector => ?_⟩
    exact ⟨_, lineage.handler?_eq selector, fun limit le => lineage.search_eq selector le⟩
  case loops =>
    intro c b listed same
    have self : r.image.base? h c = .ok (some c) := by
      rw [recorded.base?_eq (told c _ listed), same,
        recorded.getElem?_number (recorded.mem_of_define (told c _ listed))]
    exact ⟨self, ancestry_of_base?_self self, fun selector none_ =>
      handler?_of_base?_self self none_⟩
  case endless =>
    exact fun c limit => ⟨fun found => chain_endless found limit, fun selector found =>
      search_endless found limit⟩

/-- A class of one image is the declared base of a class of another, which has one class fewer. -/
theorem hierarchy_foreign :
    let one := create .empty none true
    let a := one.2.defineClass one.1 "A" (some one.2.root) .«instance»
    let two := create a.1 (some a.2.1.globals) true
    let k := two.2.defineClass two.1 "K" (some a.2.2) .«instance»
    Hierarchy k.1 ⟨k.2.1, [(k.2.2, some a.2.2)]⟩ := by
  intro one
  have native : Native .empty one.1 one.2 := native_create _ _ _
  have alone : Coexist one.1 ([] ++ [⟨one.2, []⟩]) := .create none true nofun (.alone .empty)
  clear_value one
  intro a two k
  obtain ⟨deeds, history, -⟩ := native.history
  have object : one.2.root.index < one.1.classes.size := history.recorded.held _ native.root
  have grown := one.2.size_classes_defineClass one.1 "A" (some one.2.root) .«instance»
  have named : a.2.2.index < two.1.classes.size :=
    Nat.lt_of_lt_of_le (Nat.lt_of_lt_of_eq (Nat.lt_succ_self _) grown.symm)
      (native_create a.1 (some a.2.1.globals) true).adds.size
  have first := Coexist.define "A" (some one.2.root) .«instance»
    (fun b is_ => Option.some.inj is_ ▸ object) alone
  have second : Coexist two.1 ([] ++ ⟨two.2, []⟩ :: _) := .create (some a.2.1.globals) true
    (fun e is_ => ⟨_, List.mem_cons_self, Option.some.inj is_⟩) first
  have third := Coexist.define "K" (some a.2.2) .«instance»
    (fun b is_ => Option.some.inj is_ ▸ named) second
  exact hierarchy_of_coexist third List.mem_cons_self

/-- The class that is named `A` in the shared environment is not the base of what is defined on it
by an image with as many classes as the one it belongs to had before: `K` is its own base. With one
class more in that image, `X`, that one is the base. -/
theorem base?_ne_declared :
    (let one := create .empty none true
      let a := one.2.defineClass one.1 "A" (some one.2.root) .«instance»
      let two := create a.1 (some a.2.1.globals) true
      let k := two.2.defineClass two.1 "K" (some a.2.2) .«instance»
      two.2.globals.lookup? two.1 "A" = some (.classObject a.2.2) ∧
        k.2.1.base? k.1 k.2.2 = .ok (some k.2.2) ∧ k.2.2 ≠ a.2.2 ∧
        k.2.1.ancestry k.1 k.2.2 = .error .endlessBases ∧
        k.2.1.handler? k.1 k.2.2 "m" = .error .endlessBases) ∧
    (let one := create .empty none true
      let a := one.2.defineClass one.1 "A" (some one.2.root) .«instance»
      let two := create a.1 (some a.2.1.globals) true
      let x := two.2.defineClass two.1 "X" (some two.2.root) .«instance»
      let k := x.2.1.defineClass x.1 "K" (some a.2.2) .«instance»
      x.2.1.globals.lookup? x.1 "A" = some (.classObject a.2.2) ∧
        k.2.1.base? k.1 k.2.2 = .ok (some x.2.2) ∧ x.2.2 ≠ a.2.2) := by
  decide +kernel

end MessageMachine.Image
