/-
# Histories of an image

The classes of an image come into being one after the other, and each keeps every handler that
is installed on it. A `History` of an image lists what was done to its classes, the latest first.
Between two of these deeds anything may happen that leaves the classes of the image alone; that
other images define classes in the same heap is of this kind.

A class names its base by a number, and that number is written down once. So the table and the
classes in it must be read against the history: `Recorded` says that they hold nothing but
what it tells, and that they hold all of it. It does not say that the number of a base leads back to
the base, which is only so for a base out of the same table.
-/

import MessageMachine.Proofs.Image.Class

namespace MessageMachine.Image

/-- What can be done to the classes of an image. -/
inductive Deed
  /-- A class is defined, with a base or without. -/
  | define (c : Ref .classObject) (base : Option (Ref .classObject))
  /-- A handler is installed on a class. -/
  | install (c : Ref .classObject) (selector : String) (callable : Callable)

/-- The handler that a deed installs on a class for a selector. -/
def Deed.installs? (c : Ref .classObject) (selector : String) : Deed → Option Callable
  | .define _ _ => none
  | .install d other callable => if d = c ∧ other = selector then some callable else none

/-- The handlers that were installed on a class for a selector, the latest first. -/
def installed (deeds : List Deed) (c : Ref .classObject) (selector : String) : List Callable :=
  deeds.filterMap (Deed.installs? c selector)

@[simp] theorem installed_define (d : Ref .classObject) (base : Option (Ref .classObject))
    (deeds : List Deed) (c : Ref .classObject) (selector : String) :
    installed (.define d base :: deeds) c selector = installed deeds c selector :=
  rfl

theorem installed_install (d : Ref .classObject) (other : String) (callable : Callable)
    (deeds : List Deed) (c : Ref .classObject) (selector : String) :
    installed (.install d other callable :: deeds) c selector =
      if d = c ∧ other = selector then callable :: installed deeds c selector
      else installed deeds c selector := by
  unfold installed
  rw [List.filterMap_cons, Deed.installs?]
  by_cases here : d = c ∧ other = selector
  · rw [if_pos here, if_pos here]
  · rw [if_neg here, if_neg here]

theorem installed_eq_nil {deeds : List Deed} {c : Ref .classObject}
    (never : ∀ selector callable, .install c selector callable ∉ deeds) (selector : String) :
    installed deeds c selector = [] := by
  refine List.filterMap_eq_nil_iff.2 fun deed member => ?_
  cases deed with
  | define d base => rfl
  | install d other callable =>
    refine if_neg ?_
    rintro ⟨rfl, -⟩
    exact never other callable member

/-- What happens leaves the classes of an image alone. -/
structure Spares (image : Image) (h : Heap) (image' : Image) (h' : Heap) : Prop where
  table : image'.classes = image.classes
  same : ∀ c ∈ image.classes, h'.classAt c = h.classAt c
  /-- No class disappears. -/
  size : h.classes.size ≤ h'.classes.size
  /-- Nor does any get another number. -/
  number : ∀ c : Ref .classObject, c.index < h.classes.size →
    (h'.classAt c).number = (h.classAt c).number

/-- What was done to the classes of an image, the latest first. -/
inductive History : Heap → Image → List Deed → Prop
  | blank (h : Heap) (globals : Environment) : History h (blank globals) []
  /-- The base may be any class of the heap. -/
  | define {h : Heap} {image : Image} {deeds : List Deed} (name : String)
      (base : Option (Ref .classObject)) (tag : Tag) :
      (∀ b, base = some b → b.index < h.classes.size) → History h image deeds →
      History (image.defineClass h name base tag).1 (image.defineClass h name base tag).2.1
        (.define (image.defineClass h name base tag).2.2 base :: deeds)
  | install {h : Heap} {image : Image} {deeds : List Deed} {c : Ref .classObject}
      (selector : String) (callable : Callable) :
      c ∈ image.classes → History h image deeds →
      History (h.install c selector callable) image (.install c selector callable :: deeds)
  | aside {h h' : Heap} {image image' : Image} {deeds : List Deed} :
      Spares image h image' h' → History h image deeds → History h' image' deeds

/-- The class table of an image holds what a history tells. -/
structure Recorded (h : Heap) (image : Image) (deeds : List Deed) : Prop where
  held : ∀ c ∈ image.classes, c.index < h.classes.size
  numbered : ∀ (number : Nat) (c : Ref .classObject),
    image.classes[number]? = some c → (h.classAt c).number = number
  defined : ∀ c, c ∈ image.classes ↔ ∃ base, .define c base ∈ deeds
  once : ∀ c base base', .define c base ∈ deeds → .define c base' ∈ deeds → base' = base
  /-- A class has the number of its base. -/
  base : ∀ c base, .define c base ∈ deeds →
    (h.classAt c).base = base.map fun b => (h.classAt b).number
  known : ∀ c b, .define c (some b) ∈ deeds → b.index < h.classes.size
  /-- A base out of the same table was numbered before. -/
  older : ∀ c b, .define c (some b) ∈ deeds → b ∈ image.classes →
    (h.classAt b).number < (h.classAt c).number
  handlers : ∀ c ∈ image.classes, ∀ selector, h.handlersOn c selector = installed deeds c selector
  target : ∀ c selector callable, .install c selector callable ∈ deeds → c ∈ image.classes

namespace Recorded

variable {h h' : Heap} {image image' : Image} {deeds : List Deed}

theorem number_lt (recorded : Recorded h image deeds) {c : Ref .classObject}
    (member : c ∈ image.classes) : (h.classAt c).number < image.classes.size := by
  obtain ⟨number, there⟩ := Array.mem_iff_getElem?.1 member
  rw [recorded.numbered number c there]
  exact (Array.getElem?_eq_some_iff.1 there).1

theorem mem_of_define (recorded : Recorded h image deeds) {c : Ref .classObject}
    {base : Option (Ref .classObject)} (defined : .define c base ∈ deeds) : c ∈ image.classes :=
  (recorded.defined c).2 ⟨base, defined⟩

/-- A class of the table is found under its number. -/
theorem getElem?_number (recorded : Recorded h image deeds) {c : Ref .classObject}
    (member : c ∈ image.classes) : image.classes[(h.classAt c).number]? = some c := by
  obtain ⟨number, there⟩ := Array.mem_iff_getElem?.1 member
  rw [recorded.numbered number c there]
  exact there

theorem start (h : Heap) (globals : Environment) : Recorded h (blank globals) [] where
  held := nofun
  numbered := nofun
  defined := fun _ => ⟨nofun, nofun⟩
  once := nofun
  base := nofun
  known := nofun
  older := nofun
  handlers := nofun
  target := nofun

theorem aside (recorded : Recorded h image deeds) (spares : Spares image h image' h') :
    Recorded h' image' deeds where
  held := by
    rw [spares.table]
    exact fun c member => Nat.lt_of_lt_of_le (recorded.held c member) spares.size
  numbered := by
    rw [spares.table]
    intro number c there
    rw [spares.same c (Array.mem_of_getElem? there)]
    exact recorded.numbered number c there
  defined := by
    rw [spares.table]
    exact recorded.defined
  once := recorded.once
  base := by
    intro c base defined
    rw [spares.same c (recorded.mem_of_define defined), recorded.base c base defined]
    exact Option.map_congr fun b is_ =>
      (spares.number b (recorded.known c b (is_ ▸ defined))).symm
  known := fun c b defined => Nat.lt_of_lt_of_le (recorded.known c b defined) spares.size
  older := by
    rw [spares.table]
    intro c b defined member
    rw [spares.same b member, spares.same c (recorded.mem_of_define defined)]
    exact recorded.older c b defined member
  handlers := by
    rw [spares.table]
    intro c member selector
    unfold Heap.handlersOn
    rw [spares.same c member]
    exact recorded.handlers c member selector
  target := by
    rw [spares.table]
    exact recorded.target

theorem install (recorded : Recorded h image deeds) {d : Ref .classObject}
    (member : d ∈ image.classes) (selector : String) (callable : Callable) :
    Recorded (h.install d selector callable) image (.install d selector callable :: deeds) where
  held := by
    rw [h.size_classes_install]
    exact recorded.held
  numbered := by
    intro number c there
    rw [h.number_install]
    exact recorded.numbered number c there
  defined := by simpa using recorded.defined
  once := by simpa using recorded.once
  base := by simpa [h.number_install, h.base_install] using recorded.base
  known := by simpa [h.size_classes_install] using recorded.known
  older := by simpa [h.number_install] using recorded.older
  handlers := by
    intro c inside other
    rw [h.handlersOn_install _ _ _ _ _ (recorded.held d member), installed_install,
      recorded.handlers c inside other]
    simp only [eq_comm]
  target := by
    intro c other callable' told
    rcases List.mem_cons.1 told with same | before
    · cases same
      exact member
    · exact recorded.target c other callable' before

theorem define (recorded : Recorded h image deeds) (name : String)
    {base : Option (Ref .classObject)} (tag : Tag)
    (known : ∀ b, base = some b → b.index < h.classes.size) :
    Recorded (image.defineClass h name base tag).1 (image.defineClass h name base tag).2.1
      (.define (image.defineClass h name base tag).2.2 base :: deeds) := by
  have size := image.size_classes_defineClass h name base tag
  have table := image.classes_defineClass h name base tag
  have classAt := image.classAt_defineClass h name base tag
  rw [ref_defineClass]
  generalize image.defineClass h name base tag = next at size table classAt ⊢
  have old {c : Ref .classObject} (held : c.index < h.classes.size) :
      next.1.classAt c = h.classAt c := by
    rw [classAt, if_neg (Nat.ne_of_lt held)]
  have made : next.1.classAt ⟨h.classes.size⟩ = _ := (classAt _).trans (if_pos rfl)
  have fresh {c : Ref .classObject} (held : c.index < h.classes.size) :
      c ≠ ⟨h.classes.size⟩ := by
    rintro rfl
    exact Nat.lt_irrefl _ held
  have undefined (base' : Option (Ref .classObject)) :
      .define ⟨h.classes.size⟩ base' ∉ deeds := fun told =>
    fresh (recorded.held _ (recorded.mem_of_define told)) rfl
  constructor
  case held =>
    intro c member
    rw [table, Array.mem_push] at member
    rw [size]
    rcases member with member | rfl
    · exact Nat.lt_succ_of_lt (recorded.held c member)
    · exact Nat.lt_succ_self _
  case numbered =>
    intro number c there
    rw [table, Array.getElem?_push] at there
    split at there
    next last =>
      cases there
      rw [made, last]
    next =>
      rw [old (recorded.held c (Array.mem_of_getElem? there))]
      exact recorded.numbered number c there
  case defined =>
    intro c
    rw [table, Array.mem_push, recorded.defined]
    constructor
    · rintro (⟨base', told⟩ | rfl)
      · exact ⟨base', List.mem_cons_of_mem _ told⟩
      · exact ⟨base, List.mem_cons_self⟩
    · rintro ⟨base', told⟩
      rcases List.mem_cons.1 told with same | before
      · cases same
        exact .inr rfl
      · exact .inl ⟨base', before⟩
  case once =>
    intro c b b' told told'
    rcases List.mem_cons.1 told with same | before
    · cases same
      rcases List.mem_cons.1 told' with same' | before'
      · cases same'
        rfl
      · exact absurd before' (undefined b')
    · rcases List.mem_cons.1 told' with same' | before'
      · cases same'
        exact absurd before (undefined b)
      · exact recorded.once c b b' before before'
  case base =>
    intro c b told
    rcases List.mem_cons.1 told with same | before
    · cases same
      rw [made]
      exact Option.map_congr fun b is_ => congrArg Class.number (old (known b is_)).symm
    · rw [old (recorded.held c (recorded.mem_of_define before)), recorded.base c b before]
      refine Option.map_congr fun b is_ => congrArg Class.number (old ?_).symm
      exact recorded.known c b (is_ ▸ before)
  case known =>
    intro c b told
    rw [size]
    rcases List.mem_cons.1 told with same | before
    · cases same
      exact Nat.lt_succ_of_lt (known b rfl)
    · exact Nat.lt_succ_of_lt (recorded.known c b before)
  case older =>
    intro c b told member
    rw [table, Array.mem_push] at member
    rcases List.mem_cons.1 told with same | before
    · cases same
      have held := known b rfl
      rw [old held, made]
      exact recorded.number_lt (member.resolve_right (fresh held))
    · have held := recorded.known c b before
      rw [old held, old (recorded.held c (recorded.mem_of_define before))]
      exact recorded.older c b before (member.resolve_right (fresh held))
  case handlers =>
    intro c member selector
    rw [table, Array.mem_push] at member
    rw [installed_define]
    unfold Heap.handlersOn
    rcases member with member | rfl
    · rw [old (recorded.held c member)]
      exact recorded.handlers c member selector
    · rw [made, installed_eq_nil]
      · rfl
      · intro other callable told
        exact fresh (recorded.held _ (recorded.target _ _ _ told)) rfl
  case target =>
    intro c selector callable told
    rcases List.mem_cons.1 told with same | before
    · cases same
    · rw [table, Array.mem_push]
      exact .inl (recorded.target c selector callable before)

end Recorded

/-- The class table never holds anything but what its history tells. -/
theorem History.recorded {h : Heap} {image : Image} {deeds : List Deed}
    (history : History h image deeds) : Recorded h image deeds := by
  induction history with
  | blank h globals => exact .start h globals
  | define name base tag known _ ih => exact ih.define name tag known
  | install selector callable member _ ih => exact ih.install member selector callable
  | aside spares _ ih => exact ih.aside spares

/-! ## New images -/

/-- Every base is a class of the image itself. It was one already when it became a base, since
a class that is defined is a new one. -/
def Homebred (image : Image) (deeds : List Deed) : Prop :=
  ∀ c base, .define c (some base) ∈ deeds → base ∈ image.classes

variable {h h' : Heap} {image image' : Image} {deeds : List Deed}

theorem Spares.of_classes (table : image'.classes = image.classes)
    (classes : h'.classes = h.classes) : Spares image h image' h' := by
  have same (c : Ref .classObject) : h'.classAt c = h.classAt c := by
    unfold Heap.classAt
    rw [classes]
  exact ⟨table, fun c _ => same c, Nat.le_of_eq (congrArg Array.size classes).symm,
    fun c _ => congrArg Class.number (same c)⟩

theorem Homebred.define (homebred : Homebred image deeds) (name : String)
    {base : Option (Ref .classObject)} (tag : Tag)
    (own : ∀ b, base = some b → b ∈ image.classes) :
    Homebred (image.defineClass h name base tag).2.1
      (.define (image.defineClass h name base tag).2.2 base :: deeds) := by
  intro c b told
  rw [classes_defineClass, Array.mem_push]
  rcases List.mem_cons.1 told with same | before
  · cases same
    exact .inl (own b rfl)
  · exact .inl (homebred c b before)

theorem Homebred.install (homebred : Homebred image deeds) (d : Ref .classObject)
    (selector : String) (callable : Callable) :
    Homebred image (.install d selector callable :: deeds) := by
  intro c b told
  rcases List.mem_cons.1 told with same | before
  · cases same
  · exact homebred c b before

/-- An image was made in a heap that held some classes already. Those have stayed as they were, its
own classes are others, and it has a history in which only its own classes are bases. -/
structure Native (old h : Heap) (image : Image) : Prop where
  history : ∃ deeds, History h image deeds ∧ Homebred image deeds
  adds : old.AddsClasses h
  added : ∀ c ∈ image.classes, old.classes.size ≤ c.index
  root : image.root ∈ image.classes
  byTag : ∀ entry ∈ image.byTag, entry.2 ∈ image.classes

namespace Native

variable {old : Heap}

theorem of_classes (native : Native old h image) (classes : h'.classes = h.classes) :
    Native old h' image where
  history := by
    obtain ⟨deeds, history, homebred⟩ := native.history
    exact ⟨deeds, .aside (.of_classes rfl classes) history, homebred⟩
  adds := native.adds.trans (.of_classes classes)
  added := native.added
  root := native.root
  byTag := native.byTag

theorem since {older : Heap} (native : Native old h image) (adds : older.AddsClasses old) :
    Native older h image where
  history := native.history
  adds := adds.trans native.adds
  added := fun c member => Nat.le_trans adds.size (native.added c member)
  root := native.root
  byTag := native.byTag

theorem define (native : Native old h image) (name : String) {base : Ref .classObject} (tag : Tag)
    (own : base ∈ image.classes) :
    Native old (image.defineClass h name (some base) tag).1
      (image.defineClass h name (some base) tag).2.1 where
  history := by
    obtain ⟨deeds, history, homebred⟩ := native.history
    refine ⟨_, .define name (some base) tag ?_ history, homebred.define name tag ?_⟩
    · rintro b ⟨⟩
      exact history.recorded.held base own
    · rintro b ⟨⟩
      exact own
  adds := native.adds.trans (addsClasses_defineClass ..)
  added := by
    intro c member
    rcases Array.mem_push.1 member with before | rfl
    · exact native.added c before
    · exact native.adds.size
  root := Array.mem_push.2 (.inl native.root)
  byTag := by
    intro entry member
    rw [classes_defineClass]
    unfold defineClass at member
    dsimp only at member
    split at member
    · exact Array.mem_push.2 (.inl (native.byTag entry member))
    · rcases List.mem_cons.1 member with rfl | before
      · exact Array.mem_push.2 (.inr rfl)
      · exact Array.mem_push.2 (.inl (native.byTag entry before))

theorem install (native : Native old h image) {d : Ref .classObject} (own : d ∈ image.classes)
    (selector : String) (callable : Callable) :
    Native old (h.install d selector callable) image where
  history := by
    obtain ⟨deeds, history, homebred⟩ := native.history
    exact ⟨_, .install selector callable own history, homebred.install d selector callable⟩
  adds := native.adds.install (native.added d own) selector callable
  added := native.added
  root := native.root
  byTag := native.byTag

theorem classForTag (native : Native old h image) (tag : Tag) :
    image.classForTag tag ∈ image.classes := by
  unfold Image.classForTag
  cases found : image.byTag.lookup tag with
  | none => exact native.root
  | some c =>
    obtain ⟨before, after, entries, -⟩ := List.lookup_eq_some_iff.1 found
    exact native.byTag (tag, c) (entries ▸ List.mem_append_right _ List.mem_cons_self)

theorem furnishing : Furnishing (Native old) where
  define := fun name tag native => native.define name tag native.root
  bind := fun _ _ _ native => native.of_classes rfl
  install := by
    intro h image tag p native
    have made : Native old (h.allocPrimitive p).1 image := native.of_classes rfl
    exact made.install (native.classForTag tag) p.name _

end Native

theorem native_withObject (h : Heap) (globals : Environment) :
    Native h (withObject h globals).1 (withObject h globals).2 := by
  have defined : History _ _ [_] := .define "Object" none .unknown nofun (.blank h globals)
  have spares : Spares ((blank globals).defineClass h "Object" none .unknown).2.1
      (withObject h globals).1 (withObject h globals).2 (withObject h globals).1 :=
    .of_classes rfl rfl
  have own : (withObject h globals).2.root ∈ (withObject h globals).2.classes :=
    Array.mem_push.2 (.inr rfl)
  constructor
  case history => exact ⟨_, .aside spares defined, fun c b told => by simp at told⟩
  case adds => exact addsClasses_defineClass ..
  case added =>
    intro c member
    rcases Array.mem_push.1 member with none_ | rfl
    · exact absurd none_ (Array.not_mem_empty c)
    · exact Nat.le_refl _
  case root => exact own
  case byTag =>
    intro entry member
    cases List.mem_singleton.1 member
    exact own

/-- A new image is one of these, whatever was in the heap before. -/
theorem native_create (h : Heap) (shared : Option Environment) (bare : Bool) :
    Native h (create h shared bare).1 (create h shared bare).2 :=
  Native.furnishing.create
    (fun h' globals classes => (native_withObject h' globals).since (.of_classes classes))
    shared bare

end MessageMachine.Image
