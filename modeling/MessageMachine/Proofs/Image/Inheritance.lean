/-
# Handlers are inherited

A class answers a selector with the handler that was installed on it last. If there never was
one, its base answers, and so on up. `Descends` is the chain of bases that a history declares. When
all bases are classes of the same image, each is numbered before whatever derives from it, and is
found under its number. So there is such a chain for every class, the chain that is climbed
is this one, and what lookups come to can be told from the history alone.

Hence it can also be told what one more installation changes: the answers to its selector on
those classes from which the chain leads to its class without passing a handler, and no others.
-/

import MessageMachine.Proofs.Image.History
import MessageMachine.Proofs.Image.Lineage

namespace MessageMachine.Image

/-- A chain of classes, each but the last defined on the next. -/
inductive Descends (deeds : List Deed) : Ref .classObject → List (Ref .classObject) → Prop
  | root {c : Ref .classObject} : .define c none ∈ deeds → Descends deeds c [c]
  | derived {c base : Ref .classObject} {chain : List (Ref .classObject)} :
      .define c (some base) ∈ deeds → Descends deeds base chain → Descends deeds c (c :: chain)

variable {h : Heap} {image : Image} {deeds : List Deed} {c d : Ref .classObject}
  {chain : List (Ref .classObject)} {selector : String}

/-! ## Declared bases -/

namespace Recorded

theorem base?_of_none (recorded : Recorded h image deeds) (defined : .define c none ∈ deeds) :
    image.base? h c = .ok none := by
  unfold base?
  rw [recorded.base c none defined]
  rfl

/-- What the number of a declared base stands for. -/
theorem base?_eq (recorded : Recorded h image deeds) {base : Ref .classObject}
    (defined : .define c (some base) ∈ deeds) :
    image.base? h c =
      match image.classes[(h.classAt base).number]? with
      | some found => .ok (some found)
      | none => .error (.outOfRange (.classNumber (.ofInt (h.classAt base).number))) := by
  unfold base?
  rw [recorded.base c (some base) defined]
  rfl

/-- A declared base is the base if it is a class of the same image, and only then. -/
theorem base?_eq_ok_iff (recorded : Recorded h image deeds) {base : Ref .classObject}
    (defined : .define c (some base) ∈ deeds) :
    image.base? h c = .ok (some base) ↔ base ∈ image.classes := by
  constructor
  · exact mem_classes_of_base?
  · intro member
    rw [recorded.base?_eq defined, recorded.getElem?_number member]

end Recorded

namespace Descends

theorem unique (recorded : Recorded h image deeds) {chain' : List (Ref .classObject)}
    (descends : Descends deeds c chain) (other : Descends deeds c chain') : chain' = chain := by
  induction descends generalizing chain' with
  | root told =>
    cases other with
    | root _ => rfl
    | derived told' _ => cases recorded.once _ _ _ told told'
  | derived told _ ih =>
    cases other with
    | root told' => cases recorded.once _ _ _ told told'
    | derived told' rest =>
      cases recorded.once _ _ _ told told'
      rw [ih rest]

theorem mem_classes (recorded : Recorded h image deeds) (descends : Descends deeds c chain)
    {k : Ref .classObject} (member : k ∈ chain) : k ∈ image.classes := by
  induction descends with
  | root told =>
    cases List.mem_singleton.1 member
    exact recorded.mem_of_define told
  | derived told _ ih =>
    rcases List.mem_cons.1 member with rfl | later
    · exact recorded.mem_of_define told
    · exact ih later

/-- The declared chain is the one that is climbed. -/
theorem lineage (recorded : Recorded h image deeds) (descends : Descends deeds c chain) :
    Lineage image h c chain := by
  induction descends with
  | root told => exact .root (recorded.base?_of_none told)
  | derived told rest ih =>
    refine .derived ((recorded.base?_eq_ok_iff told).2 ?_) ih
    cases rest with
    | root told' => exact recorded.mem_of_define told'
    | derived told' _ => exact recorded.mem_of_define told'

/-- Later deeds do not change a chain. -/
theorem cons (descends : Descends deeds c chain) (deed : Deed) :
    Descends (deed :: deeds) c chain := by
  induction descends with
  | root told => exact .root (List.mem_cons_of_mem _ told)
  | derived told _ ih => exact .derived (List.mem_cons_of_mem _ told) ih

end Descends

/-- Every class has a chain. The induction is on its number, which falls from a class to its
base. -/
theorem Recorded.exists_descends (recorded : Recorded h image deeds)
    (homebred : Homebred image deeds) (member : c ∈ image.classes) :
    ∃ chain, Descends deeds c chain := by
  induction number : (h.classAt c).number using Nat.strongRecOn generalizing c with
  | ind n ih =>
    obtain ⟨base, told⟩ := (recorded.defined c).1 member
    cases base with
    | none => exact ⟨[c], .root told⟩
    | some b =>
      have inside := homebred c b told
      obtain ⟨chain, rest⟩ := ih _ (number ▸ recorded.older c b told inside) inside rfl
      exact ⟨c :: chain, .derived told rest⟩

/-! ## The newest handler -/

theorem findSome?_congr {f g : Ref .classObject → Option Handler}
    (same : ∀ k ∈ chain, f k = g k) : chain.findSome? f = chain.findSome? g := by
  induction chain with
  | nil => rfl
  | cons k rest ih =>
    rw [List.findSome?_cons, List.findSome?_cons, same k List.mem_cons_self,
      ih fun k' later => same k' (List.mem_cons_of_mem _ later)]

/-- The handler that was installed last on a class for a selector. -/
def newest? (deeds : List Deed) (selector : String) (k : Ref .classObject) : Option Handler :=
  (installed deeds k selector).head?.map (Handler.mk k)

theorem newest?_eq_none_iff {k : Ref .classObject} :
    newest? deeds selector k = none ↔ installed deeds k selector = [] := by
  rw [newest?, Option.map_eq_none_iff, List.head?_eq_none_iff]

theorem newest?_eq_some_iff {k owner : Ref .classObject} {callable : Callable} :
    newest? deeds selector k = some ⟨owner, callable⟩ ↔
      k = owner ∧ ∃ older, installed deeds owner selector = callable :: older := by
  unfold newest?
  constructor
  · intro same
    obtain ⟨first, head, same⟩ := Option.map_eq_some_iff.1 same
    cases same
    exact ⟨rfl, List.head?_eq_some_iff.1 head⟩
  · rintro ⟨rfl, older, same⟩
    rw [same]
    rfl

theorem newest?_install (k : Ref .classObject) (other : String) (callable : Callable) :
    newest? (.install d other callable :: deeds) selector k =
      if d = k ∧ other = selector then some ⟨d, callable⟩ else newest? deeds selector k := by
  unfold newest?
  rw [installed_install]
  by_cases here : d = k ∧ other = selector
  · rw [if_pos here, if_pos here, here.1]
    rfl
  · rw [if_neg here, if_neg here]

/-- A lookup comes to the newest handler of the first class of the chain that has one. -/
theorem Recorded.handler?_eq (recorded : Recorded h image deeds)
    (descends : Descends deeds c chain) (selector : String) :
    image.handler? h c selector = .ok (chain.findSome? (newest? deeds selector)) := by
  have own : ∀ k ∈ chain, h.handlerOn? selector k = newest? deeds selector k := by
    intro k member
    unfold Heap.handlerOn? newest?
    rw [h.ownHandler?_eq, recorded.handlers k (descends.mem_classes recorded member)]
  rw [(descends.lineage recorded).handler?_eq, findSome?_congr own]

/-! ## One more handler -/

/-- A chain leads to a class, and no class before it ever had a handler for the selector. -/
def Reaches (deeds : List Deed) (chain : List (Ref .classObject)) (d : Ref .classObject)
    (selector : String) : Prop :=
  ∃ before after, chain = before ++ d :: after ∧ ∀ k ∈ before, installed deeds k selector = []

theorem findSome?_newest?_of_reaches (nodup : chain.Nodup) (reaches : Reaches deeds chain d selector)
    (callable : Callable) :
    chain.findSome? (newest? (.install d selector callable :: deeds) selector) =
      some ⟨d, callable⟩ := by
  obtain ⟨before, after, rfl, none_⟩ := reaches
  have apart := (List.nodup_append.1 nodup).2.2
  refine List.findSome?_eq_some_iff.2 ⟨before, d, after, rfl, ?_, fun k member => ?_⟩
  · rw [newest?_install, if_pos ⟨rfl, rfl⟩]
  · have other : d ≠ k := (apart k member d List.mem_cons_self).symm
    rw [newest?_install, if_neg fun both => other both.1]
    exact newest?_eq_none_iff.2 (none_ k member)

/-- Where the class is not reached, or for another selector, the new handler is not found. -/
theorem findSome?_newest?_of_not_reaches (nodup : chain.Nodup) {other : String}
    (apart : ¬ (selector = other ∧ Reaches deeds chain d other)) (callable : Callable) :
    chain.findSome? (newest? (.install d other callable :: deeds) selector) =
      chain.findSome? (newest? deeds selector) := by
  have same {k : Ref .classObject} (different : ¬ (d = k ∧ other = selector)) :
      newest? (.install d other callable :: deeds) selector k = newest? deeds selector k := by
    rw [newest?_install, if_neg different]
  by_cases selectors : selector = other
  · subst selectors
    by_cases member : d ∈ chain
    · obtain ⟨before, after, rfl⟩ := List.append_of_mem member
      have disjoint := (List.nodup_append.1 nodup).2.2
      -- a class before the new handler's has one already, and that is found in either case
      obtain ⟨k, earlier, some_⟩ : ∃ k ∈ before, installed deeds k selector ≠ [] := by
        by_contra none_
        refine apart ⟨rfl, before, after, rfl, fun k earlier => ?_⟩
        by_contra some_
        exact none_ ⟨k, earlier, some_⟩
      have found : (before.findSome? (newest? deeds selector)).isSome := by
        rw [List.findSome?_isSome_iff]
        refine ⟨k, earlier, Option.isSome_iff_ne_none.2 fun none_ => some_ ?_⟩
        exact newest?_eq_none_iff.1 none_
      rw [List.findSome?_append, List.findSome?_append]
      have alike : before.findSome? (newest? (.install d selector callable :: deeds) selector) =
          before.findSome? (newest? deeds selector) :=
        findSome?_congr fun k inside =>
          same fun both => disjoint k inside d List.mem_cons_self both.1.symm
      rw [alike, Option.or_of_isSome found, Option.or_of_isSome found]
    · refine findSome?_congr fun k inside => same ?_
      rintro ⟨rfl, -⟩
      exact member inside
  · exact findSome?_congr fun k _ => same fun both => selectors both.2.symm

/-! ## Dispatch -/

/-- What lookups on a class come to, told from the history of its image. -/
structure Dispatches (h : Heap) (image : Image) (deeds : List Deed) (c : Ref .classObject)
    (chain : List (Ref .classObject)) : Prop where
  /-- The chain of declared bases is the base chain, and there is no other. -/
  ancestry : image.ancestry h c = .ok chain
  only : ∀ other, Descends deeds c other → other = chain
  /-- Every lookup ends by itself: more steps than the chain has classes are never taken. -/
  ends : ∀ selector, ∃ answer, image.handler? h c selector = .ok answer ∧
    ∀ limit, chain.length ≤ limit → image.search h selector limit c = .ok answer
  /-- A handler is found on the first class of the chain that ever had one installed for the
  selector, and it is the last of those. -/
  found_iff : ∀ selector owner callable,
    image.handler? h c selector = .ok (some ⟨owner, callable⟩) ↔
      ∃ before after older, chain = before ++ owner :: after ∧
        (∀ k ∈ before, installed deeds k selector = []) ∧
        installed deeds owner selector = callable :: older
  /-- None is found if and only if no class of the chain ever had one. -/
  none_iff : ∀ selector,
    image.handler? h c selector = .ok none ↔ ∀ k ∈ chain, installed deeds k selector = []
  /-- One more handler changes no chain. It is found for its selector where the chain leads to its
  class before any other with a handler for it, and changes no other answer. -/
  installs : ∀ d ∈ image.classes, ∀ selector callable,
    image.ancestry (h.install d selector callable) c = .ok chain ∧
    (Reaches deeds chain d selector →
      image.handler? (h.install d selector callable) c selector = .ok (some ⟨d, callable⟩)) ∧
    ∀ other, ¬ (other = selector ∧ Reaches deeds chain d selector) →
      image.handler? (h.install d selector callable) c other = image.handler? h c other

theorem dispatches_of_descends (recorded : Recorded h image deeds)
    (descends : Descends deeds c chain) : Dispatches h image deeds c chain := by
  have lineage := descends.lineage recorded
  have answer := recorded.handler?_eq descends
  constructor
  case ancestry => exact ancestry_eq_ok_iff.2 lineage
  case only => exact fun other => descends.unique recorded
  case ends =>
    intro selector
    refine ⟨_, lineage.handler?_eq selector, fun limit le => ?_⟩
    exact lineage.search_eq selector le
  case found_iff =>
    intro selector owner callable
    rw [answer, Except.ok.injEq, List.findSome?_eq_some_iff]
    constructor
    · rintro ⟨before, k, after, rfl, found, none_⟩
      obtain ⟨rfl, older, same⟩ := newest?_eq_some_iff.1 found
      exact ⟨before, after, older, rfl, fun k member => newest?_eq_none_iff.1 (none_ k member), same⟩
    · rintro ⟨before, after, older, rfl, none_, same⟩
      exact ⟨before, owner, after, rfl, newest?_eq_some_iff.2 ⟨rfl, older, same⟩,
        fun k member => newest?_eq_none_iff.2 (none_ k member)⟩
  case none_iff =>
    intro selector
    rw [answer, Except.ok.injEq, List.findSome?_eq_none_iff]
    exact forall₂_congr fun k _ => newest?_eq_none_iff
  case installs =>
    intro d member selector callable
    have recorded' := recorded.install member selector callable
    have descends' := descends.cons (.install d selector callable)
    have answer' := recorded'.handler?_eq descends'
    refine ⟨ancestry_eq_ok_iff.2 (descends'.lineage recorded'), fun reaches => ?_,
      fun other apart => ?_⟩
    · rw [answer', findSome?_newest?_of_reaches lineage.climb.nodup reaches]
    · rw [answer', answer, findSome?_newest?_of_not_reaches lineage.climb.nodup apart]

/-- Whatever classes were defined on each other and whatever was installed on them, lookups
follow the history. -/
theorem dispatches_of_history (history : History h image deeds) (homebred : Homebred image deeds)
    (member : c ∈ image.classes) :
    ∃ chain, Descends deeds c chain ∧ Dispatches h image deeds c chain := by
  have recorded := history.recorded
  obtain ⟨chain, descends⟩ := recorded.exists_descends homebred member
  exact ⟨chain, descends, dispatches_of_descends recorded descends⟩

/-- In a new image a class is defined on `Object`, and then a handler is installed on `Object`
that hides a standard one. -/
theorem dispatches_hidden :
    let new := create .empty none false
    let made := new.2.defineClass new.1 "A" (some new.2.root) .«instance»
    let h := made.1.install new.2.root "print" (.method ⟨0⟩)
    made.2.1.handler? h made.2.2 "print" = .ok (some ⟨new.2.root, .method ⟨0⟩⟩) ∧
      ∃ deeds chain, History h made.2.1 deeds ∧ Homebred made.2.1 deeds ∧
        Descends deeds made.2.2 chain ∧ Dispatches h made.2.1 deeds made.2.2 chain := by
  intro new made h
  refine ⟨by decide +kernel, ?_⟩
  have native : Native .empty new.1 new.2 := native_create _ _ _
  have own : new.2.root ∈ made.2.1.classes := Array.mem_push.2 (.inl native.root)
  obtain ⟨deeds, history, homebred⟩ :=
    ((native.define "A" .«instance» native.root).install own "print" (.method ⟨0⟩)).history
  obtain ⟨chain, descends, dispatches⟩ :=
    dispatches_of_history history homebred (Array.mem_push.2 (.inr rfl))
  exact ⟨deeds, chain, history, homebred, descends, dispatches⟩

end MessageMachine.Image
