/-
# Workspaces

A workspace is a heap and an image that began as the standard image. Since then values
were put into the heap by a host, values were compiled and programs were run, in any
order. With it goes its library, the functions that its methods stand for in the order
in which they were made. What a method stands for is fixed when it is compiled, whatever
becomes of the value that it was compiled from.

Running makes no methods and compiling makes no primitives. So the methods of a
workspace implement its library, and its primitives are those of the standard image.
-/

import MessageMachine.Image.Standard
import MessageMachine.Proofs.Compiler.Run
import MessageMachine.Proofs.Machine.Effect

namespace MessageMachine

open Machine (SameCode)

/-! ## The standard image -/

namespace Image

/-- Define a built-in class derived from `root`. -/
theorem sameCode_foldl_defineClass (root : Ref .classObject) (classes : List (String × Tag))
    (done : Heap × Image) :
    SameCode done.1 (classes.foldl (fun (h, image) (name, tag) =>
      let (h, image, _) := image.defineClass h name (some root) tag
      (h, image)) done).1 := by
  induction classes generalizing done with
  | nil => exact .refl _
  | cons c rest ih =>
    obtain ⟨h, image⟩ := done
    obtain ⟨name, tag⟩ := c
    have first := Machine.sameCode_defineClass image h name (some root) tag
    rw [List.foldl_cons]
    exact first.trans (ih (_, _))

theorem sameCode_withClasses (h : Heap) (globals : Environment) :
    SameCode h (withClasses h globals).1 := by
  have first := Machine.sameCode_defineClass (blank globals) h "Object" none .unknown
  unfold withClasses
  generalize (blank globals).defineClass h "Object" none .unknown = made at first ⊢
  obtain ⟨h₁, image, root⟩ := made
  have second := sameCode_foldl_defineClass root builtinClasses (h₁, { image with root := root })
  simp only
  refine (first.trans second).trans ?_
  exact ((Machine.sameCode_define _ _ _ _).trans (Machine.sameCode_define _ _ _ _)).trans
    (Machine.sameCode_define _ _ _ _)

theorem standard_installPrimitive {h : Heap} (standard : h.Standard) (c : Ref .classObject)
    {p : Primitive} (own : ∀ behaviour, p.behaviour ≠ .host behaviour) :
    (installPrimitive h c p).Standard := by
  intro r behaviour
  show ((h.primitives.push p).getD r.index default).behaviour ≠ _
  rw [Array.getD_eq_getD_getElem?, Array.getElem?_push]
  split
  · exact own behaviour
  · have kept := standard r behaviour
    unfold Heap.primitive at kept
    rwa [Array.getD_eq_getD_getElem?] at kept

/-- Installing the standard primitives makes no method. -/
theorem withPrimitives_spec {h : Heap} (image : Image) (standard : h.Standard) :
    (withPrimitives h image).Standard ∧ (withPrimitives h image).methods = h.methods := by
  have listed : ∀ entry ∈ standardPrimitives, ∀ behaviour, entry.2.2.2 ≠ .host behaviour := by
    simp [standardPrimitives]
  unfold withPrimitives
  generalize standardPrimitives = entries at listed
  induction entries generalizing h with
  | nil => exact ⟨standard, rfl⟩
  | cons entry rest ih =>
    have first := standard_installPrimitive standard (image.classForTag entry.1)
      (p := ⟨entry.2.1, entry.2.2.1, entry.2.2.2⟩) (listed entry (List.mem_cons_self ..))
    exact ih first fun other inside => listed other (List.mem_cons_of_mem _ inside)

end Image

theorem Heap.compiled_empty : Heap.empty.Compiled [] where
  size := rfl
  implements := fun _ _ none_ => by simp at none_
  standard := fun _ _ => nofun

theorem Heap.compiled_create : (Image.create .empty none false).1.Compiled [] := by
  have classes := Image.sameCode_withClasses (Environment.create .empty none).1
    (Environment.create .empty none).2
  have before : (Image.withClasses (Environment.create .empty none).1
      (Environment.create .empty none).2).1.Compiled [] :=
    (Heap.compiled_empty.congr ⟨rfl, rfl⟩ : (Environment.create .empty none).1.Compiled []).congr classes
  obtain ⟨standard, methods⟩ := Image.withPrimitives_spec (Image.withClasses
    (Environment.create .empty none).1 (Environment.create .empty none).2).2 before.standard
  refine ⟨?_, fun _ _ none_ => by simp at none_, standard⟩
  exact (congrArg Array.size methods).trans before.size

/-! ## Workspaces -/

/-- Nothing has changed but data. -/
structure Heap.Stores (h h' : Heap) : Prop where
  methods : h'.methods = h.methods
  primitives : h'.primitives = h.primitives
  classes : h'.classes = h.classes

theorem Heap.Stores.trans {h h' h'' : Heap} (first : h.Stores h') (second : h'.Stores h'') :
    h.Stores h'' :=
  ⟨second.methods.trans first.methods, second.primitives.trans first.primitives,
    second.classes.trans first.classes⟩

/-- A heap and an image that came from the standard image, and the functions that the
methods of the heap stand for. -/
inductive Workspace : Heap → Image → List Function → Prop
  | fresh : Workspace (Image.create .empty none false).1 (Image.create .empty none false).2 []
  /-- A host puts values into the heap, as a reader does. -/
  | data {h h' : Heap} {image : Image} {library : List Function} :
      Workspace h image library → h.Stores h' → Workspace h' image library
  | compile {h h' : Heap} {image : Image} {library functions : List Function} {v : Value}
      {location : Option Location} {name : String} {program : Ref .method} {form : Form} :
      Workspace h image library → h.compile v location name = .ok (h', program) →
      Reads h h.methods.size v form functions →
      Workspace h' image (library ++ (functions ++ [⟨name, [], form⟩]))
  | run {h : Heap} {image : Image} {library : List Function} {settings : Settings}
      {fuel : Nat} {program : Ref .method} {completion : Option Machine.Completion} {m : Machine} :
      Workspace h image library →
      (Machine.idle h image settings).serve fuel (.execute program) = (completion, m) →
      Workspace m.heap m.image library

/-- The program of a value that was compiled comes after the methods inside it. -/
theorem Heap.Compiled.compile {h h' : Heap} {library functions : List Function} {v : Value}
    {location : Option Location} {name : String} {program : Ref .method} {form : Form}
    (compiled : h.Compiled library) (made : h.compile v location name = .ok (h', program))
    (reads : Reads h h.methods.size v form functions) :
    h'.Compiled (library ++ (functions ++ [⟨name, [], form⟩])) ∧
      program.index = library.length + functions.length := by
  obtain ⟨form', functions', reads', makes, index⟩ := makes_of_compile made
  obtain ⟨rfl, rfl⟩ := reads.unique reads'
  rw [compiled.size] at index
  refine ⟨⟨?_, ?_, ?_⟩, index⟩
  · rw [makes.size, compiled.size, List.length_append, List.length_append, List.length_append]
  · intro index f found
    rcases Nat.lt_or_ge index library.length with old | new
    · rw [List.getElem?_append_left old] at found
      have kept := makes.kept index (by rw [compiled.size]; exact old)
      have implements := compiled.implements index f found
      unfold Heap.method at implements ⊢
      rwa [Array.getD_eq_getD_getElem?, kept, ← Array.getD_eq_getD_getElem?]
    · rw [List.getElem?_append_right new] at found
      obtain ⟨m, there, implements⟩ := makes.made (index - library.length) f found
      rw [compiled.size, Nat.add_sub_cancel' new] at there
      unfold Heap.method
      rw [Array.getD_eq_getD_getElem?, there]
      exact implements
  · apply compiled.standard.congr
    have data := congrArg Heap.primitives makes.data
    exact data

namespace Workspace

variable {h : Heap} {image : Image} {library : List Function}

/-- The methods of a workspace implement its library. -/
theorem compiled (workspace : Workspace h image library) : h.Compiled library := by
  induction workspace with
  | fresh => exact Heap.compiled_create
  | data _ stores ih => exact ih.congr ⟨stores.methods, stores.primitives⟩
  | compile _ made reads ih => exact (ih.compile made reads).1
  | run _ ran ih => exact ih.congr (Machine.sameCode_of_run _ ran)

/-- The classes of a workspace are in order. -/
theorem inOrder (workspace : Workspace h image library) : Image.InOrder h image := by
  induction workspace with
  | fresh => exact Image.inOrder_create
  | data _ stores ih => exact ih.of_classes stores.classes
  | compile _ made _ ih =>
    obtain ⟨_, _, _, makes, _⟩ := makes_of_compile made
    have classes := congrArg Heap.classes makes.data
    exact ih.of_classes classes
  | run _ ran ih => exact Machine.stable_inOrder.run ih ran

end Workspace

end MessageMachine
