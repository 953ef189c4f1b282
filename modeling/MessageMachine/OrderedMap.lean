/-
# Maps that remember the order of insertion

A finite map kept as a list of entries. A new key goes to the end; writing to a
key that is present keeps its place. Keys are compared by equality and each
occurs once.
-/

namespace MessageMachine

structure OrderedMap (κ α : Type) where
  entries : List (κ × α)

namespace OrderedMap

variable {κ α : Type}

instance : Inhabited (OrderedMap κ α) := ⟨⟨[]⟩⟩

def empty : OrderedMap κ α := ⟨[]⟩

variable [DecidableEq κ]

/-- The first entry of a key in a list of entries. -/
def find (key : κ) : List (κ × α) → Option α
  | [] => none
  | (k, a) :: rest => if k = key then some a else find key rest

/-- Replace the entry of a key, or add one at the end. -/
def write (key : κ) (value : α) : List (κ × α) → List (κ × α)
  | [] => [(key, value)]
  | (k, a) :: rest => if k = key then (k, value) :: rest else (k, a) :: write key value rest

def get? (m : OrderedMap κ α) (key : κ) : Option α :=
  find key m.entries

def insert (m : OrderedMap κ α) (key : κ) (value : α) : OrderedMap κ α :=
  ⟨write key value m.entries⟩

theorem find_write (key key' : κ) (value : α) (entries : List (κ × α)) :
    find key' (write key value entries) = if key = key' then some value else find key' entries := by
  induction entries with
  | nil => simp [write, find]
  | cons entry rest ih => grind [write, find]

/-- Writing changes the value of the one key and of no other. -/
@[simp] theorem get?_insert (m : OrderedMap κ α) (key key' : κ) (value : α) :
    (m.insert key value).get? key' = if key = key' then some value else m.get? key' :=
  find_write key key' value m.entries

@[simp] theorem get?_empty (key : κ) : (empty : OrderedMap κ α).get? key = none := rfl

end OrderedMap

end MessageMachine
