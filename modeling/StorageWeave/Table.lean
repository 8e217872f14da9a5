/-!
# Finite tables

A table is a list of bindings in which every key is bound at most once by the operations below.
Looking up a key finds the value of the last `set`, and a key keeps the place of its first `set`,
so the keys of a table are listed in the order in which they were first bound.
-/

namespace StorageWeave

/-- Bindings from keys to values, in the order of their first binding. -/
structure Table (κ : Type) (α : Type) where
  entries : List (κ × α) := []
  deriving DecidableEq, Repr

namespace Table

variable {κ α : Type} [DecidableEq κ]

/-- The value of the first binding of `key` in a list of bindings. -/
def find? (key : κ) : List (κ × α) → Option α
  | [] => none
  | (k, a) :: rest => if k = key then some a else find? key rest

/-- Rebinds `key` in place, or binds it at the end. -/
def bind (key : κ) (value : α) : List (κ × α) → List (κ × α)
  | [] => [(key, value)]
  | (k, a) :: rest => if k = key then (key, value) :: rest else (k, a) :: bind key value rest

/-- The value bound to a key. -/
def get? (t : Table κ α) (key : κ) : Option α := find? key t.entries

/-- Binds a key, replacing the value it had. -/
def set (t : Table κ α) (key : κ) (value : α) : Table κ α := ⟨bind key value t.entries⟩

/-- Removes every binding of a key. -/
def erase (t : Table κ α) (key : κ) : Table κ α := ⟨t.entries.filter (fun e => e.1 ≠ key)⟩

/-- The bound keys, in the order of their first binding. -/
def keys (t : Table κ α) : List κ := t.entries.map Prod.fst

/-- The number of bindings. -/
def size (t : Table κ α) : Nat := t.entries.length

omit [DecidableEq κ] in
@[simp] theorem keys_mk (entries : List (κ × α)) : keys ⟨entries⟩ = entries.map Prod.fst := rfl

@[simp] theorem get?_empty (key : κ) : (⟨[]⟩ : Table κ α).get? key = none := rfl

theorem find?_bind (key k : κ) (value : α) (entries : List (κ × α)) :
    find? k (bind key value entries) = if key = k then some value else find? k entries := by
  induction entries with
  | nil => simp [bind, find?]
  | cons e rest ih => grind [bind, find?]

/-- A look-up after a `set` finds the new value at its key and the old one everywhere else. -/
theorem get?_set (t : Table κ α) (key k : κ) (value : α) :
    (t.set key value).get? k = if key = k then some value else t.get? k :=
  find?_bind key k value t.entries

@[simp] theorem get?_set_self (t : Table κ α) (key : κ) (value : α) :
    (t.set key value).get? key = some value := by simp [get?_set]

theorem find?_filter_ne (key k : κ) (entries : List (κ × α)) :
    find? k (entries.filter (fun e => e.1 ≠ key)) = if key = k then none else find? k entries := by
  induction entries with
  | nil => simp [find?]
  | cons e rest ih => grind [find?]

/-- A look-up after an `erase` finds nothing at its key and the old value everywhere else. -/
theorem get?_erase (t : Table κ α) (key k : κ) :
    (t.erase key).get? k = if key = k then none else t.get? k :=
  find?_filter_ne key k t.entries

end Table

end StorageWeave
