import StorageWeave.Machine.State

/-!
# Reading and writing objects

What a field of an object is after a write or an allocation. A write is seen at its object and its
name only, and a new object has no field yet, so that every field of it reads as the default of its
type.
-/

namespace StorageWeave.Machine

open Bytecode

namespace State

/-- The class of the object at a place on the heap. -/
def className? (s : State) (id : Nat) : Option String := (s.heap[id]?).map (·.className)

/-- What reading a field of a declared type gives, also when it was never written. -/
def read (s : State) (object : Value) (name : String) (type : FieldType) : Value :=
  (s.field? object name).getD (.ofType type)

theorem lt_size_of_className? {s : State} {id : Nat} {c : String} (h : s.className? id = some c) :
    id < s.heap.size := by
  simp only [className?, Option.map_eq_some_iff] at h
  obtain ⟨o, ho, -⟩ := h
  exact (Array.getElem?_eq_some_iff.1 ho).1

theorem place?_object {s : State} {id : Nat} (h : id < s.heap.size) :
    s.place? (.object id) = some id := by
  simp [place?, h]

theorem of_place?_eq_some {s : State} {v : Value} {place : Nat} (h : s.place? v = some place) :
    v = .object place ∧ place < s.heap.size := by
  cases v with
  | object id =>
    rw [place?] at h
    split at h
    · next hid =>
      cases h
      exact ⟨rfl, hid⟩
    · cases h
  | _ => cases h

/-! ## Writes -/

@[simp] theorem size_write (s : State) (place : Nat) (name : String) (v : Value) :
    (s.write place name v).heap.size = s.heap.size := by
  simp [write]

@[simp] theorem persisted_write (s : State) (place : Nat) (name : String) (v : Value) :
    (s.write place name v).persisted = s.persisted := rfl

@[simp] theorem fetches_write (s : State) (place : Nat) (name : String) (v : Value) :
    (s.write place name v).fetches = s.fetches := rfl

@[simp] theorem updates_write (s : State) (place : Nat) (name : String) (v : Value) :
    (s.write place name v).updates = s.updates := rfl

@[simp] theorem extracted_write (s : State) (place : Nat) (name : String) (v : Value) :
    (s.write place name v).extracted = s.extracted := rfl

@[simp] theorem entries_write (s : State) (place : Nat) (name : String) (v : Value) :
    (s.write place name v).entries = s.entries := rfl

@[simp] theorem className?_write (s : State) (place id : Nat) (name : String) (v : Value) :
    (s.write place name v).className? id = s.className? id := by
  simp only [className?, write, Array.getElem?_modify]
  split
  · cases s.heap[id]? <;> rfl
  · rfl

/-- A write is seen at its object and its name only. -/
theorem field?_write (s : State) {place : Nat} (hp : place < s.heap.size) (id : Nat)
    (name n : String) (v : Value) :
    (s.write place name v).field? (.object id) n =
      if place = id ∧ name = n then some v else s.field? (.object id) n := by
  simp only [field?, write, Array.getElem?_modify]
  by_cases hid : place = id
  · subst hid
    rw [if_pos rfl, Array.getElem?_eq_getElem hp]
    simp [Std.TreeMap.getElem?_insert]
  · simp [hid]

theorem field?_write_self (s : State) {place : Nat} (hp : place < s.heap.size) (name : String)
    (v : Value) : (s.write place name v).field? (.object place) name = some v := by
  simp [field?_write s hp]

theorem read_write (s : State) {place : Nat} (hp : place < s.heap.size) (id : Nat)
    (name n : String) (v : Value) (t : FieldType) :
    (s.write place name v).read (.object id) n t =
      if place = id ∧ name = n then v else s.read (.object id) n t := by
  rw [read, field?_write s hp]
  split <;> rfl

theorem read_write_of_ne (s : State) {place : Nat} (hp : place < s.heap.size) (id : Nat)
    {name n : String} (hn : name ≠ n) (v : Value) (t : FieldType) :
    (s.write place name v).read (.object id) n t = s.read (.object id) n t := by
  rw [read_write s hp, if_neg (fun h => hn h.2)]

/-! ## Allocations -/

theorem className?_allocate (s : State) (c : String) (id : Nat) :
    (s.allocate c).2.className? id = if id = s.heap.size then some c else s.className? id := by
  simp only [className?, allocate, Array.getElem?_push]
  split <;> rfl

theorem field?_allocate (s : State) (c : String) (v : Value) (n : String) :
    (s.allocate c).2.field? v n = s.field? v n := by
  cases v with
  | object id =>
    simp only [field?, allocate, Array.getElem?_push]
    split
    · next h => simp [h]
    · rfl
  | _ => rfl

theorem read_allocate (s : State) (c : String) (v : Value) (n : String) (t : FieldType) :
    (s.allocate c).2.read v n t = s.read v n t := by
  rw [read, field?_allocate, read]

end State

/-! ## Effects -/

section Effects

variable {α β : Type} {x : Effect α} {f : α → Effect β} {s s' : State}

theorem run_bind {a : α} (hx : x.run s = (.ok a, s')) : (x >>= f).run s = (f a).run s' := by
  show (StateT.bind x.run (ExceptT.bindCont f)) s = _
  simp only [StateT.bind, bind, hx]
  rfl

theorem run_bind_error {e : Fault} (hx : x.run s = (.error e, s')) :
    (x >>= f).run s = (.error e, s') := by
  show (StateT.bind x.run (ExceptT.bindCont f)) s = _
  simp only [StateT.bind, bind, hx]
  rfl

theorem run_bind_pure (x : Effect α) (b : β) (s : State) :
    ((x >>= fun _ => pure b).run s).2 = (x.run s).2 := by
  rcases hx : x.run s with ⟨_ | a, s'⟩
  · rw [run_bind_error hx]
  · rw [run_bind hx]
    rfl

theorem run_setField (s : State) (object : Value) (name : String) (v : Value) :
    (setField object name v).run s =
      match s.place? object with
      | some o => (.ok (), s.write o name v)
      | none => (.error .invalidReference, s) := by
  refine (run_bind (rfl : (get : Effect State).run s = (.ok s, s))).trans ?_
  cases s.place? object <;> rfl

theorem run_setField_object {o : Nat} (ho : o < s.heap.size) (name : String) (v : Value) :
    (setField (.object o) name v).run s = (.ok (), s.write o name v) := by
  rw [run_setField, State.place?_object ho]

end Effects

end StorageWeave.Machine
