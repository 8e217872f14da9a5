import Std.Data.TreeMap
import StorageWeave.Bytecode.Class
import StorageWeave.Machine.Value
import StorageWeave.Table

/-!
# The state of the machine

The heap, the values that persistent objects are loaded from, and what the hooks of the platform
have recorded. Calls change the state also when they fail.
-/

namespace StorageWeave.Machine

open Bytecode

/-- An object: its class and the fields written so far. -/
structure Object where
  className : String
  fields : Std.TreeMap String Value := {}
  deriving Repr

/-- A reported change of a field. -/
structure Update where
  reference : Value
  className : String
  field : String
  tag : String
  value : Value
  deriving DecidableEq, Repr

/-- A recorded call of an entry. -/
structure EntryCall where
  callee : Value
  caller : Value
  amount : Option Value
  deriving DecidableEq, Repr

/-- A fetched field: its class, its name and its type. -/
structure Fetch where
  className : String
  field : String
  typeName : String
  deriving DecidableEq, Repr

/-- The state that calls share. -/
structure State where
  heap : Array Object := #[]
  /-- Persisted values by class and field. -/
  persisted : Table (String × String) Value := {}
  fetches : Array Fetch := #[]
  updates : Array Update := #[]
  extracted : Array Value := #[]
  entries : Array EntryCall := #[]
  deriving Repr

/-- What a call gives: a result or a fault, and the state after it. -/
structure Outcome (α : Type) where
  result : Except Fault α
  state : State

/-- Computations that change the state and can fail. -/
abbrev Effect : Type → Type := ExceptT Fault (StateM State)

namespace State

/-- Puts a new object on the heap. -/
def allocate (s : State) (className : String) : Value × State :=
  (.object s.heap.size, { s with heap := s.heap.push ⟨className, {}⟩ })

/-- The value of a field that was written. -/
def field? (s : State) (object : Value) (name : String) : Option Value :=
  match object with
  | .object id => (s.heap[id]?).bind fun o => o.fields[name]?
  | _ => none

/-- The place on the heap of an object that is there. -/
def place? (s : State) : Value → Option Nat
  | .object id => if id < s.heap.size then some id else none
  | _ => none

/-- Writes a field of the object at a place on the heap. -/
def write (s : State) (place : Nat) (name : String) (value : Value) : State :=
  { s with heap := s.heap.modify place fun o => { o with fields := o.fields.insert name value } }

/-- Forgets what the hooks have recorded. -/
def clearRecords (s : State) : State :=
  { s with fetches := #[], updates := #[], extracted := #[], entries := #[] }

end State

/-- Writes a field of an object. -/
def setField (object : Value) (name : String) (value : Value) : Effect Unit := do
  match (← get).place? object with
  | some place => modify fun s => s.write place name value
  | none => throw .invalidReference

end StorageWeave.Machine
