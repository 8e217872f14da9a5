import StorageWeave.Machine.State
import StorageWeave.Weaving.Config
import StorageWeave.Weaving.Names

/-!
# Hooks of the platform

The methods of the platform types, which are not loaded as classes. They record what woven code asks
of the platform.
-/

namespace StorageWeave.Machine

open Bytecode Weaving

/-- An argument that a hook needs. -/
def argument (args : List Value) (i : Nat) : Except Fault Value :=
  match args[i]? with
  | some v => .ok v
  | none => .error .missingArgument

/-- A text that a hook needs. -/
def textArgument (args : List Value) (i : Nat) : Except Fault String := do
  (← argument args i).toText

/-- Constructs the platform part of an object: persisted if a reference is given, else fresh. -/
def constructRoot (args : List Value) : Effect Unit := do
  match args with
  | [] => throw .stackUnderflow
  | [this] => setField this Names.inStorage (.int 0)
  | this :: reference :: _ =>
    setField this Names.storageReference reference
    setField this Names.inStorage (.int 1)

/-- Gives the persisted value of a field, or null, and records the fetch. -/
def fetchPersisted (args : List Value) : Effect Value := do
  let className ← textArgument args 1
  let field ← textArgument args 2
  let typeName ← textArgument args 3
  let value := ((← get).persisted.get? (className, field)).getD .null
  modify fun s => { s with fetches := s.fetches.push ⟨className, field, typeName⟩ }
  return value

/-- Records the caller of an entry. -/
def recordEntry (args : List Value) : Effect Unit := do
  let callee ← argument args 0
  let caller ← argument args 1
  modify fun s => { s with entries := s.entries.push ⟨callee, caller, none⟩ }

/-- Records the caller of an entry and the amount. -/
def recordPayableEntry (args : List Value) : Effect Unit := do
  let callee ← argument args 0
  let caller ← argument args 1
  let amount ← argument args 2
  modify fun s => { s with entries := s.entries.push ⟨callee, caller, some amount⟩ }

/-- Records a changed field. -/
def recordFieldUpdate (args : List Value) : Effect Unit := do
  let reference ← argument args 1
  let className ← textArgument args 2
  let field ← textArgument args 3
  let tag ← textArgument args 4
  let value ← argument args 5
  modify fun s => { s with updates := s.updates.push ⟨reference, className, field, tag, value⟩ }

/-- Records a value whose updates are to be looked for. -/
def recordExtraction (args : List Value) : Effect Unit := do
  let value ← argument args 1
  modify fun s => { s with extracted := s.extracted.push value }

/-- Runs the method of a platform type. -/
def runHook (config : Config) (className name : String) (args : List Value) :
    Effect (Option Value) := do
  let isRoot := config.isPlatformRoot className
  let isContract := className = config.contractRoot
  let isAccumulator := className = config.updateAccumulator
  if name = constructorName ∧ isRoot then
    constructRoot args
    return none
  else if name = constructorName ∧ className = config.objectType then return none
  else if name = Names.fetchLastUpdate ∧ isRoot then return some (← fetchPersisted args)
  else if name = Names.entryHook ∧ isContract then
    recordEntry args
    return none
  else if name = Names.payableEntryHook ∧ isContract then
    recordPayableEntry args
    return none
  else if name = Names.recordUpdate ∧ isAccumulator then
    recordFieldUpdate args
    return none
  else if name = Names.recursiveExtract ∧ isAccumulator then
    recordExtraction args
    return none
  else throw (.noSuchMethod (className ++ "." ++ name))

end StorageWeave.Machine
