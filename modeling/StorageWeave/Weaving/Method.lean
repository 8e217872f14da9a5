import StorageWeave.Weaving.Injection
import StorageWeave.Weaving.Names
import StorageWeave.Weaving.Oracle

/-!
# Weaving methods

A method body is woven in three passes: accesses to lazy fields of storage classes become calls of
their accessors, calls of entries hand on the receiver as the caller, and an entry records its
caller in a prologue. An entry also takes one more parameter, the caller.
-/

namespace StorageWeave.Weaving

open Bytecode

/-- The prologue that was spliced into an entry. -/
structure Prologue where
  method : MethodRef
  role : Role
  position : Nat
  deriving DecidableEq, Repr

/-- A woven method and its prologue, if it is an entry with code. -/
structure WovenMethod where
  method : MethodDef
  prologue : Option Prologue := none
  deriving DecidableEq, Repr

/-- The signature of an entry: one more parameter for the caller. -/
def Config.widen (config : Config) (s : Signature) : Signature :=
  s.withParam (.reference config.contractRoot)

namespace MethodWeaver

variable {m : Type → Type} [Monad m] [MonadExceptOf WeaveError m]
variable (h : Hierarchy) (o : Oracle m) (c : ClassDef)

/-- Refuses an entry that cannot record a caller. -/
def checkEntry (method : MethodDef) (role : Role) : m Unit := do
  let illegal (fault : EntryFault) : m Unit := throw (.illegalEntry c.name method.name fault)
  if !role.isEntry then return
  if method.isStatic then illegal .staticEntry
  else if role = .payableEntry ∧ method.signature.params.isEmpty then illegal .noAmount
  else if method.code.isSome then
    if !(← o.isContract c.name) then illegal .outsideContract

/-! ## Field accesses -/

/-- The class whose accessors stand for an access to a field, if the field is lazy. -/
def accessorOwner (owner name : String) (type : FieldType) : m (Option String) := do
  if !h.isLazy type then return none
  if !(← o.isStorage owner) then return none
  match h.resolveField owner name with
  | none =>
    if Names.isPlatformField name then return none
    else throw (.unresolvableType owner (.fieldAccess name c.name))
  | some r => return if r.field.isPersistent then some r.declaring else none

/-- Replaces an access to a lazy field by a call of its accessor. -/
def redirect (i : Instruction) : m Instruction := do
  match i with
  | .getField owner name type =>
    match ← accessorOwner h o c owner name type with
    | some declaring => return .invoke .special declaring (Names.getter name) ⟨[], some type⟩
    | none => return i
  | .putField owner name type =>
    match ← accessorOwner h o c owner name type with
    | some declaring => return .invoke .special declaring (Names.setter name) ⟨[type], none⟩
    | none => return i
  | _ => return i

/-! ## Calls of entries -/

/-- The call with the caller as its last argument, if it calls an entry. -/
def forwarded? (method : MethodDef) (i : Instruction) : m (Option Instruction) := do
  match i with
  | .invoke kind owner name signature =>
    if (← o.role h.config ⟨owner, name, signature⟩).isEntry then
      if method.isStatic then
        throw (.illegalEntry c.name method.name (.callWithoutReceiver owner name))
      else return some (.invoke kind owner name (h.config.widen signature))
    else return none
  | _ => return none

/-- Counts one more position, and a call if it has one. -/
def countCall (counts : Array Nat) (call : Option Instruction) : Array Nat :=
  counts.push (counts.back?.getD 0 + call.toList.length)

/--
For each position how many calls of entries stand before it, and at the end how many there are.
`calls` holds the replaced call at every position that has one.
-/
def callsBefore (calls : List (Option Instruction)) : Array Nat := calls.foldl countCall #[0]

/--
How far a target moves when the receiver is loaded before every call of an entry. A branch to a
call goes to the load before it.
-/
def forwardDistance (counts : Array Nat) (t : Target) : Nat :=
  (counts[min t.toNat (counts.size - 1)]?).getD 0

theorem getElem?_foldl_countCall (calls : List (Option Instruction)) (counts : Array Nat)
    (last t : Nat) (h : counts.back? = some last) :
    (calls.foldl countCall counts)[t]? =
      if t < counts.size then counts[t]?
      else if t < counts.size + calls.length then
        some (last + (calls.take (t + 1 - counts.size)).countP Option.isSome)
      else none := by
  induction calls generalizing counts last with
  | nil => grind
  | cons call rest ih =>
    have size : (countCall counts call).size = counts.size + 1 := by simp [countCall]
    have back : (countCall counts call).back? = some (last + call.toList.length) := by
      simp [countCall, h]
    rw [List.foldl_cons, ih _ _ back, size]
    by_cases below : t < counts.size
    · have : t < counts.size + 1 := by omega
      simp only [below, this, if_true]
      simp [countCall, Array.getElem?_push, Nat.ne_of_lt below]
    · by_cases atEnd : t = counts.size
      · subst atEnd
        cases call <;> simp [countCall, h]
      · have above : ¬ t < counts.size + 1 := by omega
        have shift : t + 1 - counts.size = t + 1 - (counts.size + 1) + 1 := by omega
        have bound : t < counts.size + 1 + rest.length ↔ t < counts.size + (rest.length + 1) := by
          omega
        simp only [below, above, if_false, List.length_cons, shift, List.take_succ_cons,
          List.countP_cons, bound]
        have counted : call.toList.length = if call.isSome then 1 else 0 := by cases call <;> rfl
        rw [counted, Nat.add_right_comm, Nat.add_assoc]

theorem size_callsBefore (calls : List (Option Instruction)) :
    (callsBefore calls).size = calls.length + 1 := by
  have (counts : Array Nat) : (calls.foldl countCall counts).size = counts.size + calls.length := by
    induction calls generalizing counts with
    | nil => simp
    | cons call rest ih =>
      rw [List.foldl_cons, ih]
      simp [countCall]
      omega
  rw [callsBefore, this]
  simp
  omega

/-- A target moves by the number of calls before it. -/
theorem forwardDistance_callsBefore (calls : List (Option Instruction)) (t : Target) :
    forwardDistance (callsBefore calls) t = (calls.take t.toNat).countP Option.isSome := by
  rw [forwardDistance, size_callsBefore, callsBefore, getElem?_foldl_countCall _ _ 0 _ (by simp)]
  by_cases zero : min t.toNat calls.length = 0
  · have : calls.take t.toNat = [] := by
      rcases Nat.min_eq_zero_iff.mp zero with h | h
      · simp [h]
      · simp [List.length_eq_zero_iff.mp h]
    simp [zero, this]
  · have : min t.toNat calls.length < 1 + calls.length := by omega
    simp only [Nat.add_sub_cancel, List.size_toArray, List.length_cons, List.length_nil,
      Nat.zero_add, Nat.lt_one_iff, zero, if_false, this, if_true, Option.getD_some]
    rw [← List.take_eq_take_min]

/-- The instruction of a position, or the replaced call with the receiver loaded before it. -/
def forwardedBlock (i : Instruction) : Option Instruction → Code
  | some call => [.loadThis, call]
  | none => [i]

/-- Replaces calls, loading the receiver before each of them. -/
def forwardCalls? (code : Code) (calls : List (Option Instruction)) : Option Code := do
  let moved ← code.moveTargets? (forwardDistance (callsBefore calls))
  return (moved.zipWith forwardedBlock calls).flatten

/-- Hands the receiver on in every call of an entry. -/
def forward (method : MethodDef) (code : Code) : m Code := do
  let calls ← code.mapM (forwarded? h o c method)
  match forwardCalls? code calls with
  | some code => return code
  | none => throw (.targetOverflow c.name method.name)

/-! ## Prologues -/

/-- The slot of the caller: the first one after the parameters. -/
def callerSlot (method : MethodDef) : m UInt16 :=
  if method.firstFreeSlot < 0x10000 then return method.firstFreeSlot.toUInt16
  else throw (.illegalEntry c.name method.name .tooManyParameters)

/-- Where the prologue goes: to the front, or after the superclass constructor. -/
def prologuePosition (method : MethodDef) (slot : UInt16) (code : Code) : m Nat := do
  if method.isConstructor then
    match c.superclass with
    | none => throw (.malformedConstructor c.name method.name .noSuperclass)
    | some s =>
      MonadExcept.ofExcept
        (Injection.Problem.find ⟨c.name, method.name, code.toArray, s, slot⟩)
  else return 0

/-- The type of the amount of a payable entry. -/
def amountType? (method : MethodDef) (role : Role) : Option FieldType :=
  if role = .payableEntry then method.signature.params.head? else none

/-- The instructions that record the caller, and the amount if there is one. -/
def prologueCode (slot : UInt16) (expected : Option String) (amount : Option FieldType) : Code :=
  let contract := h.config.contractRoot
  let cast := (expected.filter fun e => e ≠ contract).toList.map Instruction.checkCast
  let hook := match amount with
    | some type =>
      [.load type.valueKind 1, .invoke .special contract Names.payableEntryHook
        ⟨[.reference contract, type], none⟩]
    | none => [.invoke .special contract Names.entryHook ⟨[.reference contract], none⟩]
  [.loadThis, .load .reference slot] ++ cast ++ hook

/-- Splices the prologue of an entry in. -/
def injectPrologue (method : MethodDef) (role : Role) (code : Code) : m (Code × Prologue) := do
  let ref : MethodRef := ⟨c.name, method.name, method.signature⟩
  let slot ← callerSlot c method
  let position ← prologuePosition c method slot code
  let expected ← o.callerType h.config ref
  let block := prologueCode h slot expected (amountType? method role)
  match Code.insert? code position block false with
  | some code => return (code, ⟨ref, role, position⟩)
  | none => throw (.targetOverflow c.name method.name)

/-! ## Methods -/

/-- Checks the branches of woven code. -/
def checkCode (method : MethodDef) (code : Code) : m Unit :=
  match Code.validate code with
  | .ok () => return
  | .error cause => throw (.invalidCode c.name method.name cause)

/-- Weaves the code of a method with a role. -/
def weaveCode (method : MethodDef) (role : Role) (code : Code) : m (Code × Option Prologue) := do
  let code ← code.mapM (redirect h o c)
  let code ← forward h o c method code
  if role.isEntry then
    let (code, prologue) ← injectPrologue h o c method role code
    checkCode c method code
    return (code, some prologue)
  else
    checkCode c method code
    return (code, none)

/-- Weaves a method of the class. -/
def weave (method : MethodDef) : m WovenMethod := do
  let role ← o.role h.config ⟨c.name, method.name, method.signature⟩
  checkEntry o c method role
  let signature := if role.isEntry then h.config.widen method.signature else method.signature
  match method.code with
  | none => return { method := { method with signature } }
  | some code =>
    let (code, prologue) ← weaveCode h o c method role code
    return { method := { method with signature, code := some code }, prologue }

end MethodWeaver

/-- Weaves one method of a class against an index that holds the ancestors of the class. -/
def weaveMethod (h : Hierarchy) (c : ClassDef) (method : MethodDef) :
    Except WeaveError WovenMethod :=
  (MethodWeaver.weave h (Oracle.remembering h) c method).run' {}

end StorageWeave.Weaving
