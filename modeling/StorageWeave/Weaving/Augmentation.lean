import StorageWeave.Bytecode.Assembler
import StorageWeave.Weaving.Classification
import StorageWeave.Weaving.Draft
import StorageWeave.Weaving.Names

/-!
# Members of storage classes

What a storage class needs to be persisted: a shadow of every persistent field with its last
persisted value, a flag and accessors for every lazy field, a constructor that takes the persisted
values of the eager fields, and a method that reports the fields that differ from their shadows.

Bodies are lists of directives, which `assemble` turns into code.
-/

namespace StorageWeave.Weaving

open Bytecode

namespace Augmentation

variable (h : Hierarchy) (c : ClassDef)

/-- Plain instructions as directives. -/
def emitAll (is : List Instruction) : List Directive := is.map Directive.emit

/-- Pushes a field of the receiver. -/
def thisField (name : String) (type : FieldType) : List Instruction :=
  [.loadThis, .getField c.name name type]

/-- Assembles the body of a method. -/
def body (method : String) (ds : List Directive) : Except WeaveError Code :=
  (assemble ds).mapError (.invalidCode c.name method)

/-- An added method. -/
def generated (name : String) (signature : Signature) (ds : List Directive) :
    Except WeaveError MethodDef := do
  return { name, signature, access := .generated, code := some (← body c name ds) }

def boolean : FieldType := .primitive .boolean

/-! ## Lazy fields -/

/-- The hook that fetches a persisted value: class, field and type names to an object. -/
def fetchSignature : Signature :=
  let string := FieldType.reference h.config.stringType
  ⟨[string, string, string], some (.reference h.config.objectType)⟩

/-- Loads the persisted value of a lazy field, unless the object is fresh or has it already. -/
def ensureLoadedBody (f : FieldDef) : List Directive :=
  let flag := Names.loadedFlag f.name
  emitAll [.loadThis, .getField h.config.storageRoot Names.inStorage boolean]
    ++ [.branch (.branchIf .eq 0) "done"]
    ++ emitAll (thisField c flag boolean)
    ++ [.branch (.branchIf .ne 0) "done"]
    ++ emitAll [.loadThis, .const (.int 1), .putField c.name flag boolean,
      .loadThis, .string c.name, .string f.name, .string f.type.typeName,
      .invoke .virtual h.config.storageRoot Names.fetchLastUpdate (fetchSignature h),
      .checkCast f.type.typeName, .store .reference 1,
      .loadThis, .load .reference 1, .putField c.name f.name f.type,
      .loadThis, .load .reference 1, .putField c.name (Names.shadow f.name) f.type]
    ++ [.label "done", .emit (.return none)]

/-- The call that loads a lazy field. -/
def ensureLoadedCall (f : FieldDef) : Instruction :=
  .invoke .special c.name (Names.ensureLoaded f.name) .void

def getterBody (f : FieldDef) : List Directive :=
  emitAll ([.loadThis, ensureLoadedCall c f] ++ thisField c f.name f.type
    ++ [.return (some f.type.valueKind)])

def setterBody (f : FieldDef) : List Directive :=
  emitAll [.loadThis, ensureLoadedCall c f, .loadThis, .load f.type.valueKind 1,
    .putField c.name f.name f.type, .return none]

def ensureLoaded (f : FieldDef) : Except WeaveError MethodDef :=
  generated c (Names.ensureLoaded f.name) .void (ensureLoadedBody h c f)

def getter (f : FieldDef) : Except WeaveError MethodDef :=
  generated c (Names.getter f.name) ⟨[], some f.type⟩ (getterBody c f)

def setter (f : FieldDef) : Except WeaveError MethodDef :=
  generated c (Names.setter f.name) ⟨[f.type], none⟩ (setterBody c f)

/-! ## The deserializing constructor -/

/-- A field and the slot of the parameter with its value. -/
structure SlottedField where
  field : FieldDef
  slot : UInt16
  deriving DecidableEq, Repr

/-- Gives fields their parameter slots in order and returns the slot after the last one. -/
def assignSlots : UInt16 → List FieldDef → Except WeaveError (List SlottedField × UInt16)
  | slot, [] => .ok ([], slot)
  | slot, f :: rest =>
    if slot.toNat + f.type.size < 0x10000 then do
      let (fields, last) ← assignSlots (slot + f.type.size.toUInt16) rest
      return (⟨f, slot⟩ :: fields, last)
    else .error (.unresolvableType c.name .tooManyEagerFields)

/-- The superclass, which every storage class has. -/
def superclass : Except WeaveError String :=
  match c.superclass with
  | some s => .ok s
  | none => .error (.unresolvableType c.name .noSuperclass)

/-- Stores a parameter in a field and in its shadow. -/
def initializeField (f : SlottedField) : List Instruction :=
  [f.field.name, Names.shadow f.field.name].flatMap fun target =>
    [.loadThis, .load f.field.type.valueKind f.slot, .putField c.name target f.field.type]

/-- The reference of the object, then the eager fields of all levels. -/
def constructorParams (eager : List FieldDef) : List FieldType :=
  .reference h.config.storageReferenceType :: eager.map (·.type)

/-- Hands the inherited values to the superclass and initializes the own fields. -/
def constructorBody (s : String) (inherited own : List SlottedField) : List Directive :=
  emitAll ([.loadThis, .load .reference 1]
    ++ inherited.map (fun f => .load f.field.type.valueKind f.slot)
    ++ [.invoke .special s constructorName ⟨constructorParams h (inherited.map (·.field)), none⟩]
    ++ own.flatMap (initializeField c)
    ++ [.return none])

def constructor (k : Classification) : Except WeaveError MethodDef := do
  let s ← superclass c
  let (inherited, slot) ← assignSlots c 2 k.inheritedEager
  let (own, _) ← assignSlots c slot k.ownEager
  return {
    name := constructorName
    signature := ⟨constructorParams h k.allEager, none⟩
    access := Access.public.union .synthetic
    code := some (← body c constructorName (constructorBody h c s inherited own)) }

/-! ## Update extraction -/

/-- The label after the report of a field. -/
def unchangedLabel (f : FieldDef) : String := "unchanged_" ++ f.name

/-- Branches away when a field equals its shadow: floating-point numbers by their bits. -/
def compareWithShadow (f : FieldDef) : List Directive :=
  let current := thisField c f.name f.type
  let previous := thisField c (Names.shadow f.name) f.type
  let leave (i : Instruction) : List Directive := [.branch i (unchangedLabel f)]
  match f.type with
  | .primitive .long =>
    emitAll (current ++ previous ++ [.compare .long]) ++ leave (.branchIf .eq 0)
  | .primitive .float =>
    emitAll (current ++ [.rawBits .float] ++ previous ++ [.rawBits .float])
      ++ leave (.branchIfCompare .int .eq 0)
  | .primitive .double =>
    emitAll (current ++ [.rawBits .double] ++ previous ++ [.rawBits .double, .compare .long])
      ++ leave (.branchIf .eq 0)
  | .primitive _ => emitAll (current ++ previous) ++ leave (.branchIfCompare .int .eq 0)
  | .reference _ => emitAll (current ++ previous) ++ leave (.branchIfCompare .reference .eq 0)

/-- The type under which a value is recorded. -/
def recordedType : FieldType → FieldType
  | .primitive kind => .primitive kind
  | .reference _ => .reference h.config.objectType

/-- Looks for updates inside a value. -/
def recurseInto (f : FieldDef) : List Instruction :=
  [.load .reference 1] ++ thisField c f.name f.type
    ++ [.invoke .virtual h.config.updateAccumulator Names.recursiveExtract
      ⟨[.reference h.config.objectType], none⟩]

/-- Records a field and renews its shadow. -/
def recordField (f : FieldDef) : List Instruction :=
  let string := FieldType.reference h.config.stringType
  let reference := FieldType.reference h.config.storageReferenceType
  [.load .reference 1, .loadThis,
    .getField h.config.storageRoot Names.storageReference reference,
    .string c.name, .string f.name, .string f.type.tag]
    ++ thisField c f.name f.type
    ++ [.invoke .virtual h.config.updateAccumulator Names.recordUpdate
      ⟨[reference, string, string, string, recordedType h f.type], none⟩]
    ++ [.loadThis] ++ thisField c f.name f.type
    ++ [.putField c.name (Names.shadow f.name) f.type]

/-- Reports a field if it differs from its shadow. -/
def updateField (f : FieldDef) : List Directive :=
  compareWithShadow c f
    ++ emitAll ((if h.isLeaf f.type then [] else recurseInto h c f) ++ recordField h c f)
    ++ [.label (unchangedLabel f)]

/-- The signature of the method that reports changed fields. -/
def extractSignature : Signature := ⟨[.reference h.config.updateAccumulator], none⟩

/-- Lets the superclass report its fields, then reports those of the class. -/
def extractBody (s : String) (fields : List FieldDef) : List Directive :=
  emitAll (if h.config.isPlatformRoot s then []
    else [.loadThis, .load .reference 1,
      .invoke .special s Names.extractUpdates (extractSignature h)])
    ++ fields.flatMap (updateField h c)
    ++ [.emit (.return none)]

def extractUpdates (k : Classification) : Except WeaveError MethodDef := do
  let s ← superclass c
  generated c Names.extractUpdates (extractSignature h)
    (extractBody h c s (k.ownEager ++ k.lazyFields))

/-! ## Adding members -/

/-- Adds the shadow of a field. -/
def addShadow (out : Draft) (f : FieldDef) : Except WeaveError Draft :=
  out.addField ⟨Names.shadow f.name, f.type, .generated⟩

/-- Adds the flag and the accessors of a lazy field. -/
def addLazy (out : Draft) (f : FieldDef) : Except WeaveError Draft := do
  let out ← out.addField ⟨Names.loadedFlag f.name, boolean, .generated⟩
  let out ← out.addMethod (← ensureLoaded h c f)
  let out ← out.addMethod (← getter c f)
  out.addMethod (← setter c f)

/-- Adds all members of a storage class. -/
def addMembers (k : Classification) (out : Draft) : Except WeaveError Draft := do
  let out ← (k.ownEager ++ k.lazyFields).foldlM addShadow out
  let out ← k.lazyFields.foldlM (addLazy h c) out
  let out ← out.addMethod (← constructor h c k)
  out.addMethod (← extractUpdates h c k)

/-- A class with all members of a storage class. -/
def augment (k : Classification) (out : ClassDef) : Except WeaveError ClassDef := do
  return (← addMembers h c k (.ofClass out)).toClass

end Augmentation

end StorageWeave.Weaving
