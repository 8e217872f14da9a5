import StorageWeave.Bytecode.Access
import StorageWeave.Bytecode.Code

/-!
# Classes

Classes with their fields and methods, as the weaver reads and writes them.
-/

namespace StorageWeave.Bytecode

/-- A mark on a method: the name of an annotation class and at most one argument. -/
structure Annotation where
  name : String
  argument : Option String := none
  deriving DecidableEq, Repr

/-- A declared field. -/
structure FieldDef where
  name : String
  type : FieldType
  access : Access := .none
  deriving DecidableEq, Repr

namespace FieldDef

def isStatic (f : FieldDef) : Bool := f.access.contains .static

def isTransient (f : FieldDef) : Bool := f.access.contains .transient

/-- Whether the field is state of an object that outlives the machine. -/
def isPersistent (f : FieldDef) : Bool := !f.isStatic && !f.isTransient

/-- Fields by name, then by type name, type and modifiers. -/
def order (f g : FieldDef) : Ordering :=
  (compare f.name g.name).then <| (compare f.type.typeName g.type.typeName).then <|
    (f.type.order g.type).then (compare f.access.bits.toNat g.access.bits.toNat)

/-- Whether `f` stands at or before `g` in the order. -/
def le (f g : FieldDef) : Bool := f.order g ≠ .gt

/-- The fields in their order, each once. -/
def sorted (fs : List FieldDef) : List FieldDef := (fs.mergeSort le).eraseReps

end FieldDef

/-- A declared method; one without code is abstract. -/
structure MethodDef where
  name : String
  signature : Signature
  access : Access := .none
  annotations : List Annotation := []
  code : Option Code := none
  deriving DecidableEq, Repr

namespace MethodDef

def isConstructor (m : MethodDef) : Bool := m.name = constructorName

def isStatic (m : MethodDef) : Bool := m.access.contains .static

def isPrivate (m : MethodDef) : Bool := m.access.contains .private

/-- The first annotation with a name. -/
def annotation? (m : MethodDef) (name : String) : Option Annotation :=
  m.annotations.find? fun a => a.name = name

/-- Whether the method has a name and a signature. -/
def isNamed (m : MethodDef) (name : String) (signature : Signature) : Bool :=
  m.name = name ∧ m.signature = signature

/-- The first local slot after the receiver and the parameters. -/
def firstFreeSlot (m : MethodDef) : Nat :=
  (if m.isStatic then 0 else 1) + m.signature.paramSlots

end MethodDef

/-- A class. -/
structure ClassDef where
  name : String
  superclass : Option String := none
  interfaces : List String := []
  access : Access := .none
  fields : List FieldDef := []
  methods : List MethodDef := []
  deriving DecidableEq, Repr

namespace ClassDef

def isInterface (c : ClassDef) : Bool := c.access.contains .interface

/-- The first field with a name. -/
def field? (c : ClassDef) (name : String) : Option FieldDef := c.fields.find? fun f => f.name = name

theorem mem_of_field? {c : ClassDef} {name : String} {f : FieldDef} (h : c.field? name = some f) :
    f ∈ c.fields ∧ f.name = name :=
  ⟨List.mem_of_find?_eq_some h, by simpa using List.find?_some h⟩

/-- The first method with a name and a signature. -/
def method? (c : ClassDef) (name : String) (signature : Signature) : Option MethodDef :=
  c.methods.find? fun m => m.isNamed name signature

theorem mem_of_method? {c : ClassDef} {name : String} {signature : Signature} {m : MethodDef}
    (h : c.method? name signature = some m) :
    m ∈ c.methods ∧ m.name = name ∧ m.signature = signature := by
  refine ⟨List.mem_of_find?_eq_some h, ?_⟩
  have named := List.find?_some h
  simpa [MethodDef.isNamed] using named

/-- The class without its methods. -/
def withoutMethods (c : ClassDef) : ClassDef := { c with methods := [] }

end ClassDef

end StorageWeave.Bytecode
