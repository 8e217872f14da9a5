import StorageWeave.Bytecode.Class
import StorageWeave.Json.Record

/-!
# Class documents, read

Reading accepts what is written and more: records as arrays, members in any order and unknown
members. An instruction names its opcode among its operands, so it is taken whole before its
operands are read: everything in it has to be sound, and containers may nest only so deep.
-/

namespace StorageWeave.Bytecode

open Json (Place required defaulted nullable)

/-- Reads one of several named choices. -/
def choiceOf? {α : Type} (choices : List (String × α)) (p : Place) (j : Json) : Option α :=
  (Json.bareChoice? p j).bind fun s => (choices.find? fun c => c.1 = s).map Prod.snd

def PrimitiveKind.ofJson? (p : Place) (j : Json) : Option PrimitiveKind :=
  choiceOf? (PrimitiveKind.all.map fun k => (k.name, k)) p j

def ValueKind.ofJson? : Place → Json → Option ValueKind :=
  choiceOf? [("int", .int), ("long", .long), ("float", .float), ("double", .double),
    ("reference", .reference)]

def InvokeKind.ofJson? : Place → Json → Option InvokeKind :=
  choiceOf? [("virtual", .virtual), ("special", .special), ("static", .static),
    ("interface", .interface)]

def Condition.ofJson? : Place → Json → Option Condition :=
  choiceOf? [("eq", .eq), ("ne", .ne), ("lt", .lt), ("ge", .ge), ("gt", .gt), ("le", .le)]

def ArithOp.ofJson? : Place → Json → Option ArithOp :=
  choiceOf? [("add", .add), ("sub", .sub), ("mul", .mul), ("div", .div), ("rem", .rem),
    ("and", .and), ("or", .or), ("xor", .xor)]

def FieldType.ofJson? (p : Place) (j : Json) : Option FieldType :=
  match Json.choice? j with
  | some ("primitive", some payload) => (PrimitiveKind.ofJson? p payload).map .primitive
  | some ("reference", some payload) => payload.text?.map .reference
  | _ => none

def Signature.ofJson? (p : Place) (j : Json) : Option Signature := do
  match ← j.fields? ["params", "ret"] with
  | [params, ret] =>
    return ⟨← required (Json.list? (FieldType.ofJson? p)) params,
      ← defaulted (nullable (FieldType.ofJson? p)) none ret⟩
  | _ => none

def Constant.ofJson? (p : Place) (j : Json) : Option Constant :=
  match Json.choice? j with
  | some ("null", none) => some .null
  | some ("null", some payload) => if p.isAbsent payload then some .null else none
  | some ("int", some payload) => payload.int32?.map .int
  | some ("long", some payload) => payload.int64?.map .long
  | some ("float", some payload) => payload.binary32?.map .float
  | some ("double", some payload) => payload.binary64?.map .double
  | some ("string", some payload) => payload.text?.map .string
  | _ => none

namespace Instruction

/-- The values of an instruction's operands in their order, where they are given. -/
abbrev Operands : Type := List (Option Json)

/-- Reads the operands of an access to a field. -/
def ofFieldOperands? (make : String → String → FieldType → Instruction) :
    Operands → Option Instruction
  | [owner, name, type] => do
    return make (← required Json.text? owner) (← required Json.text? name)
      (← required (FieldType.ofJson? .operand) type)
  | _ => none

/-- The keys of the operands of each opcode. -/
def operandKeys? (opcode : String) : Option (List String) :=
  match opcode with
  | "load" => some ["kind", "slot"]
  | "store" => some ["kind", "slot"]
  | "increment" => some ["slot", "delta"]
  | "const" => some ["value"]
  | "get_field" => some ["owner", "name", "ty"]
  | "put_field" => some ["owner", "name", "ty"]
  | "get_static" => some ["owner", "name", "ty"]
  | "put_static" => some ["owner", "name", "ty"]
  | "invoke" => some ["kind", "owner", "name", "signature"]
  | "new" => some ["class"]
  | "check_cast" => some ["class"]
  | "dup" => some []
  | "pop" => some []
  | "arithmetic" => some ["op", "kind"]
  | "compare" => some ["kind"]
  | "raw_bits" => some ["kind"]
  | "goto" => some ["target"]
  | "if" => some ["cond", "target"]
  | "if_cmp" => some ["kind", "cond", "target"]
  | "if_null" => some ["is_null", "target"]
  | "switch" => some ["targets", "default"]
  | "return" => some ["kind"]
  | "throw" => some []
  | _ => none

/-- Reads the operands of an opcode. -/
def ofOperands? (opcode : String) (operands : Operands) : Option Instruction :=
  match opcode, operands with
  | "load", [kind, slot] => do
    return .load (← required (ValueKind.ofJson? .operand) kind) (← required Json.uint16? slot)
  | "store", [kind, slot] => do
    return .store (← required (ValueKind.ofJson? .operand) kind) (← required Json.uint16? slot)
  | "increment", [slot, delta] => do
    return .increment (← required Json.uint16? slot) (← required Json.int32? delta)
  | "const", [value] => do
    return .const (← required (Constant.ofJson? .operand) value)
  | "get_field", operands => ofFieldOperands? .getField operands
  | "put_field", operands => ofFieldOperands? .putField operands
  | "get_static", operands => ofFieldOperands? .getStatic operands
  | "put_static", operands => ofFieldOperands? .putStatic operands
  | "invoke", [kind, owner, name, signature] => do
    return .invoke (← required (InvokeKind.ofJson? .operand) kind) (← required Json.text? owner)
      (← required Json.text? name) (← required (Signature.ofJson? .operand) signature)
  | "new", [className] => do
    return .new (← required Json.text? className)
  | "check_cast", [className] => do
    return .checkCast (← required Json.text? className)
  | "dup", [] => some .dup
  | "pop", [] => some .pop
  | "arithmetic", [op, kind] => do
    return .arithmetic (← required (ArithOp.ofJson? .operand) op)
      (← required (ValueKind.ofJson? .operand) kind)
  | "compare", [kind] => do
    return .compare (← required (ValueKind.ofJson? .operand) kind)
  | "raw_bits", [kind] => do
    return .rawBits (← required (PrimitiveKind.ofJson? .operand) kind)
  | "goto", [target] => do
    return .goto (← required Json.uint64? target)
  | "if", [condition, target] => do
    return .branchIf (← required (Condition.ofJson? .operand) condition)
      (← required Json.uint64? target)
  | "if_cmp", [kind, condition, target] => do
    return .branchIfCompare (← required (ValueKind.ofJson? .operand) kind)
      (← required (Condition.ofJson? .operand) condition) (← required Json.uint64? target)
  | "if_null", [isNull, target] => do
    return .branchIfNull (← required Json.bool? isNull) (← required Json.uint64? target)
  | "switch", [targets, default] => do
    return .switch (← required (Json.list? Json.uint64?) targets) (← required Json.uint64? default)
  | "return", [kind] => do
    return .return (← defaulted (nullable (ValueKind.ofJson? .operand)) none kind)
  | "throw", [] => some .throw
  | _, _ => none

/-- How deep containers may nest, from the outermost one of a document. -/
def maxDepth : Nat := 127

/-- The opcode of an instruction and the rest of it. -/
def split? : Json → Option (String × Json)
  | .object members => do
    let opcode ← required Json.text? (← Json.member? members "opcode")
    return (opcode, .object (members.filter fun m => m.1 ≠ some "opcode"))
  | .array (opcode :: rest) => do
    return (← opcode.text?, .array rest)
  | _ => none

/-- An array names all operands of an instruction. -/
def isComplete (keys : List String) : Json → Bool
  | .array elements => elements.length = keys.length
  | _ => true

/-- Reads an instruction inside `outer` containers. -/
def ofJson? (outer : Nat) (j : Json) : Option Instruction := do
  if j.isSound ∧ outer + j.depth ≤ maxDepth then
    let (opcode, rest) ← split? j
    let keys ← operandKeys? opcode
    if isComplete keys rest then
      ofOperands? opcode (← rest.fields? keys)
    else none
  else none

end Instruction

/-- Reads code inside `outer` containers. -/
def Code.ofJson? (outer : Nat) : Json → Option Code :=
  Json.list? (Instruction.ofJson? (outer + 1))

def Access.ofJson? (j : Json) : Option Access := j.text?.bind Access.read?

def Annotation.ofJson? (j : Json) : Option Annotation := do
  match ← j.fields? ["name", "argument"] with
  | [name, argument] =>
    return ⟨← required Json.text? name, ← defaulted (nullable Json.text?) none argument⟩
  | _ => none

def FieldDef.ofJson? (j : Json) : Option FieldDef := do
  match ← j.fields? ["name", "ty", "access"] with
  | [name, type, access] =>
    return ⟨← required Json.text? name, ← required (FieldType.ofJson? .document) type,
      ← defaulted Access.ofJson? .none access⟩
  | _ => none

/-- Reads a method inside `outer` containers. -/
def MethodDef.ofJson? (outer : Nat) (j : Json) : Option MethodDef := do
  match ← j.fields? ["name", "signature", "access", "annotations", "code"] with
  | [name, signature, access, annotations, code] =>
    return ⟨← required Json.text? name, ← required (Signature.ofJson? .document) signature,
      ← defaulted Access.ofJson? .none access,
      ← defaulted (Json.list? Annotation.ofJson?) [] annotations,
      ← defaulted (nullable (Code.ofJson? (outer + 1))) none code⟩
  | _ => none

def ClassDef.ofJson? (j : Json) : Option ClassDef := do
  match ← j.fields? ["name", "superclass", "interfaces", "access", "fields", "methods"] with
  | [name, superclass, interfaces, access, fields, methods] =>
    return ⟨← required Json.text? name, ← defaulted (nullable Json.text?) none superclass,
      ← defaulted (Json.list? Json.text?) [] interfaces,
      ← defaulted Access.ofJson? .none access,
      ← defaulted (Json.list? FieldDef.ofJson?) [] fields,
      ← defaulted (Json.list? (MethodDef.ofJson? 2)) [] methods⟩
  | _ => none

/-- Reads the stored form of a class. -/
def ClassDef.ofBytes? (b : Bytes) : Option ClassDef := (Json.parse? b).bind ClassDef.ofJson?

end StorageWeave.Bytecode
