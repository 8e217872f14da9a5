import StorageWeave.Bytecode.Class
import StorageWeave.Json.Number
import StorageWeave.Json.Printer

/-!
# Class documents, written

A class is stored as a JSON document. Members stand in a fixed order; an absent annotation argument,
an empty list of interfaces or annotations and the code of an abstract method are left out.
-/

namespace StorageWeave.Bytecode

/-- The name of a kind in documents. -/
def ValueKind.documentName : ValueKind → String
  | .int => "int"
  | .long => "long"
  | .float => "float"
  | .double => "double"
  | .reference => "reference"

/-- The name of a dispatch mode in documents. -/
def InvokeKind.documentName : InvokeKind → String
  | .virtual => "virtual"
  | .special => "special"
  | .static => "static"
  | .interface => "interface"

/-- The name of a condition in documents. -/
def Condition.documentName : Condition → String
  | .eq => "eq"
  | .ne => "ne"
  | .lt => "lt"
  | .ge => "ge"
  | .gt => "gt"
  | .le => "le"

/-- The name of an operator in documents. -/
def ArithOp.documentName : ArithOp → String
  | .add => "add"
  | .sub => "sub"
  | .mul => "mul"
  | .div => "div"
  | .rem => "rem"
  | .and => "and"
  | .or => "or"
  | .xor => "xor"

def PrimitiveKind.toJson (k : PrimitiveKind) : Json := .text k.name

def ValueKind.toJson (k : ValueKind) : Json := .text k.documentName

def InvokeKind.toJson (k : InvokeKind) : Json := .text k.documentName

def Condition.toJson (c : Condition) : Json := .text c.documentName

def ArithOp.toJson (op : ArithOp) : Json := .text op.documentName

def FieldType.toJson : FieldType → Json
  | .primitive kind => .record [("primitive", kind.toJson)]
  | .reference className => .record [("reference", .text className)]

def Signature.toJson (s : Signature) : Json :=
  .record [("params", .array (s.params.map FieldType.toJson)),
    ("ret", .ofOption FieldType.toJson s.ret)]

def Constant.toJson : Constant → Json
  | .null => .text "null"
  | .int v => .record [("int", .ofInt v.toInt)]
  | .long v => .record [("long", .ofInt v.toInt)]
  | .float v => .record [("float", .ofBinary32 v)]
  | .double v => .record [("double", .ofBinary64 v)]
  | .string s => .record [("string", .text s)]

/-- A branch target. -/
def targetJson (t : Target) : Json := .ofNat t.toNat

/-- A local slot. -/
def slotJson (slot : UInt16) : Json := .ofNat slot.toNat

/-- The operands of a field access. -/
def fieldOperands (owner name : String) (type : FieldType) : List (String × Json) :=
  [("owner", .text owner), ("name", .text name), ("ty", type.toJson)]

/-- The name of an instruction in documents and its operands. -/
def Instruction.document : Instruction → String × List (String × Json)
  | .load kind slot => ("load", [("kind", kind.toJson), ("slot", slotJson slot)])
  | .store kind slot => ("store", [("kind", kind.toJson), ("slot", slotJson slot)])
  | .increment slot delta => ("increment", [("slot", slotJson slot), ("delta", .ofInt delta.toInt)])
  | .const value => ("const", [("value", value.toJson)])
  | .getField owner name type => ("get_field", fieldOperands owner name type)
  | .putField owner name type => ("put_field", fieldOperands owner name type)
  | .getStatic owner name type => ("get_static", fieldOperands owner name type)
  | .putStatic owner name type => ("put_static", fieldOperands owner name type)
  | .invoke kind owner name signature =>
    ("invoke", [("kind", kind.toJson), ("owner", .text owner), ("name", .text name),
      ("signature", signature.toJson)])
  | .new className => ("new", [("class", .text className)])
  | .checkCast className => ("check_cast", [("class", .text className)])
  | .dup => ("dup", [])
  | .pop => ("pop", [])
  | .arithmetic op kind => ("arithmetic", [("op", op.toJson), ("kind", kind.toJson)])
  | .compare kind => ("compare", [("kind", kind.toJson)])
  | .rawBits kind => ("raw_bits", [("kind", kind.toJson)])
  | .goto target => ("goto", [("target", targetJson target)])
  | .branchIf condition target =>
    ("if", [("cond", condition.toJson), ("target", targetJson target)])
  | .branchIfCompare kind condition target =>
    ("if_cmp", [("kind", kind.toJson), ("cond", condition.toJson), ("target", targetJson target)])
  | .branchIfNull isNull target =>
    ("if_null", [("is_null", .bool isNull), ("target", targetJson target)])
  | .switch targets default =>
    ("switch", [("targets", .array (targets.map targetJson)), ("default", targetJson default)])
  | .return kind => ("return", [("kind", .ofOption ValueKind.toJson kind)])
  | .throw => ("throw", [])

def Instruction.toJson (i : Instruction) : Json :=
  let (opcode, operands) := i.document
  .record (("opcode", .text opcode) :: operands)

def Code.toJson (code : Code) : Json := .array (code.map Instruction.toJson)

def Access.toJson (a : Access) : Json := .text a.render

/-- A member that is left out when it is absent. -/
def memberIf {α : Type} (key : String) (write : α → Json) : Option α → List (String × Json)
  | none => []
  | some a => [(key, write a)]

/-- A member that is left out when it is empty. -/
def memberUnlessEmpty {α : Type} (key : String) (write : α → Json) :
    List α → List (String × Json)
  | [] => []
  | as => [(key, .array (as.map write))]

def Annotation.toJson (a : Annotation) : Json :=
  .record ([("name", .text a.name)] ++ memberIf "argument" .text a.argument)

def FieldDef.toJson (f : FieldDef) : Json :=
  .record [("name", .text f.name), ("ty", f.type.toJson), ("access", f.access.toJson)]

def MethodDef.toJson (m : MethodDef) : Json :=
  .record ([("name", .text m.name), ("signature", m.signature.toJson),
    ("access", m.access.toJson)] ++ memberUnlessEmpty "annotations" Annotation.toJson m.annotations
    ++ memberIf "code" Code.toJson m.code)

def ClassDef.toJson (c : ClassDef) : Json :=
  .record ([("name", .text c.name), ("superclass", .ofOption .text c.superclass)]
    ++ memberUnlessEmpty "interfaces" .text c.interfaces
    ++ [("access", c.access.toJson), ("fields", .array (c.fields.map FieldDef.toJson)),
      ("methods", .array (c.methods.map MethodDef.toJson))])

/-- The stored form of a class. -/
def ClassDef.toBytes (c : ClassDef) : Bytes := Bytes.ofText c.toJson.render

end StorageWeave.Bytecode
