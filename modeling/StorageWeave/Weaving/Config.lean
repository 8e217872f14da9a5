import StorageWeave.Json.Printer
import StorageWeave.Json.Record

/-!
# Configuration

The names of the platform types that woven code talks to, and the rules that decide which fields are
loaded on demand and which declarations stop the inheritance of annotations.
-/

namespace StorageWeave.Weaving

open Json (defaulted)

/-- The declarations that stop the inheritance of annotations. -/
inductive ShadowingRule where
  /-- Private ones. -/
  | privateOnly
  /-- Private ones and those without an access modifier. -/
  | privateOrPackage
  deriving DecidableEq, Repr

/-- The configuration of the weaver. -/
structure Config where
  /-- The superclass of all storage classes. -/
  storageRoot : String := "runtime.Storage"
  /-- The superclass of all contracts, and the type of callers. -/
  contractRoot : String := "runtime.Contract"
  /-- What updates are reported to. -/
  updateAccumulator : String := "runtime.Updates"
  /-- The identity of a persisted object. -/
  storageReferenceType : String := "runtime.StorageReference"
  stringType : String := "lang.String"
  objectType : String := "lang.Object"
  entryAnnotation : String := "runtime.Entry"
  payableAnnotation : String := "runtime.Payable"
  /-- Reference types that are loaded with the object, like primitives. -/
  eagerReferenceTypes : List String := ["lang.BigInteger"]
  /-- Reference types whose values reach no further storage objects. -/
  immutableLeafTypes : List String := ["lang.String", "lang.BigInteger"]
  shadowingRule : ShadowingRule := .privateOnly
  deriving DecidableEq, Repr

namespace Config

/-- Whether a class ends the ancestor walk of storage classes. -/
def isPlatformRoot (c : Config) (name : String) : Bool :=
  name = c.storageRoot ∨ name = c.contractRoot

/-! ## Documents -/

/-- The name of a rule in documents. -/
def ruleName : ShadowingRule → String
  | .privateOnly => "private"
  | .privateOrPackage => "private_or_package"

/-- Reads the name of a rule. -/
def rule? (j : Json) : Option ShadowingRule :=
  match j.bareChoice? .document with
  | some "private" => some .privateOnly
  | some "private_or_package" => some .privateOrPackage
  | _ => none

/-- A list of names. -/
def namesJson (names : List String) : Json := .array (names.map .text)

def toJson (c : Config) : Json :=
  .record [("storage_root", .text c.storageRoot), ("contract_root", .text c.contractRoot),
    ("update_accumulator", .text c.updateAccumulator),
    ("storage_reference_type", .text c.storageReferenceType),
    ("string_type", .text c.stringType), ("object_type", .text c.objectType),
    ("entry_annotation", .text c.entryAnnotation),
    ("payable_annotation", .text c.payableAnnotation),
    ("eager_reference_types", namesJson c.eagerReferenceTypes),
    ("immutable_leaf_types", namesJson c.immutableLeafTypes),
    ("shadowing_rule", .text (ruleName c.shadowingRule))]

/-- The members of a configuration document, in their order. -/
def documentKeys : List String :=
  ["storage_root", "contract_root", "update_accumulator", "storage_reference_type", "string_type",
    "object_type", "entry_annotation", "payable_annotation", "eager_reference_types",
    "immutable_leaf_types", "shadowing_rule"]

/-- Reads a configuration; every member may be missing. -/
def ofJson? (j : Json) : Option Config := do
  let standard : Config := {}
  match ← j.fields? documentKeys with
  | [storageRoot, contractRoot, updateAccumulator, storageReferenceType, stringType, objectType,
      entryAnnotation, payableAnnotation, eagerReferenceTypes, immutableLeafTypes,
      shadowingRule] =>
    return {
      storageRoot := ← defaulted Json.text? standard.storageRoot storageRoot
      contractRoot := ← defaulted Json.text? standard.contractRoot contractRoot
      updateAccumulator := ← defaulted Json.text? standard.updateAccumulator updateAccumulator
      storageReferenceType :=
        ← defaulted Json.text? standard.storageReferenceType storageReferenceType
      stringType := ← defaulted Json.text? standard.stringType stringType
      objectType := ← defaulted Json.text? standard.objectType objectType
      entryAnnotation := ← defaulted Json.text? standard.entryAnnotation entryAnnotation
      payableAnnotation := ← defaulted Json.text? standard.payableAnnotation payableAnnotation
      eagerReferenceTypes :=
        ← defaulted (Json.list? Json.text?) standard.eagerReferenceTypes eagerReferenceTypes
      immutableLeafTypes :=
        ← defaulted (Json.list? Json.text?) standard.immutableLeafTypes immutableLeafTypes
      shadowingRule := ← defaulted rule? standard.shadowingRule shadowingRule }
  | _ => none

/-- Why a configuration file cannot be used. -/
inductive FileError where
  /-- The file cannot be read, or is no text. -/
  | io
  /-- The text is no configuration. -/
  | parse
  deriving DecidableEq, Repr

/-- Reads a configuration file; `none` stands for a file that cannot be read. -/
def ofFile (content : Option Bytes) : Except FileError Config :=
  match content with
  | none => .error .io
  | some bytes =>
    match Bytes.text? bytes with
    | none => .error .io
    | some _ =>
      match (Json.parse? bytes).bind ofJson? with
      | none => .error .parse
      | some c => .ok c

end Config

end StorageWeave.Weaving
