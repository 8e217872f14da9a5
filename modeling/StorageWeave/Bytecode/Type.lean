/-!
# Types of the stack machine

Declared types of fields, parameters and results, the kinds under which their values stand on the
operand stack, and method signatures. Sizes are counted in slots: `long` and `double` take two.
-/

namespace StorageWeave.Bytecode

/-- The primitive kinds, in their order. -/
inductive PrimitiveKind where
  | boolean
  | byte
  | char
  | short
  | int
  | long
  | float
  | double
  deriving DecidableEq, Repr

namespace PrimitiveKind

/-- All kinds, in their order. -/
def all : List PrimitiveKind := [boolean, byte, char, short, int, long, float, double]

/-- The place of a kind in the order. -/
def rank : PrimitiveKind → Nat
  | boolean => 0
  | byte => 1
  | char => 2
  | short => 3
  | int => 4
  | long => 5
  | float => 6
  | double => 7

/-- The number of slots of a value. -/
def size : PrimitiveKind → Nat
  | long => 2
  | double => 2
  | _ => 1

/-- Whether a value takes two slots. -/
def isWide (k : PrimitiveKind) : Bool := k.size = 2

/-- Whether values stand on the stack as an `int`. -/
def isIntLike : PrimitiveKind → Bool
  | boolean => true
  | byte => true
  | char => true
  | short => true
  | int => true
  | _ => false

/-- The name of a kind, which is also its tag. -/
def name : PrimitiveKind → String
  | boolean => "boolean"
  | byte => "byte"
  | char => "char"
  | short => "short"
  | int => "int"
  | long => "long"
  | float => "float"
  | double => "double"

end PrimitiveKind

/-- The kinds of values that instructions load, store and return. -/
inductive ValueKind where
  | int
  | long
  | float
  | double
  | reference
  deriving DecidableEq, Repr

namespace ValueKind

/-- The number of slots of a value. -/
def size : ValueKind → Nat
  | long => 2
  | double => 2
  | _ => 1

/-- Whether a value takes two slots. -/
def isWide (k : ValueKind) : Bool := k.size = 2

/-- The name of a kind in listings. -/
def name : ValueKind → String
  | int => "int"
  | long => "long"
  | float => "float"
  | double => "double"
  | reference => "ref"

end ValueKind

/-- The declared type of a field, a parameter or a result. -/
inductive FieldType where
  | primitive (kind : PrimitiveKind)
  | reference (className : String)
  deriving DecidableEq, Repr

namespace FieldType

/-- The number of slots of a value. -/
def size : FieldType → Nat
  | primitive kind => kind.size
  | reference _ => 1

/-- Whether a value takes two slots. -/
def isWide (t : FieldType) : Bool := t.size = 2

/-- Whether values are references. -/
def isReference : FieldType → Bool
  | primitive _ => false
  | reference _ => true

/-- The kind under which values are loaded, stored and returned. -/
def valueKind : FieldType → ValueKind
  | primitive .long => .long
  | primitive .float => .float
  | primitive .double => .double
  | primitive _ => .int
  | reference _ => .reference

/-- The tag of an update: the name of a primitive kind, or one tag for all references. -/
def tag : FieldType → String
  | primitive kind => kind.name
  | reference _ => "reference"

/-- The name of a type: the name of a primitive kind, or the class referred to. -/
def typeName : FieldType → String
  | primitive kind => kind.name
  | reference className => className

/-- The class referred to. -/
def className? : FieldType → Option String
  | primitive _ => none
  | reference className => some className

/-- Primitive kinds come in their order, before the references by class name. -/
def order : FieldType → FieldType → Ordering
  | primitive a, primitive b => compare a.rank b.rank
  | primitive _, reference _ => .lt
  | reference _, primitive _ => .gt
  | reference a, reference b => compare a b

/-- A value's size is the size of its kind on the stack. -/
theorem size_valueKind (t : FieldType) : t.valueKind.size = t.size := by
  cases t with
  | primitive kind => cases kind <;> rfl
  | reference _ => rfl

end FieldType

/-- The parameter types of a method and the type of its result, if it has one. -/
structure Signature where
  params : List FieldType
  ret : Option FieldType
  deriving DecidableEq, Repr

namespace Signature

/-- No parameters and no result. -/
def void : Signature := ⟨[], none⟩

/-- The slots of the parameters, without a receiver. -/
def paramSlots (s : Signature) : Nat := (s.params.map FieldType.size).foldr (· + ·) 0

/-- The slots of the result. -/
def returnSlots (s : Signature) : Nat := (s.ret.map FieldType.size).getD 0

/-- Whether there are neither parameters nor a result. -/
def isVoid (s : Signature) : Bool := s = void

/-- The signature with one more parameter at the end. -/
def withParam (s : Signature) (t : FieldType) : Signature := { s with params := s.params ++ [t] }

/-- The text of a signature: the parameters in brackets, then the result. -/
def render (s : Signature) : String :=
  "(" ++ ", ".intercalate (s.params.map FieldType.typeName) ++ ")"
    ++ (match s.ret with
      | none => ""
      | some t => " -> " ++ t.typeName)

/-- Type lists in lexicographic order. -/
def paramOrder : List FieldType → List FieldType → Ordering
  | [], [] => .eq
  | [], _ :: _ => .lt
  | _ :: _, [] => .gt
  | a :: as, b :: bs => (a.order b).then (paramOrder as bs)

/-- Signatures by their parameters, then by their results, none being least. -/
def order (s t : Signature) : Ordering :=
  (paramOrder s.params t.params).then <|
    match s.ret, t.ret with
    | none, none => .eq
    | none, some _ => .lt
    | some _, none => .gt
    | some a, some b => a.order b

@[simp] theorem paramSlots_withParam (s : Signature) (t : FieldType) :
    (s.withParam t).paramSlots = s.paramSlots + t.size := by
  rw [paramSlots, paramSlots, ← List.sum_eq_foldr, ← List.sum_eq_foldr]
  simp [withParam]

end Signature

end StorageWeave.Bytecode
