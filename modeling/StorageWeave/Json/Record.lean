import StorageWeave.Json.Number

/-!
# Reading records and choices

A record is written as an object or as the array of its fields in their order. Unknown members of
an object are skipped whatever they hold, a known one may stand only once, and an array may leave
out fields at its end. A choice without a payload is written as its name or as an object with that
one key.
-/

namespace StorageWeave.Json

/-- The value of a key, `none` when it stands twice. -/
def member? (members : List (Text × Json)) (key : String) : Option (Option Json) :=
  match members.filter fun m => m.1 = some key with
  | [] => some none
  | [m] => some (some m.2)
  | _ => none

/-- The values of a record's fields in their order, where they are given. -/
def fields? (keys : List String) : Json → Option (List (Option Json))
  | .object members =>
    if members.any fun m => m.1.isNone then none else keys.mapM (member? members)
  | .array elements =>
    if elements.length ≤ keys.length then
      some (elements.map some ++ List.replicate (keys.length - elements.length) none)
    else none
  | _ => none

/-- A field that must be given. -/
def required {α : Type} (read : Json → Option α) : Option Json → Option α
  | none => none
  | some j => read j

/-- A field that has a value when it is not given. -/
def defaulted {α : Type} (read : Json → Option α) (default : α) : Option Json → Option α
  | none => some default
  | some j => read j

/-- A value that may be null. -/
def nullable {α : Type} (read : Json → Option α) : Json → Option (Option α)
  | .null => some none
  | j => (read j).map some

/-- The text of a string. -/
def text? : Json → Option String
  | .string s => s
  | _ => none

/-- A truth value. -/
def bool? : Json → Option Bool
  | .bool b => some b
  | _ => none

/-- A list whose elements can all be read. -/
def list? {α : Type} (read : Json → Option α) : Json → Option (List α)
  | .array elements => elements.mapM read
  | _ => none

/-- Where a value stands: in a document, or among the operands of an instruction. -/
inductive Place where
  | document
  | operand
  deriving DecidableEq, Repr

/-- An absent payload; among operands an empty object stands for one too. -/
def Place.isAbsent : Place → Json → Bool
  | _, .null => true
  | .operand, .object [] => true
  | _, _ => false

/-- The name of a choice and its payload, if one is written. -/
def choice? : Json → Option (String × Option Json)
  | .string (some s) => some (s, none)
  | .object [(some s, payload)] => some (s, some payload)
  | _ => none

/-- The name of a choice without a payload. -/
def bareChoice? (p : Place) (j : Json) : Option String :=
  match choice? j with
  | some (s, none) => some s
  | some (s, some payload) => if p.isAbsent payload then some s else none
  | none => none

/-! ## Values that are kept whole -/

mutual

/-- Whether every string has a text and every number is in range. -/
def isSound : Json → Bool
  | .number n => n.number?.isSome
  | .string s => s.isSome
  | .array elements => elementsSound elements
  | .object members => membersSound members
  | _ => true

/-- Whether every element is sound. -/
def elementsSound : List Json → Bool
  | [] => true
  | v :: rest => isSound v && elementsSound rest

/-- Whether every key has a text and every value is sound. -/
def membersSound : List (Text × Json) → Bool
  | [] => true
  | (k, v) :: rest => k.isSome && isSound v && membersSound rest

end

end StorageWeave.Json
