import StorageWeave.Bytecode.Instruction

/-!
# Values of the machine

A value takes one place on the operand stack, whatever its size in slots. Operations that have no
result fail with a `Fault`.
-/

namespace StorageWeave.Machine

open Bytecode Numeric

/-- Why execution stops. -/
inductive Fault where
  | stackUnderflow
  | typeMismatch (expected : String)
  | uninitializedLocal (slot : UInt16)
  | invalidReference
  | noSuchMethod (method : String)
  | unsupported (what : String)
  | fellOffCode
  | thrown
  | stepLimit
  /-- A hook of the platform needs an argument that the call does not have. -/
  | missingArgument
  /-- The arguments of a call take more slots than a frame has. -/
  | tooManyArguments
  /-- The superclasses of a class form a cycle without the method. -/
  | endlessDispatch
  deriving DecidableEq, Repr

/-- The wording of a fault. -/
def Fault.message : Fault → String
  | .stackUnderflow => "Stack underflow"
  | .typeMismatch expected => "Type mismatch: expected " ++ expected
  | .uninitializedLocal slot => "Uninitialized local " ++ natText slot.toNat
  | .invalidReference => "Invalid object reference"
  | .noSuchMethod method => "No method " ++ method
  | .unsupported what => "Unsupported instruction: " ++ what
  | .fellOffCode => "Control left the code"
  | .thrown => "Exception thrown"
  | .stepLimit => "Step limit exceeded"
  | .missingArgument => "Missing argument"
  | .tooManyArguments => "Too many arguments"
  | .endlessDispatch => "Endless dispatch"

/-- A value; objects are given by their place on the heap. -/
inductive Value where
  | null
  | int (v : Int32)
  | long (v : Int64)
  | float (v : Binary32)
  | double (v : Binary64)
  | str (s : String)
  | object (id : Nat)
  deriving DecidableEq, Repr

namespace Value

/-- The value of a field that was never written. -/
def ofType (t : FieldType) : Value :=
  match t.valueKind with
  | .int => .int 0
  | .long => .long 0
  | .float => .float .zero
  | .double => .double .zero
  | .reference => .null

/-- The value of a constant. -/
def ofConstant : Constant → Value
  | .null => .null
  | .int v => .int v
  | .long v => .long v
  | .float v => .float v
  | .double v => .double v
  | .string s => .str s

/-- The number of slots of a value. -/
def size : Value → Nat
  | .long _ => 2
  | .double _ => 2
  | _ => 1

/-- Equality as branches on references see it: numbers by their value, texts by their characters. -/
def equals : Value → Value → Bool
  | .null, .null => true
  | .int a, .int b => a = b
  | .long a, .long b => a = b
  | .float a, .float b => a.equals b
  | .double a, .double b => a.equals b
  | .str a, .str b => a = b
  | .object a, .object b => a = b
  | _, _ => false

/-- The number of an `int`. -/
def toInt : Value → Except Fault Int32
  | .int v => .ok v
  | _ => .error (.typeMismatch "int")

/-- The characters of a text. -/
def toText : Value → Except Fault String
  | .str s => .ok s
  | _ => .error (.typeMismatch "string")

end Value

/-- Whether a condition holds of the order of two numbers. -/
def holds : Condition → Ordering → Bool
  | .eq, o => o = .eq
  | .ne, o => o ≠ .eq
  | .lt, o => o = .lt
  | .ge, o => o ≠ .lt
  | .gt, o => o = .gt
  | .le, o => o ≠ .gt

/-- The name of a condition in faults. -/
def conditionName : Condition → String
  | .eq => "Eq"
  | .ne => "Ne"
  | .lt => "Lt"
  | .ge => "Ge"
  | .gt => "Gt"
  | .le => "Le"

/-- The name of an operator in faults. -/
def operatorName : ArithOp → String
  | .add => "Add"
  | .sub => "Sub"
  | .mul => "Mul"
  | .div => "Div"
  | .rem => "Rem"
  | .and => "And"
  | .or => "Or"
  | .xor => "Xor"

/-- Operators on `int`; they wrap, and a quotient that is no `int` is thrown. -/
def intArithmetic (op : ArithOp) (a b : Int32) : Except Fault Int32 :=
  let undefined := b = 0 ∨ (a = Int32.minValue ∧ b = -1)
  match op with
  | .add => .ok (a + b)
  | .sub => .ok (a - b)
  | .mul => .ok (a * b)
  | .div => if undefined then .error .thrown else .ok (a / b)
  | .rem => if undefined then .error .thrown else .ok (a % b)
  | .and => .ok (a &&& b)
  | .or => .ok (a ||| b)
  | .xor => .ok (a ^^^ b)

/-- Operators on `long`; they wrap, and a quotient that is no `long` is thrown. -/
def longArithmetic (op : ArithOp) (a b : Int64) : Except Fault Int64 :=
  let undefined := b = 0 ∨ (a = Int64.minValue ∧ b = -1)
  match op with
  | .add => .ok (a + b)
  | .sub => .ok (a - b)
  | .mul => .ok (a * b)
  | .div => if undefined then .error .thrown else .ok (a / b)
  | .rem => if undefined then .error .thrown else .ok (a % b)
  | .and => .ok (a &&& b)
  | .or => .ok (a ||| b)
  | .xor => .ok (a ^^^ b)

/-- Operators on `double`. -/
def doubleArithmetic (op : ArithOp) (a b : Binary64) : Except Fault Binary64 :=
  match op with
  | .add => .ok (a.add b)
  | .sub => .ok (a.sub b)
  | .mul => .ok (a.mul b)
  | .div => .ok (a.div b)
  | _ => .error (.unsupported (operatorName op ++ " on doubles"))

/-- Operators on two values of one kind. -/
def arithmetic (op : ArithOp) : Value → Value → Except Fault Value
  | .int a, .int b => (intArithmetic op a b).map .int
  | .long a, .long b => (longArithmetic op a b).map .long
  | .double a, .double b => (doubleArithmetic op a b).map .double
  | _, _ => .error (.typeMismatch "matching numeric operands")

/-- An order as a number. -/
def orderValue : Ordering → Int32
  | .lt => -1
  | .eq => 0
  | .gt => 1

/-- The order of two numbers; with a NaN it is `gt`. -/
def compareValues : Value → Value → Except Fault Value
  | .long a, .long b => .ok (.int (orderValue (compare a.toInt b.toInt)))
  | .float a, .float b => .ok (.int (orderValue ((a.compare? b).getD .gt)))
  | .double a, .double b => .ok (.int (orderValue ((a.compare? b).getD .gt)))
  | _, _ => .error (.typeMismatch "long, float or double")

/-- The bits of a floating-point number as an integer. -/
def rawBits : PrimitiveKind → Value → Except Fault Value
  | .float, .float x => .ok (.int x.bits.toInt32)
  | .double, .double x => .ok (.long x.bits.toInt64)
  | _, _ => .error (.typeMismatch "float or double")

/-- Whether a branch on two values is taken. -/
def comparisonHolds (kind : ValueKind) (condition : Condition) (a b : Value) : Except Fault Bool :=
  match kind with
  | .reference =>
    match condition with
    | .eq => .ok (a.equals b)
    | .ne => .ok (!a.equals b)
    | _ => .error (.unsupported (conditionName condition ++ " on references"))
  | _ => do
    let x ← a.toInt
    let y ← b.toInt
    return holds condition (compare x.toInt y.toInt)

end StorageWeave.Machine
