import StorageWeave.Bytecode.Type
import StorageWeave.Numeric.Shortest
import StorageWeave.Text.Quoted

/-!
# Instructions

The instruction set of the stack machine. Each instruction declares its effect on the operand
stack, in slots, and how control leaves it. Branch targets are positions in the code the instruction
stands in, kept as words because code is stored with them.
-/

namespace StorageWeave.Bytecode

open Numeric

/-- The name that all constructors share. -/
def constructorName : String := "<init>"

/-- A constant operand. -/
inductive Constant where
  | null
  | int (value : Int32)
  | long (value : Int64)
  | float (value : Binary32)
  | double (value : Binary64)
  | string (value : String)
  deriving DecidableEq, Repr

/-- How a call finds its method. -/
inductive InvokeKind where
  /-- By the class of the receiver. -/
  | virtual
  /-- Directly: constructors, private methods and calls of a superclass. -/
  | special
  /-- Directly and without a receiver. -/
  | static
  /-- By the class of the receiver, through an interface. -/
  | interface
  deriving DecidableEq, Repr

/-- The condition of a branch. -/
inductive Condition where
  | eq
  | ne
  | lt
  | ge
  | gt
  | le
  deriving DecidableEq, Repr

/-- A binary operator. -/
inductive ArithOp where
  | add
  | sub
  | mul
  | div
  | rem
  | and
  | or
  | xor
  deriving DecidableEq, Repr

/-- A branch target. -/
abbrev Target : Type := UInt64

/-- An instruction. -/
inductive Instruction where
  | load (kind : ValueKind) (slot : UInt16)
  | store (kind : ValueKind) (slot : UInt16)
  | increment (slot : UInt16) (delta : Int32)
  | const (value : Constant)
  | getField (owner name : String) (type : FieldType)
  | putField (owner name : String) (type : FieldType)
  | getStatic (owner name : String) (type : FieldType)
  | putStatic (owner name : String) (type : FieldType)
  | invoke (kind : InvokeKind) (owner name : String) (signature : Signature)
  | new (className : String)
  | checkCast (className : String)
  | dup
  | pop
  | arithmetic (op : ArithOp) (kind : ValueKind)
  | compare (kind : ValueKind)
  | rawBits (kind : PrimitiveKind)
  | goto (target : Target)
  | branchIf (condition : Condition) (target : Target)
  | branchIfCompare (kind : ValueKind) (condition : Condition) (target : Target)
  | branchIfNull (isNull : Bool) (target : Target)
  | switch (targets : List Target) (default : Target)
  | return (kind : Option ValueKind)
  | throw
  deriving DecidableEq, Repr

/-- The slots an instruction takes from the operand stack and the slots it leaves there. -/
structure StackEffect where
  pops : Nat
  pushes : Nat
  deriving DecidableEq, Repr

/-- How control leaves an instruction. -/
inductive Control where
  | fallThrough
  | jump (target : Target)
  /-- To the next instruction or to the target. -/
  | branch (target : Target)
  | indirect (targets : List Target)
  | exit
  deriving DecidableEq, Repr

/-! ## Operands -/

/-- The slots of a constant. -/
def Constant.size : Constant → Nat
  | .long _ => 2
  | .double _ => 2
  | _ => 1

/-- The digits of a decimal around its point, without an exponent and without an empty fraction. -/
def plainDecimal (d : Decimal) : String :=
  if d.exponent < 0 then
    "0." ++ digitText (List.replicate (-d.exponent - 1).toNat Digit.zero ++ d.digits)
  else
    let places := d.exponent.toNat + 1
    let fraction := d.digits.drop places
    digitText (d.digits.take places ++ List.replicate (places - d.digits.length) Digit.zero)
      ++ (if fraction.isEmpty then "" else "." ++ digitText fraction)

/-- The text of a binary number in listings: its shortest digits, of two equally near the larger. -/
def datumText (f : Format) : Datum → String
  | .nan => "NaN"
  | .infinite negative => if negative then "-inf" else "inf"
  | .finite negative m q =>
    (if negative then "-" else "") ++ (if m = 0 then "0" else plainDecimal (f.shortest .up m q))

/-- The text of a constant in listings. -/
def Constant.render : Constant → String
  | .null => "null"
  | .int v => intText v.toInt
  | .long v => intText v.toInt ++ "L"
  | .float v => datumText .binary32 v.datum ++ "F"
  | .double v => datumText .binary64 v.datum ++ "D"
  | .string s => Text.quoted s

/-- Whether a call takes a receiver. -/
def InvokeKind.hasReceiver : InvokeKind → Bool
  | .static => false
  | _ => true

/-- The mnemonic of a call. -/
def InvokeKind.mnemonic : InvokeKind → String
  | .virtual => "INVOKEVIRTUAL"
  | .special => "INVOKESPECIAL"
  | .static => "INVOKESTATIC"
  | .interface => "INVOKEINTERFACE"

/-- The name of a condition in listings. -/
def Condition.mnemonic : Condition → String
  | .eq => "EQ"
  | .ne => "NE"
  | .lt => "LT"
  | .ge => "GE"
  | .gt => "GT"
  | .le => "LE"

/-- The mnemonic of an operator. -/
def ArithOp.mnemonic : ArithOp → String
  | .add => "ADD"
  | .sub => "SUB"
  | .mul => "MUL"
  | .div => "DIV"
  | .rem => "REM"
  | .and => "AND"
  | .or => "OR"
  | .xor => "XOR"

namespace Instruction

/-- Loads the receiver. -/
def loadThis : Instruction := .load .reference 0

/-- Pushes a text. -/
def string (s : String) : Instruction := .const (.string s)

/-- The declared effect on the operand stack. -/
def stackEffect : Instruction → StackEffect
  | .load kind _ => ⟨0, kind.size⟩
  | .store kind _ => ⟨kind.size, 0⟩
  | .increment _ _ => ⟨0, 0⟩
  | .const value => ⟨0, value.size⟩
  | .getField _ _ type => ⟨1, type.size⟩
  | .putField _ _ type => ⟨1 + type.size, 0⟩
  | .getStatic _ _ type => ⟨0, type.size⟩
  | .putStatic _ _ type => ⟨type.size, 0⟩
  | .invoke kind _ _ signature =>
    ⟨(if kind.hasReceiver then 1 else 0) + signature.paramSlots, signature.returnSlots⟩
  | .new _ => ⟨0, 1⟩
  | .checkCast _ => ⟨1, 1⟩
  | .dup => ⟨1, 2⟩
  | .pop => ⟨1, 0⟩
  | .arithmetic _ kind => ⟨2 * kind.size, kind.size⟩
  | .compare kind => ⟨2 * kind.size, 1⟩
  | .rawBits kind => ⟨kind.size, kind.size⟩
  | .goto _ => ⟨0, 0⟩
  | .branchIf _ _ => ⟨1, 0⟩
  | .branchIfCompare _ _ _ => ⟨2, 0⟩
  | .branchIfNull _ _ => ⟨1, 0⟩
  | .switch _ _ => ⟨1, 0⟩
  | .return kind => ⟨(kind.map ValueKind.size).getD 0, 0⟩
  | .throw => ⟨1, 0⟩

/-- How control leaves. -/
def control : Instruction → Control
  | .goto target => .jump target
  | .branchIf _ target => .branch target
  | .branchIfCompare _ _ target => .branch target
  | .branchIfNull _ target => .branch target
  | .switch targets default => .indirect (targets ++ [default])
  | .return _ => .exit
  | .throw => .exit
  | _ => .fallThrough

/-- The branch targets, in their order. -/
def targets : Instruction → List Target
  | .goto target => [target]
  | .branchIf _ target => [target]
  | .branchIfCompare _ _ target => [target]
  | .branchIfNull _ target => [target]
  | .switch targets default => targets ++ [default]
  | _ => []

/-- The instruction with every branch target moved. -/
def mapTargets (f : Target → Target) : Instruction → Instruction
  | .goto target => .goto (f target)
  | .branchIf condition target => .branchIf condition (f target)
  | .branchIfCompare kind condition target => .branchIfCompare kind condition (f target)
  | .branchIfNull isNull target => .branchIfNull isNull (f target)
  | .switch targets default => .switch (targets.map f) (f default)
  | i => i

/-- The local slots written; the second slot of a wide value counts where there is one. -/
def storedSlots : Instruction → List UInt16
  | .store kind slot => if kind.isWide ∧ slot.toNat + 1 < 0x10000 then [slot, slot + 1] else [slot]
  | .increment slot _ => [slot]
  | _ => []

/-- Whether this calls a constructor of a class. -/
def isConstructorCallOf (className : String) : Instruction → Bool
  | .invoke .special owner name _ => owner = className ∧ name = constructorName
  | _ => false

/-- The mnemonic in listings. -/
def mnemonic : Instruction → String
  | .load _ _ => "LOAD"
  | .store _ _ => "STORE"
  | .increment _ _ => "INC"
  | .const _ => "CONST"
  | .getField _ _ _ => "GETFIELD"
  | .putField _ _ _ => "PUTFIELD"
  | .getStatic _ _ _ => "GETSTATIC"
  | .putStatic _ _ _ => "PUTSTATIC"
  | .invoke kind _ _ _ => kind.mnemonic
  | .new _ => "NEW"
  | .checkCast _ => "CHECKCAST"
  | .dup => "DUP"
  | .pop => "POP"
  | .arithmetic op _ => op.mnemonic
  | .compare _ => "CMP"
  | .rawBits _ => "RAWBITS"
  | .goto _ => "GOTO"
  | .branchIf _ _ => "IF"
  | .branchIfCompare _ _ _ => "IFCMP"
  | .branchIfNull isNull _ => if isNull then "IFNULL" else "IFNONNULL"
  | .switch _ _ => "SWITCH"
  | .return _ => "RETURN"
  | .throw => "THROW"

/-- A target in listings. -/
def targetText (t : Target) : String := "@" ++ natText t.toNat

/-- A field in listings. -/
def fieldText (owner name : String) (type : FieldType) : String :=
  " " ++ owner ++ "." ++ name ++ " : " ++ type.typeName

/-- The operands in listings, with a blank before each. -/
def operands : Instruction → String
  | .load kind slot => " " ++ kind.name ++ " " ++ natText slot.toNat
  | .store kind slot => " " ++ kind.name ++ " " ++ natText slot.toNat
  | .increment slot delta => " " ++ natText slot.toNat ++ " " ++ intText delta.toInt
  | .const value => " " ++ value.render
  | .getField owner name type => fieldText owner name type
  | .putField owner name type => fieldText owner name type
  | .getStatic owner name type => fieldText owner name type
  | .putStatic owner name type => fieldText owner name type
  | .invoke _ owner name signature => " " ++ owner ++ "." ++ name ++ signature.render
  | .new className => " " ++ className
  | .checkCast className => " " ++ className
  | .arithmetic _ kind => " " ++ kind.name
  | .compare kind => " " ++ kind.name
  | .rawBits kind => " " ++ kind.name
  | .goto target => " " ++ targetText target
  | .branchIf condition target => " " ++ condition.mnemonic ++ " " ++ targetText target
  | .branchIfCompare kind condition target =>
    " " ++ kind.name ++ " " ++ condition.mnemonic ++ " " ++ targetText target
  | .branchIfNull _ target => " " ++ targetText target
  | .switch targets default =>
    " [" ++ ", ".intercalate (targets.map targetText) ++ "] default " ++ targetText default
  | .return (some kind) => " " ++ kind.name
  | _ => ""

/-- The line of an instruction in listings. -/
def render (i : Instruction) : String := i.mnemonic ++ i.operands

theorem mapTargets_id (i : Instruction) : i.mapTargets id = i := by
  cases i <;> simp [mapTargets]

@[simp] theorem targets_mapTargets (f : Target → Target) (i : Instruction) :
    (i.mapTargets f).targets = i.targets.map f := by
  cases i <;> simp [mapTargets, targets]

end Instruction

end StorageWeave.Bytecode
