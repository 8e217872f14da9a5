import StorageWeave.Archive.Basic
import StorageWeave.Bytecode.Code

/-!
# Weaving errors

Every error ends the weaving of its archive. Errors are given by their causes; `WeaveError.message`
puts them into words.
-/

namespace StorageWeave.Weaving

open Bytecode Numeric

/-- In what a type that cannot be resolved is needed. -/
inductive ResolutionContext where
  | cyclicChain
  /-- The superclasses of a class end below the storage root. -/
  | noStorageRoot (className : String)
  | superclassOf (className : String)
  | fieldAccess (field className : String)
  | noSuperclass
  | tooManyEagerFields
  deriving DecidableEq, Repr

/-- What is wrong with a constructor that is an entry. -/
inductive ConstructorFault where
  | noReceiver
  | endOfCode
  | callerSlotWritten (slot : UInt16) (position : Nat)
  | stackUnderflow (position : Nat)
  | receiverConsumed (position : Nat)
  | noSuperclassCall
  | severalSuperclassCalls (first second : Nat)
  | noSuperclass
  deriving DecidableEq, Repr

/-- What is wrong with an entry, or with a call of one. -/
inductive EntryFault where
  | staticEntry
  | noAmount
  | outsideContract
  | tooManyParameters
  | callWithoutReceiver (owner method : String)
  deriving DecidableEq, Repr

/-- Why weaving fails. -/
inductive WeaveError where
  | classConflict (className : String)
  | unresolvableType (name : String) (context : ResolutionContext)
  | malformedConstructor (className method : String) (fault : ConstructorFault)
  | unsupportedControlFlow (className method : String) (position : Nat)
  | illegalEntry (className method : String) (fault : EntryFault)
  | duplicateMember (className member : String)
  | invalidClass (entry : String)
  | invalidCode (className method : String) (cause : CodeError)
  | archive (cause : Archive.ArchiveError)
  /-- A branch target of a method cannot be moved, because it would not fit a word. -/
  | targetOverflow (className method : String)
  /-- The inherited annotations of a method are looked up around a cycle of classes. -/
  | endlessLookup (className method : String)
  /-- The stack of a constructor grows around a loop before its superclass is called. -/
  | endlessSearch (className method : String)
  deriving DecidableEq, Repr

def ResolutionContext.text : ResolutionContext → String
  | .cyclicChain => "cyclic superclass chain"
  | .noStorageRoot className => className ++ " does not reach the storage root"
  | .superclassOf className => "superclass of " ++ className
  | .fieldAccess field className => "field " ++ field ++ " accessed in " ++ className
  | .noSuperclass => "storage class without superclass"
  | .tooManyEagerFields => "too many eager fields for a constructor"

def ConstructorFault.text : ConstructorFault → String
  | .noReceiver => "constructor does not start by loading the receiver"
  | .endOfCode => "control reaches the end of the code before the superclass constructor"
  | .callerSlotWritten slot position =>
    "caller slot " ++ natText slot.toNat ++ " written at instruction " ++ natText position
      ++ " before the superclass constructor"
  | .stackUnderflow position => "stack underflow at instruction " ++ natText position
  | .receiverConsumed position =>
    "receiver consumed by instruction " ++ natText position
      ++ " instead of the superclass constructor"
  | .noSuperclassCall => "no call to the superclass constructor"
  | .severalSuperclassCalls first second =>
    "several superclass constructor calls, at " ++ natText first ++ " and " ++ natText second
  | .noSuperclass => "constructor of a class without superclass"

def EntryFault.text : EntryFault → String
  | .staticEntry => "static methods cannot be entries"
  | .noAmount => "payable entry declares no amount parameter"
  | .outsideContract => "entries must be declared by contracts"
  | .tooManyParameters => "too many parameters for a caller slot"
  | .callWithoutReceiver owner method =>
    "calls entry " ++ owner ++ "." ++ method ++ " without a contract receiver"

/-- The wording of an error. -/
def WeaveError.message : WeaveError → String
  | .classConflict className => "Class " ++ className ++ " is defined twice with different bytes"
  | .unresolvableType name context => "Cannot resolve type " ++ name ++ " (" ++ context.text ++ ")"
  | .malformedConstructor className method fault =>
    "Malformed constructor " ++ className ++ "." ++ method ++ ": " ++ fault.text
  | .unsupportedControlFlow className method position =>
    "Unsupported control flow in " ++ className ++ "." ++ method ++ " at instruction "
      ++ natText position
  | .illegalEntry className method fault =>
    "Illegal entry " ++ className ++ "." ++ method ++ ": " ++ fault.text
  | .duplicateMember className member => "Class " ++ className ++ " already declares " ++ member
  | .invalidClass entry => "Invalid class entry " ++ entry
  | .invalidCode className method cause =>
    "Invalid code in " ++ className ++ "." ++ method ++ ": " ++ cause.message
  | .archive cause => "Archive error: " ++ cause.message
  | .targetOverflow className method =>
    "Branch target out of range in " ++ className ++ "." ++ method
  | .endlessLookup className method =>
    "Endless lookup of the annotations of " ++ className ++ "." ++ method
  | .endlessSearch className method =>
    "Endless search in the constructor " ++ className ++ "." ++ method

end StorageWeave.Weaving
