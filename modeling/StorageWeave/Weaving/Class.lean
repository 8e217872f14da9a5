import StorageWeave.Weaving.Augmentation
import StorageWeave.Weaving.Method

/-!
# Weaving classes

A class is woven method by method; a storage class that is no interface then gets its members. The
result also says what was done, which is what the log is written from.
-/

namespace StorageWeave.Weaving

open Bytecode

/-- The persistent fields of a storage class that was given its members. -/
structure FieldCounts where
  eager : Nat
  lazy : Nat
  deriving DecidableEq, Repr

/-- A woven class, and what was done to it. -/
structure WovenClass where
  result : ClassDef
  storage : Bool
  contract : Bool
  prologues : List Prologue
  /-- Present for a storage class. -/
  augmented : Option FieldCounts
  deriving DecidableEq, Repr

namespace ClassWeaver

variable {m : Type → Type} [Monad m] [MonadExceptOf WeaveError m]

/-- Gives a storage class its members. -/
def augment (h : Hierarchy) (c out : ClassDef) : Except WeaveError (ClassDef × FieldCounts) := do
  let k ← h.classify c
  let out ← Augmentation.augment h c k out
  return (out, ⟨k.ownEager.length, k.lazyFields.length⟩)

/-- Weaves a class with the answers of an oracle. -/
def weave (h : Hierarchy) (o : Oracle m) (c : ClassDef) : m WovenClass := do
  let storage ← if c.isInterface then pure false else o.isStorage c.name
  let contract ← o.isContract c.name
  let methods ← c.methods.mapM (MethodWeaver.weave h o c)
  let out := { c with methods := methods.map (·.method) }
  let prologues := methods.filterMap (·.prologue)
  if storage then
    let (result, counts) ← MonadExcept.ofExcept (augment h c out)
    return ⟨result, storage, contract, prologues, some counts⟩
  else return ⟨out, storage, contract, prologues, none⟩

end ClassWeaver

/-- Weaves one class against an index that holds its ancestors. -/
def weaveClass (h : Hierarchy) (c : ClassDef) : Except WeaveError WovenClass :=
  (ClassWeaver.weave h (Oracle.remembering h) c).run' {}

end StorageWeave.Weaving
