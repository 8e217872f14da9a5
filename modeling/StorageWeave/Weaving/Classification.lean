import StorageWeave.Weaving.Hierarchy

/-!
# Eager and lazy fields

The persistent fields of a storage class: the eager ones of every level from the class below the
platform root down to the class itself, which its deserializing constructor takes, and the lazy ones
of the class itself, which are loaded on their first use.
-/

namespace StorageWeave.Weaving

open Bytecode

/-- The persistent fields of a storage class. -/
structure Classification where
  /-- Eager fields by level, the level below the platform root first, the class itself last. -/
  eagerLevels : List (List FieldDef)
  /-- Lazy fields of the class itself. -/
  lazyFields : List FieldDef
  deriving DecidableEq, Repr

namespace Classification

/-- The eager fields of the class itself. -/
def ownEager (c : Classification) : List FieldDef := c.eagerLevels.getLast?.getD []

/-- The eager fields of the levels above the class. -/
def inheritedEager (c : Classification) : List FieldDef := c.eagerLevels.dropLast.flatten

/-- All eager fields, in the order of constructor parameters. -/
def allEager (c : Classification) : List FieldDef := c.eagerLevels.flatten

end Classification

namespace Hierarchy

/-- The eager fields that a class declares, sorted. -/
def eagerFields (h : Hierarchy) (c : ClassDef) : List FieldDef :=
  FieldDef.sorted (c.fields.filter fun f => f.isPersistent && !h.isLazy f.type)

/-- The lazy fields that a class declares, sorted. -/
def lazyFields (h : Hierarchy) (c : ClassDef) : List FieldDef :=
  FieldDef.sorted (c.fields.filter fun f => f.isPersistent && h.isLazy f.type)

/--
Puts the eager levels from `current` up before those of `levels`; `visited` are the classes below
`current` and `bottom` is the class the walk started from. `fuel` bounds the walk.
-/
def eagerLevelsFrom (h : Hierarchy) (bottom : String) :
    Nat → List String → List (List FieldDef) → ClassDef → Except WeaveError (List (List FieldDef))
  | 0, _, _, current => .error (.unresolvableType current.name .cyclicChain)
  | fuel + 1, visited, levels, current =>
    if current.name ∈ visited then .error (.unresolvableType current.name .cyclicChain)
    else
      let levels := h.eagerFields current :: levels
      match current.superclass with
      | none => .error (.unresolvableType current.name (.noStorageRoot bottom))
      | some s =>
        if h.config.isPlatformRoot s then .ok levels
        else
          match h.index.get? s with
          | none => .error (.unresolvableType s (.superclassOf current.name))
          | some parent => eagerLevelsFrom h bottom fuel (current.name :: visited) levels parent

/-- Sorts the persistent fields of a storage class into eager levels and lazy fields. -/
def classify (h : Hierarchy) (c : ClassDef) : Except WeaveError Classification := do
  return ⟨← h.eagerLevelsFrom c.name h.walkBound [] [] c, h.lazyFields c⟩

end Hierarchy

end StorageWeave.Weaving
