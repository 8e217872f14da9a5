import StorageWeave.Weaving.ClassIndex
import StorageWeave.Weaving.Config

/-!
# The class hierarchy

What an index and a configuration say about classes: superclasses, which classes descend from the
platform roots, where a field is declared, and which annotation a method inherits. Walks are bounded
by the size of the index, since a longer walk repeats a class.
-/

namespace StorageWeave.Weaving

open Bytecode

/-- The visible classes and the configuration. -/
structure Hierarchy where
  index : ClassIndex
  config : Config
  deriving DecidableEq, Repr

/-- The method of a class that is asked about. -/
structure MethodRef where
  owner : String
  name : String
  signature : Signature
  deriving DecidableEq, Repr

/-- The field that an access finds, and the class that declares it. -/
structure ResolvedField where
  declaring : String
  field : FieldDef
  deriving DecidableEq, Repr

/-- The result of `f` at the first element where it is not `none`. -/
def firstSomeM {m : Type → Type} [Monad m] {α β : Type} (f : α → m (Option β)) :
    List α → m (Option β)
  | [] => pure none
  | a :: rest => do
    match ← f a with
    | some b => pure (some b)
    | none => firstSomeM f rest

namespace Hierarchy

/-- The superclass of a class. The contract root extends the storage root also when unseen. -/
def superclassOf (h : Hierarchy) (name : String) : Option String :=
  match h.index.get? name with
  | some c => c.superclass
  | none => if name = h.config.contractRoot then some h.config.storageRoot else none

/-- Whether `root` is reached from `name` in fewer than `fuel` steps to superclasses. -/
def reaches (h : Hierarchy) (root : String) : Nat → String → Bool
  | 0, _ => false
  | fuel + 1, name =>
    if name = root then true
    else
      match h.superclassOf name with
      | none => false
      | some s => reaches h root fuel s

/-- A bound on the length of a walk to superclasses that repeats no class. -/
def walkBound (h : Hierarchy) : Nat := h.index.size + 2

/-- Whether a class is `root` or has it among its superclasses. -/
def descendsFrom (h : Hierarchy) (root name : String) : Bool := h.reaches root h.walkBound name

/-- Whether a class is one of persistent objects. -/
def isStorage (h : Hierarchy) (name : String) : Bool := h.descendsFrom h.config.storageRoot name

/-- Whether a class is a contract. -/
def isContract (h : Hierarchy) (name : String) : Bool := h.descendsFrom h.config.contractRoot name

/-- Whether values of a type are loaded on their first use. -/
def isLazy (h : Hierarchy) : FieldType → Bool
  | .reference className => !h.config.eagerReferenceTypes.contains className
  | .primitive _ => false

/-- Whether values of a type reach no further storage objects. -/
def isLeaf (h : Hierarchy) : FieldType → Bool
  | .reference className => h.config.immutableLeafTypes.contains className
  | .primitive _ => true

/-- Looks for a field in a class and its superclasses. -/
def resolveFieldFrom (h : Hierarchy) (name : String) : Nat → String → Option ResolvedField
  | 0, _ => none
  | fuel + 1, owner =>
    match h.index.get? owner with
    | none => none
    | some c =>
      match c.field? name with
      | some f => some ⟨owner, f⟩
      | none => c.superclass.bind (resolveFieldFrom h name fuel)

/-- The field that `owner.name` stands for. -/
def resolveField (h : Hierarchy) (owner name : String) : Option ResolvedField :=
  h.resolveFieldFrom name h.walkBound owner

/-- Whether a declaration without the annotation stops its inheritance. -/
def shadows (h : Hierarchy) (m : MethodDef) : Bool :=
  match h.config.shadowingRule with
  | .privateOnly => m.isPrivate
  | .privateOrPackage => m.isPrivate || m.access.isPackagePrivate

/--
The annotation `kind` of a method at one class, where `parent` looks it up at a superclass or
interface: the declared method has it, or stops the search, or hands it on to the superclass and
then to the interfaces in their order. Constructors inherit nothing.
-/
def annotationAt {m : Type → Type} [Monad m] (h : Hierarchy) (kind : String)
    (parent : String → m (Option Annotation)) (ref : MethodRef) : m (Option Annotation) :=
  match h.index.get? ref.owner with
  | none => pure none
  | some c =>
    let parents := firstSomeM parent (c.superclass.toList ++ c.interfaces)
    match c.method? ref.name ref.signature with
    | some declared =>
      match declared.annotation? kind with
      | some a => pure (some a)
      | none => if declared.isConstructor || h.shadows declared then pure none else parents
    | none => if ref.name = constructorName then pure none else parents

/-- A bound on the number of classes on a path to ancestors that repeats none. -/
def pathBound (h : Hierarchy) : Nat := h.index.size + 1

/-- Looks an annotation up along paths of at most `fuel` classes. -/
def annotationFrom (h : Hierarchy) (kind : String) :
    Nat → MethodRef → Except WeaveError (Option Annotation)
  | 0, ref => .error (.endlessLookup ref.owner ref.name)
  | fuel + 1, ref =>
    h.annotationAt kind (fun parent => annotationFrom h kind fuel { ref with owner := parent }) ref

/-- The annotation `kind` of a method, declared or inherited. -/
def annotation (h : Hierarchy) (kind : String) (ref : MethodRef) :
    Except WeaveError (Option Annotation) :=
  h.annotationFrom kind h.pathBound ref

end Hierarchy

/-! ## Corresponding look-ups -/

/-- A relation between the computations of two monads that respects results and sequencing. -/
structure Correspondence (m n : Type → Type) [Monad m] [Monad n] where
  Rel {α : Type} : m α → n α → Prop
  pure {α : Type} (a : α) : Rel (Pure.pure a) (Pure.pure a)
  bind {α β : Type} {x : m α} {y : n α} {f : α → m β} {g : α → n β} :
    Rel x y → (∀ a, Rel (f a) (g a)) → Rel (x >>= f) (y >>= g)

namespace Correspondence

variable {m n : Type → Type} [Monad m] [Monad n] (S : Correspondence m n) {α β : Type}

theorem ite {c : Prop} [Decidable c] {x x' : m α} {y y' : n α} (h : S.Rel x y) (h' : S.Rel x' y') :
    S.Rel (if c then x else x') (if c then y else y') := by
  split
  · exact h
  · exact h'

theorem firstSomeM {f : α → m (Option β)} {g : α → n (Option β)} (hfg : ∀ a, S.Rel (f a) (g a))
    (as : List α) : S.Rel (Weaving.firstSomeM f as) (Weaving.firstSomeM g as) := by
  induction as with
  | nil => exact S.pure _
  | cons a as ih =>
    refine S.bind (hfg a) fun r => ?_
    cases r with
    | none => exact ih
    | some b => exact S.pure _

/-- Look-ups at a class correspond if those at its parents do. -/
theorem annotationAt {f : String → m (Option Annotation)} {g : String → n (Option Annotation)}
    (hfg : ∀ parent, S.Rel (f parent) (g parent)) (h : Hierarchy) (kind : String)
    (ref : MethodRef) : S.Rel (h.annotationAt kind f ref) (h.annotationAt kind g ref) := by
  unfold Hierarchy.annotationAt
  split
  · exact S.pure _
  split
  · split
    · exact S.pure _
    · exact S.ite (S.pure _) (S.firstSomeM hfg _)
  · exact S.ite (S.pure _) (S.firstSomeM hfg _)

end Correspondence

end StorageWeave.Weaving
