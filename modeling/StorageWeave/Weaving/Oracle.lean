import StorageWeave.Table
import StorageWeave.Weaving.Hierarchy

/-!
# Oracles

The questions of the weaver that walk the hierarchy. The exact oracle walks it every time; the
remembering one keeps its answers in a memo, so that an archive is woven in one pass over the
hierarchy. Everything built on an oracle takes either.

Around a cycle of classes the look-up of an annotation has no end. The exact oracle fails there, as
paths that repeat no class are short; the remembering one looks on for ever (`Memo.lookUp`), which
counts as the same failure.
-/

namespace StorageWeave.Weaving

open Bytecode

/-- Answers to the questions about the hierarchy, given in a monad. -/
structure Oracle (m : Type → Type) where
  isStorage : String → m Bool
  isContract : String → m Bool
  /-- The annotation of a kind that a method declares or inherits. -/
  annotation : String → MethodRef → m (Option Annotation)

/-- What weaving makes of a method. -/
inductive Role where
  | plain
  | entry
  | payableEntry
  deriving DecidableEq, Repr

/-- Whether a method records its caller. -/
def Role.isEntry : Role → Bool
  | .plain => false
  | _ => true

/-- The name of a role in the log. -/
def Role.name : Role → String
  | .plain => "Plain"
  | .entry => "Entry"
  | .payableEntry => "PayableEntry"

namespace Oracle

variable {m : Type → Type} [Monad m]

/-- The role of a method: a payable annotation counts before an entry annotation. -/
def role (o : Oracle m) (config : Config) (ref : MethodRef) : m Role := do
  if (← o.annotation config.payableAnnotation ref).isSome then return .payableEntry
  if (← o.annotation config.entryAnnotation ref).isSome then return .entry
  return .plain

/-- The contract type that an entry expects as its caller, if its annotation names one. -/
def callerType (o : Oracle m) (config : Config) (ref : MethodRef) : m (Option String) := do
  return (← o.annotation config.entryAnnotation ref).bind (·.argument)

/-- The oracle that walks the hierarchy for every answer. -/
def exact (h : Hierarchy) : Oracle (Except WeaveError) where
  isStorage name := .ok (h.isStorage name)
  isContract name := .ok (h.isContract name)
  annotation := h.annotation

end Oracle

/-! ## Remembered answers -/

/-- Answers given before. -/
structure Memo where
  storage : Table String Bool := {}
  contract : Table String Bool := {}
  annotations : Table (String × MethodRef) (Option Annotation) := {}
  deriving DecidableEq, Repr

/-- Computations that remember answers and can fail. -/
abbrev Remembering : Type → Type := StateT Memo (Except WeaveError)

namespace Memo

/--
Walks to superclasses until `root`, a remembered class or the end of the hierarchy is met. Returns
the verdict and the classes walked over, all of which share it.
-/
def walk (h : Hierarchy) (root : String) (known : Table String Bool) :
    Nat → List String → String → Bool × List String
  | 0, chain, _ => (false, chain)
  | fuel + 1, chain, name =>
    if name = root then (true, chain)
    else
      match known.get? name with
      | some verdict => (verdict, chain)
      | none =>
        if name ∈ chain then (false, chain)
        else
          match h.superclassOf name with
          | none => (false, name :: chain)
          | some s => walk h root known fuel (name :: chain) s

/-- Whether a class descends from `root`, and the answers known afterwards. -/
def descendsFrom (h : Hierarchy) (root : String) (known : Table String Bool) (name : String) :
    Bool × Table String Bool :=
  match known.get? name with
  | some verdict => (verdict, known)
  | none =>
    let (verdict, chain) := walk h root known h.walkBound [] name
    (verdict, chain.foldl (fun t c => t.set c verdict) known)

/-- Whether a class is one of persistent objects. -/
def isStorage (h : Hierarchy) (name : String) : Remembering Bool := do
  let memo ← get
  let (verdict, known) := descendsFrom h h.config.storageRoot memo.storage name
  set { memo with storage := known }
  return verdict

/-- Whether a class is a contract. -/
def isContract (h : Hierarchy) (name : String) : Remembering Bool := do
  let memo ← get
  let (verdict, known) := descendsFrom h h.config.contractRoot memo.contract name
  set { memo with contract := known }
  return verdict

/--
The annotation of a method at one class, where `parent` looks it up at another one: the answer that
is remembered, or the one found, which is kept.
-/
def consult {m : Type → Type} [Monad m] (h : Hierarchy) (kind : String)
    (parent : MethodRef → StateT Memo m (Option Annotation)) (ref : MethodRef) :
    StateT Memo m (Option Annotation) := do
  match (← get).annotations.get? (kind, ref) with
  | some answer => return answer
  | none =>
    let answer ← h.annotationAt kind (fun owner => parent { ref with owner }) ref
    modify fun memo => { memo with annotations := memo.annotations.set (kind, ref) answer }
    return answer

/-- Looks an annotation up along paths of at most `fuel` classes, keeping the answer at each. -/
def annotationFrom (h : Hierarchy) (kind : String) :
    Nat → MethodRef → Remembering (Option Annotation)
  | 0, ref => throw (.endlessLookup ref.owner ref.name)
  | fuel + 1, ref => consult h kind (annotationFrom h kind fuel) ref

/-! ### Look-ups without a bound -/

/-- A correspondence of computations that share their states. -/
def withStates {m n : Type → Type} [Monad m] [Monad n] (S : Correspondence m n) (σ : Type) :
    Correspondence (StateT σ m) (StateT σ n) where
  Rel x y := ∀ s, S.Rel (x.run s) (y.run s)
  pure a s := S.pure (a, s)
  bind hxy hfg s := S.bind (hxy s) fun r => hfg r.1 r.2

/-- Consulted memos correspond if the look-ups at the parents do. -/
theorem consult_rel {m n : Type → Type} [Monad m] [Monad n] (S : Correspondence m n)
    {f : MethodRef → StateT Memo m (Option Annotation)}
    {g : MethodRef → StateT Memo n (Option Annotation)}
    (hfg : ∀ ref memo, S.Rel ((f ref).run memo) ((g ref).run memo)) (h : Hierarchy)
    (kind : String) (ref : MethodRef) (memo : Memo) :
    S.Rel ((consult h kind f ref).run memo) ((consult h kind g ref).run memo) := by
  let T := withStates S Memo
  have hget : T.Rel (get : StateT Memo m Memo) (get : StateT Memo n Memo) :=
    fun memo => S.pure (memo, memo)
  refine T.bind hget (fun found => ?_) memo
  split
  · exact T.pure _
  · refine T.bind (T.annotationAt (fun owner => hfg _) h kind ref) fun answer => ?_
    refine T.bind (fun memo => S.pure _) fun _ => T.pure _

/-- Giving the results of another computation, at least. -/
def extending : Correspondence Option Option where
  Rel x y := ∀ a, x = some a → y = some a
  pure _ _ := id
  bind {α β} {x y f g} hxy hfg b hb := by
    obtain ⟨a, ha, hb⟩ := Option.bind_eq_some_iff.1 hb
    exact Option.bind_eq_some_iff.2 ⟨a, hxy a ha, hfg a b hb⟩

/--
Looks an annotation up, keeping the answer at each class. Around a cycle of classes the look-up has
no end, and then no result.
-/
def lookUp (h : Hierarchy) (kind : String) (ref : MethodRef) (memo : Memo) :
    Option (Option Annotation × Memo) :=
  consult h kind (fun ref memo => memo |>.lookUp h kind ref) ref memo
partial_fixpoint monotonicity by
  intro f g hfg ref memo
  dsimp only
  rcases hf : consult h kind (fun ref memo => f ref memo) ref memo with _ | r
  · constructor
  · have hg : consult h kind (fun ref memo => g ref memo) ref memo = some r := by
      apply consult_rel extending ?_ h kind ref memo r hf
      intro ref memo r (hr : f ref memo = some r)
      have hle := hfg ref memo
      rw [hr] at hle
      change g ref memo = some r
      generalize g ref memo = x at hle
      cases hle
      rfl
    rw [hg]
    constructor

/--
The annotation of a method, declared or inherited. It is found on paths that repeat no class, or the
look-up goes around a cycle and never ends.
-/
def inherited (h : Hierarchy) (kind : String) (ref : MethodRef) : Remembering (Option Annotation) :=
  fun memo =>
    match annotationFrom h kind h.pathBound ref memo with
    | .ok r => .ok r
    | .error e => (lookUp h kind ref memo).elim (.error e) .ok

end Memo

/-- The oracle that remembers its answers. -/
def Oracle.remembering (h : Hierarchy) : Oracle Remembering where
  isStorage := Memo.isStorage h
  isContract := Memo.isContract h
  annotation := Memo.inherited h

end StorageWeave.Weaving
