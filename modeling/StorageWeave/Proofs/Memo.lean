import Mathlib.Logic.Relation
import StorageWeave.Proofs.Superclasses
import StorageWeave.Weaving.Oracle

/-!
# Remembered answers

The remembering oracle answers from a memo what it was asked before. A memo is consistent with a
hierarchy when each of its answers is one that the hierarchy gives. Remembering keeps a memo
consistent, so a computation with the remembering oracle can be read as one with the exact oracle:
`Sound h x P` says that the results of `x` from a consistent memo satisfy `P`.
-/

namespace StorageWeave.Weaving

open Bytecode

/-! ## Annotations -/

theorem firstSomeM_mono {α β : Type} {f g : α → Except WeaveError (Option β)} {xs : List α}
    {r : Option β} (hfg : ∀ x r, f x = .ok r → g x = .ok r) (h : firstSomeM f xs = .ok r) :
    firstSomeM g xs = .ok r := by
  induction xs with
  | nil => exact h
  | cons x xs ih =>
    rw [firstSomeM] at h ⊢
    rcases hx : f x with e | a
    · rw [hx] at h
      cases h
    · rw [hx] at h
      rw [hfg x a hx]
      cases a with
      | some b => exact h
      | none => exact ih h

/-- A search that ends goes over elements without a result, up to one with a result or the end. -/
theorem firstSomeM_eq_ok {α β : Type} {f : α → Except WeaveError (Option β)} {xs : List α}
    {r : Option β} (h : firstSomeM f xs = .ok r) :
    (r = none ∧ ∀ x ∈ xs, f x = .ok none) ∨
    ∃ b before x after, r = some b ∧ xs = before ++ x :: after ∧
      (∀ z ∈ before, f z = .ok none) ∧ f x = .ok (some b) := by
  induction xs with
  | nil =>
    cases h
    exact .inl ⟨rfl, by simp⟩
  | cons x xs ih =>
    rw [firstSomeM] at h
    rcases hx : f x with e | _ | b
    · rw [hx] at h
      cases h
    · rw [hx] at h
      obtain ⟨rfl, hall⟩ | ⟨b, before, y, after, rfl, rfl, hbefore, hy⟩ := ih h
      · exact .inl ⟨rfl, List.forall_mem_cons.2 ⟨hx, hall⟩⟩
      · exact .inr ⟨b, x :: before, y, after, rfl, rfl, List.forall_mem_cons.2 ⟨hx, hbefore⟩, hy⟩
    · rw [hx] at h
      cases h
      exact .inr ⟨b, [], x, xs, rfl, rfl, by simp, hx⟩

/-- A search that fails goes over elements without a result, up to one where it fails. -/
theorem firstSomeM_eq_error {α β : Type} {f : α → Except WeaveError (Option β)} {xs : List α}
    {e : WeaveError} (h : firstSomeM f xs = .error e) :
    ∃ before x after, xs = before ++ x :: after ∧ (∀ z ∈ before, f z = .ok none) ∧
      f x = .error e := by
  induction xs with
  | nil => cases h
  | cons x xs ih =>
    rw [firstSomeM] at h
    rcases hx : f x with e' | _ | b
    · rw [hx] at h
      cases h
      exact ⟨[], x, xs, rfl, by simp, hx⟩
    · rw [hx] at h
      obtain ⟨before, y, after, rfl, hbefore, hy⟩ := ih h
      exact ⟨x :: before, y, after, rfl, List.forall_mem_cons.2 ⟨hx, hbefore⟩, hy⟩
    · rw [hx] at h
      cases h

theorem exists_of_firstSomeM {α β : Type} {f : α → Except WeaveError (Option β)} {xs : List α}
    {b : β} (h : firstSomeM f xs = .ok (some b)) : ∃ x, f x = .ok (some b) := by
  obtain ⟨⟨⟩, -⟩ | ⟨_, -, x, -, ⟨⟩, -, -, hx⟩ := firstSomeM_eq_ok h
  exact ⟨x, hx⟩

namespace Hierarchy

variable {h : Hierarchy} {kind : String} {ref : MethodRef} {r : Option Annotation}

/-- The superclass or an interface of an indexed class. -/
def Parent (h : Hierarchy) (x y : String) : Prop :=
  ∃ c, h.index.get? x = some c ∧ y ∈ c.superclass.toList ++ c.interfaces

/-- A class is another one or comes to it through superclasses and interfaces. -/
def Inherits (h : Hierarchy) : String → String → Prop := Relation.ReflTransGen h.Parent

/-- Some visible method has an annotation of a kind. -/
def Declares (h : Hierarchy) (kind : String) : Prop :=
  ∃ c m, h.index.get? c.name = some c ∧ c.method? m.name m.signature = some m ∧
    (m.annotation? kind).isSome

/-- The class of a method declares it with an annotation. -/
def Marks (h : Hierarchy) (kind : String) (ref : MethodRef) (a : Annotation) : Prop :=
  ∃ c d, h.index.get? ref.owner = some c ∧ c.method? ref.name ref.signature = some d ∧
    d.annotation? kind = some a

/--
The class of a method leaves an annotation of it to its parents: it does not declare the method, or
declares it without the annotation, neither as a constructor nor so that it hides what is above.
-/
def PassesOn (h : Hierarchy) (kind : String) (ref : MethodRef) : Prop :=
  ∃ c, h.index.get? ref.owner = some c ∧ ∀ d, c.method? ref.name ref.signature = some d →
    d.annotation? kind = none ∧ d.isConstructor = false ∧ h.shadows d = false

theorem PassesOn.not_marks (hpasses : h.PassesOn kind ref) (a : Annotation) :
    ¬ h.Marks kind ref a := by
  rintro ⟨c, d, hc, hd, ha⟩
  obtain ⟨c', hc', hall⟩ := hpasses
  cases hc.symm.trans hc'
  rw [(hall d hd).1] at ha
  cases ha

/-- What a look-up does at one class. -/
theorem annotationAt_spec (h : Hierarchy) (kind : String) (ref : MethodRef) :
    (∃ a, h.Marks kind ref a ∧
      ∀ {m : Type → Type} [Monad m] (parent : String → m (Option Annotation)),
        h.annotationAt kind parent ref = pure (some a)) ∨
    ((∀ a, ¬ h.Marks kind ref a) ∧ (h.PassesOn kind ref → ref.name = constructorName) ∧
      ∀ {m : Type → Type} [Monad m] (parent : String → m (Option Annotation)),
        h.annotationAt kind parent ref = pure none) ∨
    (h.PassesOn kind ref ∧ ref.name ≠ constructorName ∧ ∃ c, h.index.get? ref.owner = some c ∧
      ∀ {m : Type → Type} [Monad m] (parent : String → m (Option Annotation)),
        h.annotationAt kind parent ref =
          firstSomeM parent (c.superclass.toList ++ c.interfaces)) := by
  rcases hc : h.index.get? ref.owner with _ | c
  · refine .inr (.inl ⟨?_, ?_, fun parent => by simp only [annotationAt, hc]⟩)
    · rintro a ⟨c, d, hc', -⟩
      cases hc.symm.trans hc'
    · rintro ⟨c, hc', -⟩
      cases hc.symm.trans hc'
  rcases hm : c.method? ref.name ref.signature with _ | declared
  · have hmarks (a : Annotation) : ¬ h.Marks kind ref a := by
      rintro ⟨c', d, hc', hd, -⟩
      cases hc.symm.trans hc'
      cases hm.symm.trans hd
    by_cases hstop : ref.name = constructorName
    · refine .inr (.inl ⟨hmarks, fun _ => hstop, fun parent => ?_⟩)
      simp only [annotationAt, hc, hm, if_pos hstop]
    · have hpasses : h.PassesOn kind ref := ⟨c, hc, fun d hd => by cases hm.symm.trans hd⟩
      refine .inr (.inr ⟨hpasses, hstop, c, rfl, fun parent => ?_⟩)
      simp only [annotationAt, hc, hm, if_neg hstop]
  rcases ha : declared.annotation? kind with _ | a
  swap
  · exact .inl ⟨a, ⟨c, declared, hc, hm, ha⟩, fun parent => by simp only [annotationAt, hc, hm, ha]⟩
  by_cases hstop : (declared.isConstructor || h.shadows declared) = true
  · refine .inr (.inl ⟨?_, ?_, fun parent => ?_⟩)
    · rintro a ⟨c', d, hc', hd, ha'⟩
      cases hc.symm.trans hc'
      cases hm.symm.trans hd
      cases ha.symm.trans ha'
    · rintro ⟨c', hc', hall⟩
      cases hc.symm.trans hc'
      obtain ⟨-, hconstructor, hshadows⟩ := hall declared hm
      simp [hconstructor, hshadows] at hstop
    · simp only [annotationAt, hc, hm, ha, if_pos hstop]
  · have hname := (ClassDef.mem_of_method? hm).2.1
    obtain ⟨hconstructor, hshadows⟩ :
        declared.isConstructor = false ∧ h.shadows declared = false := by
      simpa using hstop
    refine .inr (.inr ⟨⟨c, hc, fun d hd => ?_⟩, ?_, c, rfl, fun parent => ?_⟩)
    · cases hm.symm.trans hd
      exact ⟨ha, hconstructor, hshadows⟩
    · simpa [MethodDef.isConstructor, hname] using hconstructor
    · simp only [annotationAt, hc, hm, ha, if_neg hstop]

/-- At one class a look-up is either settled or handed on to some parents. -/
theorem annotationAt_cases (h : Hierarchy) (kind : String) (ref : MethodRef) :
    (∃ a, (a.isSome → h.Declares kind) ∧
      ∀ {m : Type → Type} [Monad m] (parent : String → m (Option Annotation)),
        h.annotationAt kind parent ref = pure a) ∨
    ∃ parents, ∀ {m : Type → Type} [Monad m] (parent : String → m (Option Annotation)),
      h.annotationAt kind parent ref = firstSomeM parent parents := by
  obtain ⟨a, ⟨c, d, hc, hd, ha⟩, hfound⟩ | ⟨-, -, hnone⟩ | ⟨-, -, c, -, hparents⟩ :=
    h.annotationAt_spec kind ref
  · obtain ⟨-, hname, hsignature⟩ := ClassDef.mem_of_method? hd
    refine .inl ⟨some a, fun _ => ⟨c, d, ?_, ?_, by simp [ha]⟩, hfound⟩
    · rwa [ClassIndex.name_of_get? hc]
    · rwa [hname, hsignature]
  · exact .inl ⟨none, by simp, hnone⟩
  · exact .inr ⟨_, hparents⟩

/-- An answer that was found along short paths is found along longer ones. -/
theorem annotationFrom_succ {n : Nat} (hn : h.annotationFrom kind n ref = .ok r) :
    h.annotationFrom kind (n + 1) ref = .ok r := by
  induction n generalizing ref r with
  | zero => cases hn
  | succ n ih =>
    rw [annotationFrom] at hn ⊢
    obtain ⟨a, -, ha⟩ | ⟨parents, hparents⟩ := h.annotationAt_cases kind ref
    · rwa [ha] at hn ⊢
    · rw [hparents] at hn ⊢
      exact firstSomeM_mono (fun _ _ hx => ih hx) hn

theorem annotationFrom_mono {m n : Nat} (hmn : m ≤ n) (hm : h.annotationFrom kind m ref = .ok r) :
    h.annotationFrom kind n ref = .ok r := by
  induction hmn with
  | refl => exact hm
  | step _ ih => exact annotationFrom_succ ih

/-- An annotation that is found is declared somewhere. -/
theorem declares_of_annotationFrom {n : Nat} {a : Annotation}
    (hn : h.annotationFrom kind n ref = .ok (some a)) : h.Declares kind := by
  induction n generalizing ref with
  | zero => cases hn
  | succ n ih =>
    rw [annotationFrom] at hn
    obtain ⟨b, hdeclares, hb⟩ | ⟨parents, hparents⟩ := h.annotationAt_cases kind ref
    · rw [hb] at hn
      exact hdeclares (by rw [Except.ok.inj hn]; rfl)
    · rw [hparents] at hn
      obtain ⟨parent, hparent⟩ := exists_of_firstSomeM hn
      exact ih hparent

end Hierarchy

/-! ## Consistent memos -/

namespace Memo

/-- The answers of a memo are answers of the hierarchy. -/
structure Consistent (h : Hierarchy) (memo : Memo) : Prop where
  storage : ∀ name b, memo.storage.get? name = some b → b = h.isStorage name
  contract : ∀ name b, memo.contract.get? name = some b → b = h.isContract name
  annotations : ∀ kind ref a, memo.annotations.get? (kind, ref) = some a →
    ∃ n, h.annotationFrom kind n ref = .ok a

theorem consistent_empty (h : Hierarchy) : Consistent h {} := by
  constructor <;> intros <;> rename_i hget <;> cases hget

theorem Consistent.keep {h : Hierarchy} {memo : Memo} (hmemo : memo.Consistent h) {kind : String}
    {ref : MethodRef} {n : Nat} {r : Option Annotation} (hr : h.annotationFrom kind n ref = .ok r) :
    Consistent h { memo with annotations := memo.annotations.set (kind, ref) r } := by
  refine ⟨hmemo.storage, hmemo.contract, fun kind' ref' a hget => ?_⟩
  rw [Table.get?_set] at hget
  split at hget
  · next hkey =>
    cases hkey
    cases hget
    exact ⟨n, hr⟩
  · exact hmemo.annotations kind' ref' a hget

section Consult

variable {h : Hierarchy} {kind : String} {ref : MethodRef} {memo : Memo} {m : Type → Type} [Monad m]
  [LawfulMonad m]

theorem consult_of_known {answer : Option Annotation}
    (hget : memo.annotations.get? (kind, ref) = some answer)
    (parent : MethodRef → StateT Memo m (Option Annotation)) :
    (consult h kind parent ref).run memo = pure (answer, memo) := by
  simp [consult, hget]

theorem consult_of_new (hget : memo.annotations.get? (kind, ref) = none)
    (parent : MethodRef → StateT Memo m (Option Annotation)) :
    (consult h kind parent ref).run memo =
      (h.annotationAt kind (fun owner => parent { ref with owner }) ref).run memo >>= fun r =>
        pure (r.1, { r.2 with annotations := r.2.annotations.set (kind, ref) r.1 }) := by
  simp [consult, hget]

end Consult

variable {h : Hierarchy} {root : String} {known : Table String Bool}

/-- `k` steps lead from `z` to `name`, and none of them starts from `root`. -/
def Passes (h : Hierarchy) (root : String) (k : Nat) (z name : String) : Prop :=
  climb h.superclassOf k z = some name ∧ ∀ j < k, climb h.superclassOf j z ≠ some root

variable {z name : String} {k : Nat}

theorem Passes.le (hp : Passes h root k z name) {n : Nat}
    (hn : climb h.superclassOf n z = some root) : k ≤ n := by
  by_contra hlt
  exact hp.2 n (by omega) hn

theorem Passes.climb_sub (hp : Passes h root k z name) {n : Nat}
    (hn : climb h.superclassOf n z = some root) :
    climb h.superclassOf (n - k) name = some root := by
  rw [← Nat.add_sub_cancel' (hp.le hn), climb_add, hp.1] at hn
  exact hn

theorem Passes.zero (z : String) : Passes h root 0 z z := ⟨rfl, fun _ hj => absurd hj (by omega)⟩

theorem Passes.succ {s : String} (hp : Passes h root k z name) (hroot : name ≠ root)
    (hs : h.superclassOf name = some s) : Passes h root (k + 1) z s := by
  refine ⟨by rw [climb_add, hp.1, Option.bind_some, climb_succ_of_next hs, climb], fun j hj => ?_⟩
  rcases Nat.lt_succ_iff_lt_or_eq.1 hj with hj | rfl
  · exact hp.2 j hj
  · rw [hp.1]
    exact fun e => hroot (Option.some.inj e)

/-- The class that a walk starts from shares the verdict of the class it comes to. -/
theorem Passes.descendsFrom_eq (hp : Passes h root k z name) :
    h.descendsFrom root z = h.descendsFrom root name := by
  rw [Bool.eq_iff_iff, Hierarchy.descendsFrom_iff, Hierarchy.descendsFrom_iff]
  constructor
  · rintro ⟨n, hn⟩
    exact ⟨n - k, hp.climb_sub hn⟩
  · rintro ⟨n, hn⟩
    exact ⟨k + n, by rw [climb_add, hp.1, Option.bind_some, hn]⟩

/-- A class on a cycle that does not pass the root does not descend from it. -/
theorem Passes.not_descendsFrom (hp : Passes h root k name name) (hk : 0 < k) :
    h.descendsFrom root name = false := by
  rw [← Bool.not_eq_true, Hierarchy.descendsFrom_iff]
  intro hex
  have hle := hp.le (Nat.find_spec hex)
  exact Nat.find_min hex (by omega) (hp.climb_sub (Nat.find_spec hex))

theorem not_descendsFrom_of_end (hroot : name ≠ root) (hs : h.superclassOf name = none) :
    h.descendsFrom root name = false := by
  rw [← Bool.not_eq_true, Hierarchy.descendsFrom_iff]
  rintro ⟨_ | n, hn⟩
  · exact hroot (Option.some.inj hn)
  · rw [climb, hs] at hn
    cases hn

/-- A walk to superclasses has come to `name`: the classes it went over are different, have
superclasses and lead to `name` without passing `root`. -/
structure Walked (h : Hierarchy) (root : String) (chain : List String) (name : String) : Prop where
  nodup : chain.Nodup
  superclass : ∀ z ∈ chain, (h.superclassOf z).isSome
  path : ∀ z ∈ chain, ∃ k > 0, Passes h root k z name

namespace Walked

variable {chain : List String}

theorem nil (name : String) : Walked h root [] name := ⟨List.nodup_nil, by simp, by simp⟩

/-- The classes walked over are different, so they are fewer than the bound. -/
theorem length_lt (hw : Walked h root chain name) : chain.length < h.walkBound := by
  have hlen := (List.subperm_of_subset hw.nodup
    (fun z hz => Hierarchy.mem_of_superclassOf (hw.superclass z hz))).length_le
  simp only [List.length_cons, List.length_map] at hlen
  simp only [Hierarchy.walkBound, ClassIndex.size]
  omega

theorem descendsFrom_eq (hw : Walked h root chain name) :
    ∀ z ∈ chain, h.descendsFrom root z = h.descendsFrom root name := by
  intro z hz
  obtain ⟨k, -, hk⟩ := hw.path z hz
  exact hk.descendsFrom_eq

theorem not_descendsFrom (hw : Walked h root chain name) (hmem : name ∈ chain) :
    h.descendsFrom root name = false := by
  obtain ⟨k, hk, hcycle⟩ := hw.path name hmem
  exact hcycle.not_descendsFrom hk

theorem cons {s : String} (hw : Walked h root chain name) (hroot : name ≠ root)
    (hnew : name ∉ chain) (hs : h.superclassOf name = some s) :
    Walked h root (name :: chain) s := by
  refine ⟨List.nodup_cons.2 ⟨hnew, hw.nodup⟩, ?_, ?_⟩
  · exact List.forall_mem_cons.2 ⟨by rw [hs]; rfl, hw.superclass⟩
  · refine List.forall_mem_cons.2 ⟨⟨1, Nat.one_pos, (Passes.zero name).succ hroot hs⟩, ?_⟩
    intro z hz
    obtain ⟨k, -, hz⟩ := hw.path z hz
    exact ⟨k + 1, Nat.succ_pos k, hz.succ hroot hs⟩

end Walked

/-- The verdict of a walk holds of the class and of all classes walked over. -/
theorem walk_spec (hknown : ∀ z b, known.get? z = some b → b = h.descendsFrom root z)
    {fuel : Nat} {chain : List String} (hwalked : Walked h root chain name)
    (hfuel : h.walkBound ≤ fuel + chain.length) :
    (walk h root known fuel chain name).1 = h.descendsFrom root name ∧
      ∀ z ∈ (walk h root known fuel chain name).2,
        h.descendsFrom root z = h.descendsFrom root name := by
  induction fuel generalizing chain name with
  | zero =>
    have := hwalked.length_lt
    omega
  | succ fuel ih =>
    rw [walk]
    by_cases hroot : name = root
    · rw [if_pos hroot]
      exact ⟨by rw [hroot, Hierarchy.descendsFrom_self], hwalked.descendsFrom_eq⟩
    rw [if_neg hroot]
    rcases hget : known.get? name with _ | verdict
    swap
    · exact ⟨hknown name verdict hget, hwalked.descendsFrom_eq⟩
    by_cases hmem : name ∈ chain
    · simp only [if_pos hmem]
      exact ⟨(hwalked.not_descendsFrom hmem).symm, hwalked.descendsFrom_eq⟩
    simp only [if_neg hmem]
    rcases hs : h.superclassOf name with _ | s
    · refine ⟨(not_descendsFrom_of_end hroot hs).symm, ?_⟩
      exact List.forall_mem_cons.2 ⟨rfl, hwalked.descendsFrom_eq⟩
    · have := ih (hwalked.cons hroot hmem hs) (by rw [List.length_cons]; omega)
      rwa [← Hierarchy.descendsFrom_superclass hs hroot] at this

theorem get?_foldl_set {verdict : Bool} {name : String} {b : Bool} (chain : List String)
    (t : Table String Bool)
    (hget : (chain.foldl (fun t c => t.set c verdict) t).get? name = some b) :
    (name ∈ chain ∧ b = verdict) ∨ t.get? name = some b := by
  induction chain generalizing t with
  | nil => exact .inr hget
  | cons c chain ih =>
    rcases ih (t.set c verdict) hget with ⟨hmem, hb⟩ | hset
    · exact .inl ⟨List.mem_cons_of_mem c hmem, hb⟩
    · rw [Table.get?_set] at hset
      split at hset
      · next hc => exact .inl ⟨by rw [hc]; exact List.mem_cons_self, (Option.some.inj hset).symm⟩
      · exact .inr hset

/-- Asking a consistent table keeps it consistent and gives the answer of the hierarchy. -/
theorem descendsFrom_spec (hknown : ∀ z b, known.get? z = some b → b = h.descendsFrom root z)
    (name : String) :
    (descendsFrom h root known name).1 = h.descendsFrom root name ∧
      ∀ z b, (descendsFrom h root known name).2.get? z = some b → b = h.descendsFrom root z := by
  unfold descendsFrom
  rcases hget : known.get? name with _ | verdict
  swap
  · exact ⟨hknown name verdict hget, hknown⟩
  obtain ⟨hverdict, hchain⟩ := walk_spec hknown (.nil name) (Nat.le_add_right h.walkBound 0)
  refine ⟨hverdict, fun z b hz => ?_⟩
  rcases get?_foldl_set _ _ hz with ⟨hmem, rfl⟩ | hz
  · rw [hchain z hmem, hverdict]
  · exact hknown z b hz

end Memo

/-! ## Sound computations -/

/-- Having the results of a computation that may have none. -/
def okOfSome : Correspondence Option (Except WeaveError) where
  Rel x y := ∀ a, x = some a → y = .ok a
  pure _ _ ha := congrArg Except.ok (Option.some.inj ha)
  bind {α β} {x y f g} hxy hfg b hb := by
    obtain ⟨a, ha, hb⟩ := Option.bind_eq_some_iff.1 hb
    rw [hxy a ha]
    exact hfg a b hb

/-- From a consistent memo a computation leads to a consistent memo, and to results with `P`. -/
def Sound (h : Hierarchy) {α : Type} (x : Remembering α) (P : α → Prop) : Prop :=
  ∀ memo a memo', memo.Consistent h → x.run memo = .ok (a, memo') → memo'.Consistent h ∧ P a

namespace Sound

variable {h : Hierarchy} {α β : Type} {x : Remembering α} {P Q : α → Prop}

theorem imp (hx : Sound h x P) (hPQ : ∀ a, P a → Q a) : Sound h x Q := by
  intro memo a memo' hmemo hrun
  obtain ⟨hmemo', ha⟩ := hx memo a memo' hmemo hrun
  exact ⟨hmemo', hPQ a ha⟩

theorem pure {a : α} (ha : P a) : Sound h (Pure.pure a) P := by
  rintro memo a memo' hmemo hrun
  cases hrun
  exact ⟨hmemo, ha⟩

theorem throw (e : WeaveError) : Sound h (MonadExceptOf.throw e) P := by
  rintro memo a memo' hmemo hrun
  cases hrun

theorem bind {f : α → Remembering β} {R : β → Prop} (hx : Sound h x P)
    (hf : ∀ a, P a → Sound h (f a) R) : Sound h (x >>= f) R := by
  intro memo b memo' hmemo hrun
  rw [StateT.run_bind] at hrun
  rcases hrx : x.run memo with e | ⟨a, memo₁⟩
  · rw [hrx] at hrun
    cases hrun
  · rw [hrx] at hrun
    obtain ⟨hmemo₁, ha⟩ := hx memo a memo₁ hmemo hrx
    exact hf a ha memo₁ b memo' hmemo₁ hrun

/-! ### The remembering oracle -/

theorem isStorage (name : String) :
    Sound h ((Oracle.remembering h).isStorage name) (· = h.isStorage name) := by
  rintro memo a memo' hmemo hrun
  obtain ⟨hanswer, hknown⟩ := Memo.descendsFrom_spec (show ∀ z b, memo.storage.get? z = some b →
    b = h.descendsFrom h.config.storageRoot z from hmemo.storage) name
  cases hrun
  exact ⟨⟨hknown, hmemo.contract, hmemo.annotations⟩, hanswer⟩

theorem isContract (name : String) :
    Sound h ((Oracle.remembering h).isContract name) (· = h.isContract name) := by
  rintro memo a memo' hmemo hrun
  obtain ⟨hanswer, hknown⟩ := Memo.descendsFrom_spec (show ∀ z b, memo.contract.get? z = some b →
    b = h.descendsFrom h.config.contractRoot z from hmemo.contract) name
  cases hrun
  exact ⟨⟨hmemo.storage, hknown, hmemo.annotations⟩, hanswer⟩

theorem firstSomeM {f : α → Remembering (Option β)} {g : Nat → α → Except WeaveError (Option β)}
    (hmono : ∀ {m n x r}, m ≤ n → g m x = .ok r → g n x = .ok r)
    (hf : ∀ a, Sound h (f a) fun r => ∃ n, g n a = .ok r) (as : List α) :
    Sound h (Weaving.firstSomeM f as) fun r => ∃ n, Weaving.firstSomeM (g n) as = .ok r := by
  induction as with
  | nil => exact pure ⟨0, rfl⟩
  | cons a as ih =>
    refine bind (hf a) fun r hr => ?_
    obtain ⟨n, hn⟩ := hr
    cases r with
    | some b => exact pure ⟨n, by rw [Weaving.firstSomeM, hn]; rfl⟩
    | none =>
      refine ih.imp fun r hr => ?_
      obtain ⟨m, hm⟩ := hr
      refine ⟨max m n, ?_⟩
      rw [Weaving.firstSomeM, hmono (Nat.le_max_right m n) hn]
      exact firstSomeM_mono (fun _ _ => hmono (Nat.le_max_left m n)) hm

/-- A look-up at a class gives an answer of the hierarchy if those at the parents do. -/
theorem consult {kind : String} {parent : MethodRef → Remembering (Option Annotation)}
    (hparent : ∀ ref, Sound h (parent ref) fun a => ∃ n, h.annotationFrom kind n ref = .ok a)
    (ref : MethodRef) :
    Sound h (Memo.consult h kind parent ref) fun a => ∃ n, h.annotationFrom kind n ref = .ok a := by
  have hstep : Sound h (h.annotationAt kind (fun owner => parent { ref with owner }) ref)
      fun a => ∃ n, h.annotationFrom kind n ref = .ok a := by
    obtain ⟨a, -, ha⟩ | ⟨parents, hparents⟩ := h.annotationAt_cases kind ref
    · rw [ha]
      exact pure ⟨1, ha _⟩
    · rw [hparents]
      refine (firstSomeM
        (g := fun n parent => h.annotationFrom kind n { ref with owner := parent })
        Hierarchy.annotationFrom_mono (fun owner => hparent { ref with owner }) parents).imp ?_
      rintro a ⟨n, hn⟩
      exact ⟨n + 1, by rw [Hierarchy.annotationFrom, hparents, hn]⟩
  intro memo a memo' hmemo hrun
  rcases hget : memo.annotations.get? (kind, ref) with _ | known
  · rw [Memo.consult_of_new hget] at hrun
    rcases hfound : (h.annotationAt kind (fun owner => parent { ref with owner }) ref).run memo
      with e | ⟨answer, memo₁⟩
    · rw [hfound] at hrun
      cases hrun
    rw [hfound] at hrun
    obtain ⟨hmemo₁, n, hn⟩ := hstep memo answer memo₁ hmemo hfound
    cases hrun
    exact ⟨hmemo₁.keep hn, n, hn⟩
  · rw [Memo.consult_of_known hget] at hrun
    cases hrun
    exact ⟨hmemo, hmemo.annotations kind ref a hget⟩

theorem annotationFrom (kind : String) (fuel : Nat) (ref : MethodRef) :
    Sound h (Memo.annotationFrom h kind fuel ref) fun a =>
      ∃ n, h.annotationFrom kind n ref = .ok a := by
  induction fuel generalizing ref with
  | zero => exact throw _
  | succ fuel ih => exact consult ih ref

/-- A look-up without a bound gives an answer of the hierarchy, if it ends. -/
theorem lookUp {kind : String} {ref : MethodRef} {memo : Memo} {r : Option Annotation × Memo}
    (hmemo : memo.Consistent h) (hr : Memo.lookUp h kind ref memo = some r) :
    r.2.Consistent h ∧ ∃ n, h.annotationFrom kind n ref = .ok r.1 := by
  refine Memo.lookUp.partial_correctness h kind (fun ref memo r => memo.Consistent h →
    r.2.Consistent h ∧ ∃ n, h.annotationFrom kind n ref = .ok r.1) ?_ ref memo r hr hmemo
  intro lookUp ih ref memo r hr hmemo
  -- the calls give their results, and fail where they have none
  let parent (ref : MethodRef) : Remembering (Option Annotation) := fun memo =>
    (lookUp ref memo).elim (.error (.endlessLookup ref.owner ref.name)) .ok
  have hparent (ref : MethodRef) :
      Sound h (parent ref) fun a => ∃ n, h.annotationFrom kind n ref = .ok a := by
    intro memo a memo' hmemo hrun
    change (lookUp ref memo).elim _ _ = _ at hrun
    rcases hfound : lookUp ref memo with _ | found
    · rw [hfound] at hrun
      cases hrun
    · rw [hfound] at hrun
      cases hrun
      exact ih ref memo _ hfound hmemo
  refine consult hparent ref memo r.1 r.2 hmemo ?_
  apply Memo.consult_rel okOfSome ?_ h kind ref memo r hr
  intro ref memo r (hr : lookUp ref memo = some r)
  change (lookUp ref memo).elim _ _ = _
  rw [hr]
  rfl

/-- The remembering oracle gives an answer of the hierarchy. -/
theorem inherited (kind : String) (ref : MethodRef) :
    Sound h (Memo.inherited h kind ref) fun a =>
      ∃ n, h.annotationFrom kind n ref = .ok a := by
  intro memo a memo' hmemo hrun
  change Memo.inherited h kind ref memo = _ at hrun
  unfold Memo.inherited at hrun
  split at hrun
  · next r hr =>
    cases hrun
    exact annotationFrom kind h.pathBound ref memo a memo' hmemo hr
  · rcases hlookUp : Memo.lookUp h kind ref memo with _ | r
    · rw [hlookUp] at hrun
      cases hrun
    · rw [hlookUp] at hrun
      cases hrun
      exact lookUp hmemo hlookUp

end Sound

end StorageWeave.Weaving
