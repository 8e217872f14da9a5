import StorageWeave.Proofs.Exactness
import StorageWeave.Proofs.Inheritance

/-!
# The remembering weaver fails as the exact one

A result of the weaver with the remembering oracle is one with the exact oracle (`Follows`). Here is
the other half: where the exact oracle gives a result so does the remembering one, and where one
fails the other fails for the same reason, up to the place where a look-up without an end is given
up. `Mirrors h x y` says both of two computations, and the weaver has it for methods and classes
(`weaveMethod_eq_ok_iff`, `weaveClass_eq_ok_iff` and the errors beside them).
-/

namespace StorageWeave.Weaving

open Bytecode

/-! ## The errors of a computation -/

theorem bind_eq_error {ε α β : Type} {x : Except ε α} {f : α → Except ε β} {e : ε} :
    x >>= f = .error e ↔ x = .error e ∨ ∃ a, x = .ok a ∧ f a = .error e := by
  cases x with
  | error e' => simp [bind, Except.bind]
  | ok a => simp [bind, Except.bind]

/-- Failing with errors that have `P` only, as a relation of which the second side is not looked
at. -/
def failingWith (P : WeaveError → Prop) :
    Correspondence (Except WeaveError) (Except WeaveError) where
  Rel x _ := FailsWith P x
  pure a := .ok a
  bind hx hf := hx.bind hf

/-- What a look-up fails with. -/
def lost : Correspondence (Except WeaveError) (Except WeaveError) :=
  failingWith fun e => e.isOfClass = false

variable {h : Hierarchy} {kind : String} {ref : MethodRef} {e : WeaveError}

/-- A look-up of the hierarchy fails for no fault of a class. -/
theorem Hierarchy.isOfClass_of_annotation_error (he : h.annotation kind ref = .error e) :
    e.isOfClass = false := by
  have hfrom (n : Nat) (ref : MethodRef) :
      lost.Rel (h.annotationFrom kind n ref) (h.annotationFrom kind n ref) := by
    induction n generalizing ref with
    | zero =>
      rintro e ⟨⟩
      rfl
    | succ n ih => exact lost.annotationAt (fun owner => ih { ref with owner }) h kind ref
  exact hfrom h.pathBound ref e he

theorem Memo.isOfClass_of_inherited {memo : Memo}
    (he : (inherited h kind ref).run memo = .error e) : e.isOfClass = false := by
  have hfrom (n : Nat) (ref : MethodRef) (memo : Memo) :
      lost.Rel ((annotationFrom h kind n ref).run memo)
        ((annotationFrom h kind n ref).run memo) := by
    induction n generalizing ref memo with
    | zero =>
      rintro e ⟨⟩
      rfl
    | succ n ih => exact consult_rel lost ih h kind ref memo
  change inherited h kind ref memo = .error e at he
  unfold inherited at he
  split at he
  · cases he
  · next e' he' =>
    cases hlook : lookUp h kind ref memo with
    | none =>
      rw [hlook] at he
      cases he
      exact hfrom h.pathBound ref memo e he'
    | some r =>
      rw [hlook] at he
      cases he

/-! ## Computations with the same outcome -/

/-- The same error, or two that are no fault of a class. -/
def WeaveError.Alike (e e' : WeaveError) : Prop :=
  e = e' ∨ e.isOfClass = false ∧ e'.isOfClass = false

theorem WeaveError.Alike.eq {e' : WeaveError} (he : e.Alike e')
    (hclass : e.isOfClass = true ∨ e'.isOfClass = true) : e = e' := by
  obtain rfl | ⟨h₁, h₂⟩ := he
  · rfl
  · simp [h₁, h₂] at hclass

/-- A remembering computation has the outcome of an exact one. -/
def Mirrors (h : Hierarchy) {α : Type} (x : Remembering α) (y : Except WeaveError α) : Prop :=
  ∀ memo : Memo, memo.Consistent h →
    (∃ a memo', x.run memo = .ok (a, memo') ∧ memo'.Consistent h ∧ y = .ok a) ∨
      ∃ e e', x.run memo = .error e ∧ y = .error e' ∧ e.Alike e'

namespace Mirrors

variable {α β : Type} {x : Remembering α} {y : Except WeaveError α}

theorem of_delivers {a : α} (hx : Delivers h x (· = a)) : Mirrors h x (.ok a) := by
  intro memo hmemo
  obtain ⟨a, memo', hrun, hmemo', rfl⟩ := hx memo hmemo
  exact .inl ⟨a, memo', hrun, hmemo', rfl⟩

theorem bind {f : α → Remembering β} {g : α → Except WeaveError β} (hx : Mirrors h x y)
    (hf : ∀ a, Mirrors h (f a) (g a)) : Mirrors h (x >>= f) (y >>= g) := by
  intro memo hmemo
  obtain ⟨a, memo', hrun, hmemo', rfl⟩ | ⟨e, e', hrun, rfl, he⟩ := hx memo hmemo
  · rw [StateT.run_bind, hrun]
    exact hf a memo' hmemo'
  · refine .inr ⟨e, e', ?_, rfl, he⟩
    rw [StateT.run_bind, hrun]
    rfl

/-- A computation that starts with nothing remembered has the results of the exact one, -/
theorem run'_eq_ok_iff {a : α} (hx : Mirrors h x y) : x.run' {} = .ok a ↔ y = .ok a := by
  rw [StateT.run'_eq]
  obtain ⟨a', memo, hrun, -, rfl⟩ | ⟨e, e', hrun, rfl, -⟩ := hx {} (Memo.consistent_empty h)
  · rw [hrun]
    exact Iff.rfl
  · rw [hrun]
    constructor
    · rintro ⟨⟩
    · rintro ⟨⟩

/-- and its errors. -/
theorem exists_of_run'_eq_error (hx : Mirrors h x y) (he : x.run' {} = .error e) :
    ∃ e', y = .error e' ∧ e.Alike e' := by
  rw [StateT.run'_eq] at he
  obtain ⟨a, memo, hrun, -, rfl⟩ | ⟨e, e', hrun, rfl, halike⟩ := hx {} (Memo.consistent_empty h)
  · rw [hrun] at he
    cases he
  · rw [hrun] at he
    cases he
    exact ⟨e', rfl, halike⟩

end Mirrors

/-- Having the same outcome as a relation between the computations of the two oracles. -/
def mirroring (h : Hierarchy) : Simulation Remembering (Except WeaveError) where
  Rel := Mirrors h
  pure _ := .of_delivers (.pure rfl)
  bind := .bind
  throw {_ e} _ _ _ := .inr ⟨e, e, rfl, rfl, .inl rfl⟩

theorem mirroring_agrees (h : Hierarchy) : (mirroring h).Agrees (.remembering h) (.exact h) where
  isStorage name := .of_delivers (.descent h .storage name)
  isContract name := .of_delivers (.descent h .contract name)
  lookUp kind ref := by
    rcases hexact : h.annotation kind ref with e' | r
    · intro memo hmemo
      rcases hrun : Memo.inherited h kind ref memo with e | ⟨r, memo'⟩
      · exact .inr ⟨e, e', hrun, hexact,
          .inr ⟨Memo.isOfClass_of_inherited hrun, Hierarchy.isOfClass_of_annotation_error hexact⟩⟩
      · have hr : h.annotation kind ref = .ok r :=
          ((following_agrees h).lookUp kind ref memo r memo' hmemo hrun).2
        rw [hexact] at hr
        cases hr
    · change Mirrors h _ (h.annotation kind ref)
      rw [hexact]
      exact .of_delivers (.inherited hexact)

/-! ## Methods and classes -/

variable {c : ClassDef} {m : MethodDef}

theorem weaveMethod_eq_ok_iff {w : WovenMethod} :
    weaveMethod h c m = .ok w ↔ MethodWeaver.weave h (.exact h) c m = .ok w :=
  ((mirroring_agrees h).weaveMethod h c m).run'_eq_ok_iff

theorem exists_of_weaveMethod_eq_error (he : weaveMethod h c m = .error e) :
    ∃ e', MethodWeaver.weave h (.exact h) c m = .error e' ∧ e.Alike e' :=
  ((mirroring_agrees h).weaveMethod h c m).exists_of_run'_eq_error he

theorem weaveClass_eq_ok_iff {w : WovenClass} :
    weaveClass h c = .ok w ↔ ClassWeaver.weave h (.exact h) c = .ok w :=
  ((mirroring_agrees h).weaveClass h c).run'_eq_ok_iff

theorem exists_of_weaveClass_eq_error (he : weaveClass h c = .error e) :
    ∃ e', ClassWeaver.weave h (.exact h) c = .error e' ∧ e.Alike e' :=
  ((mirroring_agrees h).weaveClass h c).exists_of_run'_eq_error he

end StorageWeave.Weaving
