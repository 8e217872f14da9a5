import Mathlib.Logic.Relation
import StorageWeave.Proofs.Interleaving

/-!
# Verdicts on descent

Whether a class is one of persistent objects, or a contract, is reachability of a root along
superclasses (`Hierarchy.descendsFrom_iff_reflTransGen`). The remembering oracle keeps the verdict
of a walk for all classes walked over, and later walks stop where they meet one of them, or a class
that they have walked over themselves. That changes no verdict: in whatever order the two questions
are asked of one oracle, each answer says whether the root can be reached
(`verdicts_iff_reachable`), also on hierarchies with cycles.

`Delivers h x P` is the total form of `Sound h x P`: from a consistent memo there is a result.
-/

namespace StorageWeave.Weaving

open Bytecode
open Relation (ReflTransGen)

/-! ## Computations that come to a result -/

/-- From a consistent memo a computation comes to a result with `P`, and to a consistent memo. -/
def Delivers (h : Hierarchy) {α : Type} (x : Remembering α) (P : α → Prop) : Prop :=
  ∀ memo : Memo, memo.Consistent h →
    ∃ a memo', x.run memo = .ok (a, memo') ∧ memo'.Consistent h ∧ P a

theorem Sound.delivers {h : Hierarchy} {α : Type} {x : Remembering α} {P : α → Prop}
    (hx : Sound h x P) (hrun : ∀ memo : Memo, memo.Consistent h → ∃ r, x.run memo = .ok r) :
    Delivers h x P := by
  intro memo hmemo
  obtain ⟨⟨a, memo'⟩, hr⟩ := hrun memo hmemo
  exact ⟨a, memo', hr, hx memo a memo' hmemo hr⟩

namespace Delivers

variable {h : Hierarchy} {α β : Type} {x : Remembering α} {P : α → Prop}

theorem pure {a : α} (ha : P a) : Delivers h (Pure.pure a) P :=
  fun memo hmemo => ⟨a, memo, rfl, hmemo, ha⟩

theorem bind {f : α → Remembering β} {Q : β → Prop} (hx : Delivers h x P)
    (hf : ∀ a, P a → Delivers h (f a) Q) : Delivers h (x >>= f) Q := by
  intro memo hmemo
  obtain ⟨a, memo₁, hrun, hmemo₁, ha⟩ := hx memo hmemo
  obtain ⟨b, memo₂, hrun', hmemo₂, hb⟩ := hf a ha memo₁ hmemo₁
  refine ⟨b, memo₂, ?_, hmemo₂, hb⟩
  rw [StateT.run_bind, hrun]
  exact hrun'

/-- One result after the other, each with what holds of the results for its element. -/
theorem mapM {f : α → Remembering β} {R : α → β → Prop} (hf : ∀ a, Delivers h (f a) (R a))
    (as : List α) : Delivers h (as.mapM f) (List.Forall₂ R as) := by
  induction as with
  | nil => exact pure .nil
  | cons a as ih =>
    rw [List.mapM_cons]
    refine bind (hf a) fun b hb => ?_
    refine bind ih fun bs hbs => ?_
    exact pure (.cons hb hbs)

end Delivers

/-! ## Reachability -/

namespace Hierarchy

variable {h : Hierarchy} {x y : String}

/-- One step to a superclass. The contract root extends the storage root where it is not seen. -/
inductive Extends (h : Hierarchy) : String → String → Prop where
  | indexed {x y : String} {c : ClassDef} (hc : h.index.get? x = some c)
      (hy : c.superclass = some y) : Extends h x y
  | contractRoot (hunseen : h.index.get? h.config.contractRoot = none) :
      Extends h h.config.contractRoot h.config.storageRoot

theorem extends_iff : h.Extends x y ↔ h.superclassOf x = some y := by
  constructor
  · rintro (⟨hc, hy⟩ | hunseen)
    · rw [superclassOf_of_get? hc, hy]
    · rw [superclassOf, hunseen]
      exact if_pos rfl
  · intro hy
    rcases hc : h.index.get? x with _ | c
    · simp only [superclassOf, hc, Option.ite_none_right_eq_some, Option.some.injEq] at hy
      obtain ⟨rfl, rfl⟩ := hy
      exact .contractRoot hc
    · rw [superclassOf_of_get? hc] at hy
      exact .indexed hc hy

theorem reflTransGen_extends_iff :
    ReflTransGen h.Extends x y ↔ ∃ n, climb h.superclassOf n x = some y := by
  constructor
  · intro hreach
    induction hreach using ReflTransGen.head_induction_on with
    | refl => exact ⟨0, rfl⟩
    | head hstep _ ih =>
      obtain ⟨n, hn⟩ := ih
      exact ⟨n + 1, by rw [climb_succ_of_next (extends_iff.1 hstep), hn]⟩
  · rintro ⟨n, hn⟩
    induction n generalizing x with
    | zero =>
      cases hn
      exact .refl
    | succ n ih =>
      obtain ⟨s, hs, hn⟩ := Option.bind_eq_some_iff.1 hn
      exact .head (extends_iff.2 hs) (ih hn)

theorem descendsFrom_iff_reflTransGen :
    h.descendsFrom y x = true ↔ ReflTransGen h.Extends x y := by
  rw [descendsFrom_iff, reflTransGen_extends_iff]

end Hierarchy

/-! ## Verdicts -/

/-- Asks an oracle about the descent of a class. -/
def Task.Descent.ask {m : Type → Type} (o : Oracle m) : Task.Descent → String → m Bool
  | storage => o.isStorage
  | contract => o.isContract

theorem Delivers.descent (h : Hierarchy) (d : Task.Descent) (name : String) :
    Delivers h (d.ask (.remembering h) name) (· = h.descendsFrom (d.root h) name) := by
  cases d with
  | storage => exact (Sound.isStorage name).delivers fun memo _ => ⟨_, rfl⟩
  | contract => exact (Sound.isContract name).delivers fun memo _ => ⟨_, rfl⟩

/-- **Verdicts are reachability**, whatever was asked before. -/
theorem verdicts_iff_reachable (h : Hierarchy) (questions : List (Task.Descent × String)) :
    ∃ verdicts memo,
      (questions.mapM fun (q : Task.Descent × String) => q.1.ask (.remembering h) q.2).run {} =
        .ok (verdicts, memo) ∧
      List.Forall₂ (fun q verdict => verdict = true ↔ ReflTransGen h.Extends q.2 (q.1.root h))
        questions verdicts := by
  have hanswers := Delivers.mapM (fun q : Task.Descent × String => .descent h q.1 q.2) questions
  obtain ⟨verdicts, memo, hrun, -, hverdicts⟩ := hanswers {} (Memo.consistent_empty h)
  refine ⟨verdicts, memo, hrun, hverdicts.imp fun q verdict hverdict => ?_⟩
  rw [hverdict, Hierarchy.descendsFrom_iff_reflTransGen]

end StorageWeave.Weaving
