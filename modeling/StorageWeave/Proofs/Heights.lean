import Mathlib.Algebra.BigOperators.Group.Finset.Basic
import Mathlib.Data.Finite.Prod
import Mathlib.Logic.Relation
import Mathlib.Order.Interval.Finset.Nat
import StorageWeave.Proofs.Injection

/-!
# Positions and heights

The search for the superclass call sees code as a machine whose states are a position and the height
of the operand stack (`Moves`). It follows the moves of instructions that it allows, as long as they
leave something on the stack (`Problem.Leads`).

A move can be made from any greater height as well (`Leads.raised`). So a loop that lets the stack
grow can be gone round for ever, and there are infinitely many visits to make. Without such a loop
the heights are bounded (`height_le_tallest`), since a path gains at a position at most what the
instruction there pushes once. Hence the visits are finitely many exactly if no loop lets the stack
grow (`finite_reachable_iff`).
-/

namespace StorageWeave

open Bytecode Weaving
open Relation (ReflTransGen)

/-- Switches, returns and throws: instructions that the search does not go beyond. -/
def Bytecode.Instruction.IsSwitchOrExit : Instruction → Prop
  | .switch _ _ => True
  | .return _ => True
  | .throw => True
  | _ => False

namespace Weaving.Injection

namespace Visit

/-- The height of the stack after an instruction. -/
def after (v : Visit) (i : Instruction) : Nat :=
  v.height - i.stackEffect.pops + i.stackEffect.pushes

/-- The same position with more on the stack. -/
def raised (v : Visit) (d : Nat) : Visit := ⟨v.position, v.height + d⟩

end Visit

/-- An instruction is executed at a visit: it stands there and finds its operands. -/
structure Executes (code : Array Instruction) (v : Visit) (i : Instruction) : Prop where
  present : code[v.position]? = some i
  operands : i.stackEffect.pops ≤ v.height

/-- An instruction takes one visit to another. -/
def Moves (code : Array Instruction) (v w : Visit) : Prop :=
  ∃ i, Executes code v i ∧ i.Continues v.position w.position ∧ w.height = v.after i

namespace Executes

variable {code : Array Instruction} {v : Visit} {i j : Instruction}

theorem unique (hi : Executes code v i) (hj : code[v.position]? = some j) : i = j :=
  Option.some.inj (hi.present.symm.trans hj)

theorem lt_size (hi : Executes code v i) : v.position < code.size :=
  (Array.getElem?_eq_some_iff.1 hi.present).1

theorem raised (hi : Executes code v i) (d : Nat) : Executes code (v.raised d) i :=
  ⟨hi.present, Nat.le_add_right_of_le hi.operands⟩

/-- What more there was on the stack is still there. -/
theorem after_raised (hi : Executes code v i) (d : Nat) : (v.raised d).after i = v.after i + d := by
  have := hi.operands
  simp only [Visit.after, Visit.raised]
  omega

end Executes

namespace Problem

variable {p : Problem} {u v w : Visit}

/-- An instruction that the search passes: it keeps the slot of the caller, and is no switch and no
exit. -/
def Allows (p : Problem) (i : Instruction) : Prop :=
  p.callerSlot ∉ i.storedSlots ∧ ¬ i.IsSwitchOrExit

/-- The search goes on from a visit to another. -/
def Leads (p : Problem) (v w : Visit) : Prop :=
  ∃ i, Executes p.code v i ∧ p.Allows i ∧ 0 < v.after i ∧ i.Continues v.position w.position ∧
    w.height = v.after i

/-- The least set of visits that has the one after the receiver is loaded, and from each visit those
that the search goes on to. -/
def Reachable (p : Problem) : Visit → Prop := ReflTransGen p.Leads ⟨1, 1⟩

/-- A visit at which the search meets no error. -/
def Fits (p : Problem) (v : Visit) : Prop :=
  ∃ i, Executes p.code v i ∧ p.Allows i ∧
    (v.after i = 0 → i.isConstructorCallOf p.superclass = true)

/-- A visit at which a constructor of the superclass takes the last value from the stack. -/
def CallsSuper (p : Problem) (v : Visit) : Prop :=
  ∃ i, Executes p.code v i ∧ p.Allows i ∧ v.after i = 0 ∧
    i.isConstructorCallOf p.superclass = true

/-- A loop that can be reached lets the stack grow. -/
def Grows (p : Problem) : Prop :=
  ∃ v w, p.Reachable v ∧ ReflTransGen p.Leads v w ∧ w.position = v.position ∧ v.height < w.height

theorem Reachable.next (hv : p.Reachable v) (h : p.Leads v w) : p.Reachable w := hv.tail h

/-! ## Greater heights -/

theorem Leads.raised (h : p.Leads v w) (d : Nat) : p.Leads (v.raised d) (w.raised d) := by
  obtain ⟨i, hi, hallows, hpos, hcontinues, hheight⟩ := h
  refine ⟨i, hi.raised d, hallows, ?_, hcontinues, ?_⟩
  · rw [hi.after_raised]
    omega
  · rw [hi.after_raised, ← hheight]
    rfl

theorem raised_of_leads (h : ReflTransGen p.Leads v w) (d : Nat) :
    ReflTransGen p.Leads (v.raised d) (w.raised d) := by
  induction h with
  | refl => exact .refl
  | tail _ hleads ih => exact ih.tail (hleads.raised d)

/-! ## Growing loops -/

/-- A loop that lets the stack grow makes infinitely many visits. -/
theorem infinite_of_grows (h : p.Grows) : {v | p.Reachable v}.Infinite := by
  obtain ⟨v, w, hv, hloop, hposition, hheight⟩ := h
  obtain ⟨d, hd⟩ := Nat.exists_eq_add_of_lt hheight
  obtain rfl : w = v.raised (d + 1) := by
    cases w
    cases v
    simp_all [Visit.raised, Nat.add_assoc]
  -- going round `n` times gains `n * (d + 1)`
  have hround (n : Nat) : p.Reachable (v.raised (n * (d + 1))) := by
    induction n with
    | zero => simpa [Visit.raised] using hv
    | succ n ih =>
      have hnext := raised_of_leads hloop (n * (d + 1))
      have hsum : (v.raised (d + 1)).raised (n * (d + 1)) = v.raised ((n + 1) * (d + 1)) := by
        simp only [Visit.raised, Visit.mk.injEq, true_and, Nat.succ_mul]
        omega
      rw [hsum] at hnext
      exact ih.trans hnext
  refine Set.infinite_of_injective_forall_mem (f := fun n => v.raised (n * (d + 1))) ?_ hround
  intro m n hmn
  exact Nat.eq_of_mul_eq_mul_right d.succ_pos (by simpa [Visit.raised] using hmn)

/-! ## Bounded heights -/

/-- A path from a place either ends there or leaves it for the last time. -/
theorem exists_last {α : Type} {r : α → α → Prop} {P : α → Prop} {a b : α} (ha : P a)
    (h : ReflTransGen r a b) :
    ∃ u, P u ∧ ReflTransGen r a u ∧
      (u = b ∨ ∃ u', r u u' ∧ ReflTransGen (fun x y => r x y ∧ ¬ P x) u' b) := by
  induction h with
  | refl => exact ⟨a, ha, .refl, .inl rfl⟩
  | @tail b c hab hbc ih =>
    by_cases hb : P b
    · exact ⟨b, hb, hab, .inr ⟨c, hbc, .refl⟩⟩
    · obtain ⟨u, hu, hau, rfl | ⟨u', huu', hu'b⟩⟩ := ih
      · exact absurd hu hb
      · exact ⟨u, hu, hau, .inr ⟨u', huu', hu'b.tail ⟨hbc, hb⟩⟩⟩

/-- What the instruction of a position pushes. -/
def pushesAt (p : Problem) (b : Nat) : Nat := (p.code[b]?).elim 0 fun i => i.stackEffect.pushes

/-- The height that the search does not go beyond, if no loop lets the stack grow. -/
def tallest (p : Problem) : Nat := 1 + ∑ b ∈ Finset.range p.code.size, p.pushesAt b

theorem Leads.height_le (h : p.Leads v w) : w.height ≤ v.height + p.pushesAt v.position := by
  obtain ⟨i, hi, -, -, -, hheight⟩ := h
  rw [hheight, Visit.after, pushesAt, hi.present]
  exact Nat.add_le_add_right (Nat.sub_le _ _) _

/-- A path through given positions gains at most what their instructions push once. -/
theorem height_le_add_sum (hgrows : ¬ p.Grows) (S : Finset Nat) (hv : p.Reachable v)
    (h : ReflTransGen (fun a b => p.Leads a b ∧ a.position ∈ S) v w) :
    w.height ≤ v.height + ∑ b ∈ S, p.pushesAt b := by
  induction S using Finset.strongInduction generalizing v with
  | H S ih =>
    -- the path leaves the position of `v` for the last time at `u`, no higher than `v`
    obtain ⟨u, hu, hvu, hlast⟩ := exists_last (P := fun x => x.position = v.position) rfl h
    have hvu' : ReflTransGen p.Leads v u := ReflTransGen.mono (fun _ _ hab => hab.1) _ _ hvu
    have hle : u.height ≤ v.height := by
      by_contra hlt
      exact hgrows ⟨v, u, hv, hvu', hu, by omega⟩
    obtain rfl | ⟨u', ⟨huu', hmem⟩, hrest⟩ := hlast
    · omega
    · have hrest' : ReflTransGen (fun a b => p.Leads a b ∧ a.position ∈ S.erase u.position) u' w :=
        ReflTransGen.mono
          (fun a b hab => ⟨hab.1.1, Finset.mem_erase.2 ⟨hu ▸ hab.2, hab.1.2⟩⟩) _ _ hrest
      have hbound := ih _ (Finset.erase_ssubset hmem) ((hv.trans hvu').tail huu') hrest'
      have hstep := huu'.height_le
      have hsum := Finset.add_sum_erase S p.pushesAt hmem
      omega

theorem Leads.lt_size (h : p.Leads v w) : v.position < p.code.size := by
  obtain ⟨i, hi, -⟩ := h
  exact hi.lt_size

/-- **Without a growing loop the heights are bounded.** -/
theorem height_le_tallest (hgrows : ¬ p.Grows) (hv : p.Reachable v) : v.height ≤ p.tallest := by
  have hpath : ReflTransGen (fun a b => p.Leads a b ∧ a.position ∈ Finset.range p.code.size)
      ⟨1, 1⟩ v :=
    ReflTransGen.mono (fun a b hab => ⟨hab, Finset.mem_range.2 hab.lt_size⟩) _ _ hv
  exact height_le_add_sum hgrows _ .refl hpath

/-- Control comes to the next position or to the target of a branch. -/
theorem le_or_lt_of_continues {i : Instruction} {b b' : Nat} (h : i.Continues b b') :
    b' ≤ b + 1 ∨ b' < Code.targetBound := by
  unfold Instruction.Continues at h
  split at h
  · exact .inl h.le
  · next t _ => exact .inr (h ▸ t.toNat_lt)
  · next t _ =>
    rcases h with rfl | rfl
    · exact .inr t.toNat_lt
    · exact .inl le_rfl
  · obtain ⟨t, -, rfl⟩ := h
    exact .inr t.toNat_lt
  · cases h

theorem Reachable.position_le (hv : p.Reachable v) :
    v.position ≤ p.code.size + 1 + Code.targetBound := by
  induction hv with
  | refl => exact Nat.le_add_right_of_le (Nat.le_add_left 1 _)
  | tail _ hleads _ =>
    have hlt := hleads.lt_size
    obtain ⟨i, -, -, -, hcontinues, -⟩ := hleads
    have := le_or_lt_of_continues hcontinues
    omega

theorem Reachable.height_pos (hv : p.Reachable v) : 0 < v.height := by
  induction hv with
  | refl => exact Nat.one_pos
  | tail _ hleads _ =>
    obtain ⟨i, -, -, hpos, -, hheight⟩ := hleads
    omega

/-- **The visits to make are finitely many** exactly if no loop lets the stack grow. -/
theorem finite_reachable_iff : {v | p.Reachable v}.Finite ↔ ¬ p.Grows := by
  refine ⟨fun hfinite hgrows => infinite_of_grows hgrows hfinite, fun hgrows => ?_⟩
  refine (Set.Finite.image2 Visit.mk (Set.finite_Iic (p.code.size + 1 + Code.targetBound))
    (Set.finite_Iic p.tallest)).subset fun v hv => ?_
  exact ⟨v.position, hv.position_le, v.height, height_le_tallest hgrows hv, rfl⟩

end Problem

/-- A move of an allowed instruction can be made by the search with more on the stack. -/
theorem Moves.leads_raised {p : Problem} {v w : Visit} (h : Moves p.code v w)
    (hallows : ∀ i, p.code[v.position]? = some i → p.Allows i) {d : Nat} (hd : 0 < d) :
    p.Leads (v.raised d) (w.raised d) := by
  obtain ⟨i, hi, hcontinues, hheight⟩ := h
  refine ⟨i, hi.raised d, hallows i hi.present, ?_, hcontinues, ?_⟩
  · rw [hi.after_raised]
    omega
  · rw [hi.after_raised, ← hheight]
    rfl

end Weaving.Injection

end StorageWeave
