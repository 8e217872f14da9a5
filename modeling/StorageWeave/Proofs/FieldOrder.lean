import Mathlib.Data.List.Sort
import Mathlib.Data.Prod.Lex
import Mathlib.Data.String.Basic
import Mathlib.Data.Sum.Order
import StorageWeave.Proofs.Fields

/-!
# The order of fields

Fields are compared by their names, then by the names of their types, their types and their
modifiers. That is the lexicographic order of a key (`FieldDef.sortKey`), and different fields have
different keys. So a sorted list of fields is strictly increasing (`FieldDef.sortedLT_sorted`), and
it is the only such list of its members (`FieldDef.Lists.unique`).
-/

namespace StorageWeave

namespace Bytecode

/-! ## Keys -/

/-- The place of a type in the order: the primitive kinds come before the references. -/
def FieldType.sortKey : FieldType → ℕ ⊕ₗ String
  | .primitive kind => toLex (.inl kind.rank)
  | .reference className => toLex (.inr className)

/-- The place of a field in the order: its name, the name of its type, its type, its modifiers. -/
def FieldDef.sortKey (f : FieldDef) : String ×ₗ String ×ₗ (ℕ ⊕ₗ String) ×ₗ ℕ :=
  toLex (f.name, toLex (f.type.typeName, toLex (f.type.sortKey, f.access.bits.toNat)))

theorem PrimitiveKind.rank_injective : Function.Injective rank := by
  intro a b hab
  cases a <;> cases b <;> simp_all [rank]

namespace FieldType

theorem sortKey_injective : Function.Injective sortKey := by
  intro s t hst
  cases s <;> cases t <;> simp_all [sortKey, PrimitiveKind.rank_injective.eq_iff]

theorem order_eq_lt_iff {s t : FieldType} : s.order t = .lt ↔ s.sortKey < t.sortKey := by
  cases s <;> cases t <;>
    simp only [order, sortKey, Sum.Lex.toLex_lt_toLex, Sum.lex_inl_inl, Sum.lex_inr_inr,
      Sum.lex_inr_inl, Sum.Lex.sep, compare_lt_iff_lt, reduceCtorEq]

theorem order_eq_eq_iff {s t : FieldType} : s.order t = .eq ↔ s = t := by
  cases s <;> cases t <;> simp [order, PrimitiveKind.rank_injective.eq_iff]

end FieldType

namespace FieldDef

variable {f g : FieldDef}

theorem sortKey_injective : Function.Injective sortKey := by
  intro f g hfg
  obtain ⟨name, type, ⟨bits⟩⟩ := f
  obtain ⟨name', type', ⟨bits'⟩⟩ := g
  simp only [sortKey, EmbeddingLike.apply_eq_iff_eq, Prod.mk.injEq,
    FieldType.sortKey_injective.eq_iff, UInt16.toNat_inj] at hfg
  obtain ⟨rfl, -, rfl, rfl⟩ := hfg
  rfl

theorem order_eq_lt_iff : f.order g = .lt ↔ f.sortKey < g.sortKey := by
  simp only [order, sortKey, Ordering.then_eq_lt, Prod.Lex.toLex_lt_toLex, compare_lt_iff_lt,
    compare_eq_iff_eq, FieldType.order_eq_lt_iff, FieldType.order_eq_eq_iff,
    FieldType.sortKey_injective.eq_iff]

theorem order_eq_eq_iff : f.order g = .eq ↔ f = g := by
  rw [← sortKey_injective.eq_iff]
  simp only [order, sortKey, Ordering.then_eq_eq, compare_eq_iff_eq, FieldType.order_eq_eq_iff,
    EmbeddingLike.apply_eq_iff_eq, Prod.mk.injEq, FieldType.sortKey_injective.eq_iff]

theorem le_iff : f.le g = true ↔ f.sortKey ≤ g.sortKey := by
  rw [le_iff_lt_or_eq, ← order_eq_lt_iff, sortKey_injective.eq_iff, ← order_eq_eq_iff, le,
    decide_eq_true_eq]
  cases f.order g <;> simp

end FieldDef

end Bytecode

/-! ## Sorted fields -/

theorem eraseRepsBy_loop_isChain {α : Type} [BEq α] [LawfulBEq α] (a : α) (as acc : List α) :
    ∃ l, List.eraseRepsBy.loop (· == ·) a as acc = acc.reverse ++ a :: l ∧
      (a :: l).IsChain (· ≠ ·) := by
  induction as generalizing a acc with
  | nil => exact ⟨[], by simp [List.eraseRepsBy.loop], .singleton a⟩
  | cons b as ih =>
    rw [List.eraseRepsBy.loop]
    split
    · next hab =>
      obtain ⟨l, hl, hchain⟩ := ih a acc
      exact ⟨l, hl, hchain⟩
    · next hab =>
      obtain ⟨l, hl, hchain⟩ := ih b (a :: acc)
      refine ⟨b :: l, by simpa using hl, .cons_cons ?_ hchain⟩
      rintro rfl
      simp at hab

/-- No two neighbours are the same where repetitions have been erased. -/
theorem isChain_ne_eraseReps {α : Type} [BEq α] [LawfulBEq α] (l : List α) :
    l.eraseReps.IsChain (· ≠ ·) := by
  rcases l with _ | ⟨a, as⟩
  · exact .nil
  · obtain ⟨l, hl, hchain⟩ := eraseRepsBy_loop_isChain a as []
    have heq : (a :: as).eraseReps = a :: l := hl
    rwa [heq]

namespace Bytecode.FieldDef

theorem pairwise_mergeSort_le (fs : List FieldDef) :
    (fs.mergeSort le).Pairwise fun f g => f.sortKey ≤ g.sortKey := by
  simp only [← le_iff]
  refine List.pairwise_mergeSort (fun a b c hab hbc => ?_) (fun a b => ?_) fs
  · rw [le_iff] at *
    exact le_trans hab hbc
  · rw [Bool.or_eq_true, le_iff, le_iff]
    exact le_total _ _

/-- **Sorted fields are strictly increasing.** -/
theorem sortedLT_sorted (fs : List FieldDef) : ((sorted fs).map sortKey).SortedLT := by
  have hle : (sorted fs).Pairwise fun f g => f.sortKey ≤ g.sortKey :=
    (pairwise_mergeSort_le fs).sublist (eraseReps_sublist _).1
  have hne := List.isChain_iff_getElem.1 (isChain_ne_eraseReps (fs.mergeSort le))
  refine List.IsChain.sortedLT (List.isChain_iff_getElem.2 fun i hi => ?_)
  rw [List.length_map] at hi
  rw [List.getElem_map, List.getElem_map]
  refine lt_of_le_of_ne (List.pairwise_iff_getElem.1 hle i (i + 1) _ hi (Nat.lt_succ_self i)) ?_
  exact fun hkeys => hne i hi (sortKey_injective hkeys)

/-- `fs` lists the fields with `p` in their order, each once. -/
structure Lists (fs : List FieldDef) (p : FieldDef → Prop) : Prop where
  sortedLT : (fs.map sortKey).SortedLT
  mem_iff : ∀ f, f ∈ fs ↔ p f

/-- There is only one such list. -/
theorem Lists.unique {fs gs : List FieldDef} {p : FieldDef → Prop} (hfs : Lists fs p)
    (hgs : Lists gs p) : fs = gs := by
  refine List.map_injective_iff.2 sortKey_injective ?_
  refine hfs.sortedLT.eq_of_mem_iff hgs.sortedLT fun key => ?_
  simp only [List.mem_map, hfs.mem_iff, hgs.mem_iff]

end Bytecode.FieldDef

end StorageWeave
