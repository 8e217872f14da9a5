import Mathlib.Data.List.Nodup
import StorageWeave.Weaving.Classification

/-!
# The persistent fields of a class

The eager and the lazy fields of a class, each sorted, are its persistent fields, each once
(`mem_eagerFields`, `mem_lazyFields`). Along levels whose field names are distinct, the names of
all persistent fields are distinct (`nodup_persistentFields`).
-/

namespace StorageWeave

open Bytecode Weaving

/-! ## Sorting -/

theorem eraseRepsBy_loop {α : Type} [BEq α] [LawfulBEq α] (a : α) (as acc : List α) :
    ∃ l, List.eraseRepsBy.loop (· == ·) a as acc = acc.reverse ++ l ∧ l.Sublist (a :: as) ∧
      ∀ x ∈ a :: as, x ∈ l := by
  induction as generalizing a acc with
  | nil => exact ⟨[a], by simp [List.eraseRepsBy.loop], List.Sublist.refl _, fun x hx => hx⟩
  | cons b as ih =>
    rw [List.eraseRepsBy.loop]
    split
    · next hab =>
      obtain ⟨l, hl, hsub, hmem⟩ := ih a acc
      obtain rfl : a = b := eq_of_beq hab
      refine ⟨l, hl, hsub.trans (List.sublist_cons_self a _), fun x hx => hmem x ?_⟩
      simpa using hx
    · obtain ⟨l, hl, hsub, hmem⟩ := ih b (a :: acc)
      refine ⟨a :: l, by simpa using hl, hsub.cons_cons a, fun x hx => ?_⟩
      rcases List.mem_cons.1 hx with rfl | hx
      · exact List.mem_cons_self
      · exact List.mem_cons_of_mem a (hmem x hx)

theorem eraseReps_sublist {α : Type} [BEq α] [LawfulBEq α] (l : List α) :
    l.eraseReps.Sublist l ∧ ∀ x ∈ l, x ∈ l.eraseReps := by
  rcases l with _ | ⟨a, as⟩
  · exact ⟨List.Sublist.refl _, fun x hx => hx⟩
  · obtain ⟨l, hl, hsub, hmem⟩ := eraseRepsBy_loop a as []
    have heq : (a :: as).eraseReps = l := hl
    rw [heq]
    exact ⟨hsub, hmem⟩

namespace Bytecode.FieldDef

theorem mem_sorted {fs : List FieldDef} {f : FieldDef} : f ∈ sorted fs ↔ f ∈ fs := by
  obtain ⟨hsub, hmem⟩ := eraseReps_sublist (fs.mergeSort le)
  exact ⟨fun h => List.mem_mergeSort.1 (hsub.mem h), fun h => hmem f (List.mem_mergeSort.2 h)⟩

theorem nodup_sorted {fs : List FieldDef} (h : fs.Nodup) : (sorted fs).Nodup :=
  (eraseReps_sublist _).1.nodup ((List.mergeSort_perm fs le).nodup_iff.2 h)

end Bytecode.FieldDef

namespace Weaving.Hierarchy

variable {h : Hierarchy} {c : ClassDef} {f : FieldDef}

theorem mem_eagerFields :
    f ∈ h.eagerFields c ↔ f ∈ c.fields ∧ f.isPersistent = true ∧ h.isLazy f.type = false := by
  simp [eagerFields, FieldDef.mem_sorted]

theorem mem_lazyFields :
    f ∈ h.lazyFields c ↔ f ∈ c.fields ∧ f.isPersistent = true ∧ h.isLazy f.type = true := by
  simp [lazyFields, FieldDef.mem_sorted]

/-- The persistent fields of the levels of a class, of each level the eager ones first. -/
def persistentFields (h : Hierarchy) (levels : List ClassDef) : List ResolvedField :=
  levels.flatMap fun d => (h.eagerFields d ++ h.lazyFields d).map (⟨d.name, ·⟩)

theorem mem_persistentFields {levels : List ClassDef} {r : ResolvedField} :
    r ∈ h.persistentFields levels ↔ ∃ d ∈ levels, r.declaring = d.name ∧ r.field ∈ d.fields ∧
      r.field.isPersistent = true := by
  simp only [persistentFields, List.mem_flatMap, List.mem_map, List.mem_append, mem_eagerFields,
    mem_lazyFields]
  constructor
  · rintro ⟨d, hd, f, hf, rfl⟩
    exact ⟨d, hd, rfl, hf.elim (·.1) (·.1), hf.elim (·.2.1) (·.2.1)⟩
  · rintro ⟨d, hd, hname, hf, hp⟩
    refine ⟨d, hd, r.field, ?_, by rw [← hname]⟩
    cases hlazy : h.isLazy r.field.type
    · exact .inl ⟨hf, hp, rfl⟩
    · exact .inr ⟨hf, hp, rfl⟩

/-- The names of all fields along the levels of a class. -/
def fieldNames (levels : List ClassDef) : List String :=
  levels.flatMap fun d => d.fields.map (·.name)

/-- Persistent fields have different names where all fields have. -/
theorem nodup_persistentFields {levels : List ClassDef} (hnames : (fieldNames levels).Nodup) :
    ((h.persistentFields levels).map (·.field.name)).Nodup := by
  induction levels with
  | nil => exact List.nodup_nil
  | cons d levels ih =>
    rw [fieldNames, List.flatMap_cons, List.nodup_append] at hnames
    obtain ⟨hd, hlevels, hdisjoint⟩ := hnames
    have hfields : d.fields.Nodup := List.Nodup.of_map _ hd
    have hlevel : (h.eagerFields d ++ h.lazyFields d).Nodup := by
      refine List.nodup_append.2 ⟨FieldDef.nodup_sorted (hfields.filter _),
        FieldDef.nodup_sorted (hfields.filter _), ?_⟩
      rintro f hf g hg rfl
      rw [mem_eagerFields] at hf
      rw [mem_lazyFields, hf.2.2] at hg
      cases hg.2.2
    have hmem {f : FieldDef} (hf : f ∈ h.eagerFields d ++ h.lazyFields d) : f ∈ d.fields := by
      rcases List.mem_append.1 hf with hf | hf
      · exact (mem_eagerFields.1 hf).1
      · exact (mem_lazyFields.1 hf).1
    rw [persistentFields, List.flatMap_cons, List.map_append, List.map_map, List.nodup_append]
    refine ⟨hlevel.map_on fun f hf g hg hfg => ?_, ih hlevels, ?_⟩
    · exact List.inj_on_of_nodup_map hd (hmem hf) (hmem hg) hfg
    · rintro n hn m hm rfl
      obtain ⟨f, hf, rfl⟩ := List.mem_map.1 hn
      obtain ⟨r, hr, hrname⟩ := List.mem_map.1 hm
      obtain ⟨e, he, -, hre, -⟩ := mem_persistentFields.1 hr
      refine hdisjoint f.name (List.mem_map_of_mem (hmem hf)) _ ?_ hrname.symm
      exact List.mem_flatMap.2 ⟨e, he, List.mem_map_of_mem hre⟩

theorem nodup_eagerFields {levels : List ClassDef} (hnames : (fieldNames levels).Nodup) :
    ((levels.flatMap h.eagerFields).map (·.name)).Nodup := by
  refine List.Sublist.nodup ?_ (nodup_persistentFields (h := h) hnames)
  clear hnames
  induction levels with
  | nil => exact .slnil
  | cons d levels ih =>
    rw [persistentFields, List.flatMap_cons, List.flatMap_cons, List.map_append, List.map_append,
      List.map_map, List.map_append]
    exact (List.sublist_append_left _ _).append ih

end Weaving.Hierarchy

end StorageWeave
