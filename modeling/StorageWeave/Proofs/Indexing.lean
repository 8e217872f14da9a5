import Mathlib.Data.List.Nodup
import Mathlib.Logic.Relation
import StorageWeave.Proofs.Woven

/-!
# Building an index

The archives that are indexed may be read at the same time, by one task each. A task adds the class
entries of its archive in order, and the additions of several tasks come in any order. Neither the
outcome nor the index depends on it: there is an index exactly if every entry holds a class and the
entries that hold classes of one name have the same bytes (`Coherent`), and then it holds the
classes of all entries (`build_conflict_exact`). Every step keeps account of the entries: what is
not pending is in the index, and nothing else is (`Accounts`).
-/

namespace StorageWeave.Weaving.ClassIndex

open Bytecode

variable {b b' : Building} {e : Archive.Entry} {E : List Archive.Entry}

/-! ## Adding an entry -/

/-- **An entry is added** behind the others, or is there with the same digest. -/
theorem Building.addEntry_eq_ok (hb : b.addEntry e = .ok b') :
    ∃ c, ClassDef.ofBytes? e.data = some c ∧
      ((b.index.find? c.name = none ∧ b'.index.classes = b.index.classes ++ [⟨c, e.data⟩]) ∨
        ∃ known, b.index.find? c.name = some known ∧ known.digest = Digest.sha256 e.data ∧
          b'.index = b.index) := by
  unfold addEntry at hb
  rcases hc : ClassDef.ofBytes? e.data with _ | c
  · rw [hc] at hb
    cases hb
  rw [hc] at hb
  obtain ⟨⟨index, again⟩, hinsert, hb⟩ := bind_eq_ok.1 hb
  cases hb
  refine ⟨c, rfl, ?_⟩
  unfold insert at hinsert
  rcases hfound : b.index.find? c.name with _ | known
  · rw [hfound] at hinsert
    cases hinsert
    exact .inl ⟨rfl, rfl⟩
  · simp only [hfound] at hinsert
    split at hinsert
    · next hdigest =>
      cases hinsert
      exact .inr ⟨known, rfl, hdigest, rfl⟩
    · cases hinsert

theorem Building.addEntry_of_fresh {c : ClassDef} (hread : ClassDef.ofBytes? e.data = some c)
    (hfresh : b.index.find? c.name = none) :
    b.addEntry e = .ok { b with index := ⟨b.index.classes ++ [⟨c, e.data⟩]⟩ } := by
  simp only [addEntry, hread, add, insert, hfresh]
  simp [bind, Except.bind, pure, Except.pure]

/-- **An entry is refused** if it holds no class, or if a class of its name is there with another
digest. -/
theorem Building.addEntry_eq_error {err : WeaveError} (hb : b.addEntry e = .error err) :
    (ClassDef.ofBytes? e.data = none ∧ err = .invalidClass e.name) ∨
      ∃ c known, ClassDef.ofBytes? e.data = some c ∧ b.index.find? c.name = some known ∧
        known.digest ≠ Digest.sha256 e.data ∧ err = .classConflict c.name := by
  unfold addEntry at hb
  rcases hc : ClassDef.ofBytes? e.data with _ | c
  · rw [hc] at hb
    cases hb
    exact .inl ⟨rfl, rfl⟩
  refine .inr ⟨c, ?_⟩
  simp only [hc, add, insert] at hb
  rcases hfound : b.index.find? c.name with _ | known
  · simp only [hfound] at hb
    cases hb
  · simp only [hfound] at hb
    split at hb
    · cases hb
    · next hdigest =>
      cases hb
      exact ⟨known, rfl, rfl, hdigest, rfl⟩

theorem mem_of_find? {x : ClassIndex} {name : String} {c : IndexedClass}
    (h : x.find? name = some c) : c ∈ x.classes ∧ c.definition.name = name :=
  ⟨List.mem_of_find?_eq_some h, by simpa using List.find?_some h⟩

theorem not_mem_of_find? {x : ClassIndex} {name : String} (h : x.find? name = none) :
    name ∉ x.classes.map (·.definition.name) := by
  rw [find?, List.find?_eq_none] at h
  rw [List.mem_map]
  rintro ⟨c, hc, hname⟩
  exact h c hc (by simpa using hname)

/-- In an index whose names are distinct, every class is found by its name. -/
theorem find?_eq_some_iff {x : ClassIndex}
    (hx : (x.classes.map (·.definition.name)).Nodup) {name : String} {c : IndexedClass} :
    x.find? name = some c ↔ c ∈ x.classes ∧ c.definition.name = name := by
  refine ⟨mem_of_find?, ?_⟩
  rintro ⟨hc, rfl⟩
  rcases hfound : x.find? c.definition.name with _ | known
  · exact absurd (List.mem_map_of_mem hc) (not_mem_of_find? hfound)
  · obtain ⟨hknown, hname⟩ := mem_of_find? hfound
    rw [List.inj_on_of_nodup_map hx hknown hc hname]

/-- The classes of an index are those of entries, each under its own name. -/
structure Sourced (E : List Archive.Entry) (x : ClassIndex) : Prop where
  nodup : (x.classes.map (·.definition.name)).Nodup
  source : ∀ c ∈ x.classes, ∃ e ∈ E, e.data = c.source ∧
    ClassDef.ofBytes? e.data = some c.definition

/-- An index has a class of the name and with the digest of an entry. -/
def Records (x : ClassIndex) (e : Archive.Entry) : Prop :=
  ∃ d, ClassDef.ofBytes? e.data = some d ∧
    ∃ c ∈ x.classes, c.definition.name = d.name ∧ c.digest = Digest.sha256 e.data

theorem Sourced.addEntry (hx : Sourced E b.index) (he : e ∈ E) (hadd : b.addEntry e = .ok b') :
    Sourced E b'.index := by
  obtain ⟨c, hc, ⟨hfresh, hclasses⟩ | ⟨known, -, -, hindex⟩⟩ := Building.addEntry_eq_ok hadd
  swap
  · rwa [hindex]
  refine ⟨?_, ?_⟩
  · rw [hclasses, List.map_append, List.map_singleton, ← List.concat_eq_append]
    exact hx.nodup.concat (not_mem_of_find? hfresh)
  · intro c' hc'
    rw [hclasses, List.mem_append, List.mem_singleton] at hc'
    rcases hc' with hc' | rfl
    · exact hx.source c' hc'
    · exact ⟨e, he, rfl, hc⟩

theorem records_addEntry (hadd : b.addEntry e = .ok b') : Records b'.index e := by
  obtain ⟨c, hc, ⟨-, hclasses⟩ | ⟨known, hknown, hdigest, hindex⟩⟩ := Building.addEntry_eq_ok hadd
  · exact ⟨c, hc, ⟨c, e.data⟩, by simp [hclasses], rfl, rfl⟩
  · obtain ⟨hknown, hname⟩ := mem_of_find? hknown
    exact ⟨c, hc, known, by rwa [hindex], hname, hdigest⟩

theorem Records.addEntry {e' : Archive.Entry} (he' : Records b.index e')
    (hadd : b.addEntry e = .ok b') : Records b'.index e' := by
  obtain ⟨d, hd, c', hc', hrest⟩ := he'
  obtain ⟨c, -, ⟨-, hclasses⟩ | ⟨-, -, -, hindex⟩⟩ := Building.addEntry_eq_ok hadd
  · exact ⟨d, hd, c', by simp [hclasses, hc'], hrest⟩
  · exact ⟨d, hd, c', by rwa [hindex], hrest⟩

/-! ## Several tasks -/

/-- An index that several tasks build at the same time. -/
structure Construction where
  building : Building := {}
  /-- What each of the tasks has still to add. -/
  pending : List (List Archive.Entry)

namespace Construction

variable {s t : Construction}

/-- One task adds its next entry. -/
inductive Step : Construction → Construction → Prop
  | add (b b' : Building) (e : Archive.Entry) (rest : List Archive.Entry)
      (before after : List (List Archive.Entry)) (h : b.addEntry e = .ok b') :
    Step ⟨b, before ++ (e :: rest) :: after⟩ ⟨b', before ++ rest :: after⟩

/-- What a construction has come to: an index when nothing is pending, or the error of a task whose
next entry is refused. -/
inductive Yields : Construction → Except WeaveError Building → Prop
  | ok (b : Building) (pending : List (List Archive.Entry)) (h : ∀ es ∈ pending, es = []) :
    Yields ⟨b, pending⟩ (.ok b)
  | error (b : Building) (e : Archive.Entry) (rest : List Archive.Entry)
      (before after : List (List Archive.Entry)) (err : WeaveError)
      (h : b.addEntry e = .error err) :
    Yields ⟨b, before ++ (e :: rest) :: after⟩ (.error err)

/-- One task for each archive. -/
def start (archives : List Archive) : Construction where
  pending := archives.map Archive.classEntries

/-- `r` comes out in some order of the additions. -/
def Outcome (archives : List Archive) (r : Except WeaveError Building) : Prop :=
  ∃ s, Relation.ReflTransGen Step (start archives) s ∧ s.Yields r

/-- **Every order** of additions comes to an end. -/
theorem wellFounded_step : WellFounded fun t s : Construction => s.Step t := by
  refine Subrelation.wf ?_ (measure fun s : Construction => s.pending.flatten.length).wf
  rintro _ _ ⟨b, b', e, rest, before, after, -⟩
  simp only [InvImage, WellFoundedRelation.rel, List.flatten_append, List.flatten_cons,
    List.length_append, List.length_cons]
  omega

/-- A construction goes on until it has come to something. -/
theorem exists_step_or_yields (s : Construction) : (∃ t, s.Step t) ∨ ∃ r, s.Yields r := by
  obtain ⟨b, pending⟩ := s
  by_cases hdone : ∀ es ∈ pending, es = []
  · exact .inr ⟨_, .ok b pending hdone⟩
  push Not at hdone
  obtain ⟨es, hes, hne⟩ := hdone
  obtain ⟨before, after, rfl⟩ := List.append_of_mem hes
  obtain ⟨e, rest, rfl⟩ := List.exists_cons_of_ne_nil hne
  rcases hadd : b.addEntry e with err | b'
  · exact .inr ⟨_, .error b e rest before after err hadd⟩
  · exact .inl ⟨_, .add b b' e rest before after hadd⟩

/-- Every order of additions comes to something. -/
theorem exists_yields (s : Construction) :
    ∃ t r, Relation.ReflTransGen Step s t ∧ t.Yields r := by
  induction s using wellFounded_step.induction with
  | _ s ih =>
    obtain ⟨t, hstep⟩ | ⟨r, hr⟩ := s.exists_step_or_yields
    · obtain ⟨u, r, hrun, hr⟩ := ih t hstep
      exact ⟨u, r, .head hstep hrun, hr⟩
    · exact ⟨s, r, .refl, hr⟩

/-! ## Archives one after the other -/

theorem run_task {b b' : Building} {es : List Archive.Entry}
    (hes : es.foldlM Building.addEntry b = .ok b') (before after : List (List Archive.Entry)) :
    Relation.ReflTransGen Step ⟨b, before ++ es :: after⟩ ⟨b', before ++ [] :: after⟩ := by
  induction es generalizing b with
  | nil =>
    cases hes
    exact .refl
  | cons e es ih =>
    rw [List.foldlM_cons] at hes
    obtain ⟨b₁, hadd, hes⟩ := bind_eq_ok.1 hes
    exact .head (.add b b₁ e es before after hadd) (ih hes)

theorem exists_yields_task {b : Building} {es : List Archive.Entry} {err : WeaveError}
    (hes : es.foldlM Building.addEntry b = .error err)
    (before after : List (List Archive.Entry)) :
    ∃ s, Relation.ReflTransGen Step ⟨b, before ++ es :: after⟩ s ∧ s.Yields (.error err) := by
  induction es generalizing b with
  | nil => cases hes
  | cons e es ih =>
    rw [List.foldlM_cons] at hes
    rcases hadd : b.addEntry e with err' | b₁
    · rw [hadd] at hes
      cases hes
      exact ⟨_, .refl, .error b e es before after err hadd⟩
    · rw [hadd] at hes
      obtain ⟨s, hrun, hs⟩ := ih hes
      exact ⟨s, .head (.add b b₁ e es before after hadd) hrun, hs⟩

theorem exists_yields_tasks (b : Building) (before after : List (List Archive.Entry))
    (hbefore : ∀ es ∈ before, es = []) :
    ∃ s, Relation.ReflTransGen Step ⟨b, before ++ after⟩ s ∧
      s.Yields (after.flatten.foldlM Building.addEntry b) := by
  induction after generalizing b before with
  | nil => exact ⟨_, .refl, .ok b _ (by simpa using hbefore)⟩
  | cons es after ih =>
    rw [List.flatten_cons, List.foldlM_append]
    rcases hes : es.foldlM Building.addEntry b with err | b'
    · exact exists_yields_task hes before after
    · obtain ⟨s, hrun, hs⟩ := ih b' (before ++ [[]])
        (by simpa [or_imp, forall_and] using hbefore)
      rw [List.append_assoc] at hrun
      exact ⟨s, (run_task hes before after).trans hrun, hs⟩

/-- Adding the archives one after the other is one of the orders. -/
theorem outcome_build (archives : List Archive) : Outcome archives (build archives) := by
  rw [build, List.flatMap_def]
  exact exists_yields_tasks {} [] _ (by simp)

/-! ## Accounts -/

/-- A construction accounts for all entries: its index has the classes of entries, and an entry is
pending or in the index. -/
structure Accounts (E : List Archive.Entry) (s : Construction) : Prop where
  sourced : Sourced E s.building.index
  pending : s.pending.flatten ⊆ E
  added : ∀ e ∈ E, e ∈ s.pending.flatten ∨ Records s.building.index e

theorem accounts_start (archives : List Archive) :
    Accounts (archives.flatMap Archive.classEntries) (start archives) where
  sourced := ⟨List.nodup_nil, nofun⟩
  pending := by rw [start, List.flatMap_def]; exact List.Subset.refl _
  added e he := .inl (by rwa [start, ← List.flatMap_def])

theorem Accounts.step (hs : Accounts E s) (hstep : s.Step t) : Accounts E t := by
  obtain ⟨b, b', e, rest, before, after, hadd⟩ := hstep
  have hpending : e ∈ E ∧ (before ++ rest :: after).flatten ⊆ E := by
    have := hs.pending
    simp_all [List.append_subset]
  refine ⟨hs.sourced.addEntry hpending.1 hadd, hpending.2, fun e' he' => ?_⟩
  obtain he' | he' := hs.added e' he'
  · by_cases h : e' = e
    · rw [h]
      exact .inr (records_addEntry hadd)
    · left
      simpa [h] using he'
  · exact .inr (he'.addEntry hadd)

/-- **In every order** of additions the entries are accounted for. -/
theorem Accounts.run (hs : Accounts E s) (hrun : Relation.ReflTransGen Step s t) :
    Accounts E t := by
  induction hrun with
  | refl => exact hs
  | tail _ hstep ih => exact ih.step hstep

end Construction

/-! ## Coherent entries -/

/-- Every entry holds a class, and those that hold classes of one name have the same bytes. -/
structure Coherent (E : List Archive.Entry) : Prop where
  readable : ∀ e ∈ E, ∃ c, ClassDef.ofBytes? e.data = some c
  agree : ∀ e₁ ∈ E, ∀ e₂ ∈ E, ∀ c₁ c₂, ClassDef.ofBytes? e₁.data = some c₁ →
    ClassDef.ofBytes? e₂.data = some c₂ → c₁.name = c₂.name → e₁.data = e₂.data

theorem Coherent.of_subset {E' : List Archive.Entry} (hE : Coherent E) (hsub : E' ⊆ E) :
    Coherent E' :=
  ⟨fun e he => hE.readable e (hsub he), fun e₁ h₁ e₂ h₂ => hE.agree e₁ (hsub h₁) e₂ (hsub h₂)⟩

/-- Digests tell the bytes of entries apart. -/
def DigestsDiffer (E : List Archive.Entry) : Prop :=
  ∀ e₁ ∈ E, ∀ e₂ ∈ E, Digest.sha256 e₁.data = Digest.sha256 e₂.data → e₁.data = e₂.data

instance : Decidable (DigestsDiffer E) :=
  inferInstanceAs (Decidable (∀ e₁ ∈ E, ∀ e₂ ∈ E,
    Digest.sha256 e₁.data = Digest.sha256 e₂.data → e₁.data = e₂.data))

theorem DigestsDiffer.of_subset {E' : List Archive.Entry} (hE : DigestsDiffer E) (hsub : E' ⊆ E) :
    DigestsDiffer E' :=
  fun e₁ h₁ e₂ h₂ => hE e₁ (hsub h₁) e₂ (hsub h₂)

namespace Sourced

variable {x : ClassIndex}

/-- **The classes** of a complete index are those that the entries hold. -/
theorem get?_eq_some_iff (hx : Sourced E x) (hrecords : ∀ e ∈ E, Records x e)
    (hE : DigestsDiffer E) (name : String) (c : ClassDef) :
    x.get? name = some c ↔ ∃ e ∈ E, ClassDef.ofBytes? e.data = some c ∧ c.name = name := by
  rw [get?, Option.map_eq_some_iff]
  constructor
  · rintro ⟨known, hknown, rfl⟩
    obtain ⟨hknown, hname⟩ := mem_of_find? hknown
    obtain ⟨e, he, -, hc⟩ := hx.source known hknown
    exact ⟨e, he, hc, hname⟩
  · rintro ⟨e, he, hc, rfl⟩
    obtain ⟨d, hd, known, hknown, hname, hdigest⟩ := hrecords e he
    cases hc.symm.trans hd
    obtain ⟨e', he', hsource, hc'⟩ := hx.source known hknown
    have hdata : e'.data = e.data := hE e' he' e he (by rw [hsource]; exact hdigest)
    rw [hdata, hc] at hc'
    cases hc'
    exact ⟨known, (find?_eq_some_iff hx.nodup).2 ⟨hknown, hname⟩, rfl⟩

/-- Entries that an index records under one name have the same digest. -/
theorem digest_eq (hx : Sourced E x) {e₁ e₂ : Archive.Entry} (h₁ : Records x e₁)
    (h₂ : Records x e₂) {c₁ c₂ : ClassDef} (hc₁ : ClassDef.ofBytes? e₁.data = some c₁)
    (hc₂ : ClassDef.ofBytes? e₂.data = some c₂) (hname : c₁.name = c₂.name) :
    Digest.sha256 e₁.data = Digest.sha256 e₂.data := by
  obtain ⟨d₁, hd₁, k₁, hk₁, hname₁, hdigest₁⟩ := h₁
  obtain ⟨d₂, hd₂, k₂, hk₂, hname₂, hdigest₂⟩ := h₂
  cases hc₁.symm.trans hd₁
  cases hc₂.symm.trans hd₂
  have hk : k₁ = k₂ :=
    List.inj_on_of_nodup_map hx.nodup hk₁ hk₂ (hname₁.trans (hname.trans hname₂.symm))
  rw [← hdigest₁, ← hdigest₂, hk]

theorem coherent (hx : Sourced E x) (hrecords : ∀ e ∈ E, Records x e) (hE : DigestsDiffer E) :
    Coherent E := by
  refine ⟨fun e he => ?_, fun e₁ he₁ e₂ he₂ c₁ c₂ hc₁ hc₂ hname => ?_⟩
  · obtain ⟨d, hd, -⟩ := hrecords e he
    exact ⟨d, hd⟩
  · exact hE e₁ he₁ e₂ he₂
      (hx.digest_eq (hrecords e₁ he₁) (hrecords e₂ he₂) hc₁ hc₂ hname)

/-- A refused entry is unreadable, or another has a class of its name with other bytes. -/
theorem not_coherent (hx : Sourced E b.index) (he : e ∈ E) {err : WeaveError}
    (hadd : b.addEntry e = .error err) : ¬ Coherent E := by
  intro hE
  obtain ⟨hnone, -⟩ | ⟨c, known, hc, hknown, hdigest, -⟩ := Building.addEntry_eq_error hadd
  · obtain ⟨c, hc⟩ := hE.readable e he
    cases hnone.symm.trans hc
  · obtain ⟨hknown, hname⟩ := mem_of_find? hknown
    obtain ⟨e', he', hsource, hc'⟩ := hx.source known hknown
    have hdata : e'.data = e.data := hE.agree e' he' e he _ c hc' hc hname
    exact hdigest (by rw [IndexedClass.digest, ← hsource, hdata])

end Sourced

theorem mem_names_iff {x : ClassIndex} {name : String} :
    name ∈ x.classes.map (·.definition.name) ↔ (x.get? name).isSome := by
  rw [get?, Option.isSome_map]
  constructor
  · intro hname
    by_contra h
    exact not_mem_of_find? (Option.not_isSome_iff_eq_none.1 h) hname
  · intro h
    obtain ⟨c, hc⟩ := Option.isSome_iff_exists.1 h
    obtain ⟨hmem, rfl⟩ := mem_of_find? hc
    exact List.mem_map_of_mem hmem

/-- Indexes of the same names have as many classes and the same sorted names. -/
theorem classNames_eq {x y : ClassIndex} (hx : (x.classes.map (·.definition.name)).Nodup)
    (hy : (y.classes.map (·.definition.name)).Nodup)
    (hget : ∀ name, (x.get? name).isSome = (y.get? name).isSome) :
    x.size = y.size ∧ x.classNames = y.classNames := by
  have hperm : (x.classes.map (·.definition.name)).Perm (y.classes.map (·.definition.name)) := by
    refine (List.perm_ext_iff_of_nodup hx hy).2 fun name => ?_
    rw [mem_names_iff, mem_names_iff, hget]
  have hsorted (names : List String) :
      (names.mergeSort fun a b => a ≤ b).Pairwise fun a b => decide (a ≤ b) = true :=
    List.pairwise_mergeSort (by simpa using fun _ _ _ => String.le_trans)
      (by simpa using String.le_total) names
  refine ⟨by simpa [size] using hperm.length_eq, ?_⟩
  refine List.Perm.eq_of_pairwise ?_ (hsorted _) (hsorted _)
    ((List.mergeSort_perm _ _).trans (hperm.trans (List.mergeSort_perm _ _).symm))
  intro a b _ _ hab hba
  exact String.le_antisymm (by simpa using hab) (by simpa using hba)

namespace Construction

variable {archives : List Archive} {r : Except WeaveError Building}

/-- **What comes out** is an index of all entries, or an error because they are not coherent. -/
theorem Outcome.cases (hr : Outcome archives r) :
    (∃ b, r = .ok b ∧ Sourced (archives.flatMap Archive.classEntries) b.index ∧
        ∀ e ∈ archives.flatMap Archive.classEntries, Records b.index e) ∨
      (∃ err, r = .error err) ∧ ¬ Coherent (archives.flatMap Archive.classEntries) := by
  obtain ⟨s, hrun, hs⟩ := hr
  have haccounts := (accounts_start archives).run hrun
  cases hs with
  | ok b pending hdone =>
    refine .inl ⟨b, rfl, haccounts.sourced, fun e he => ?_⟩
    have hempty : pending.flatten = [] := List.flatten_eq_nil_iff.2 hdone
    simpa [hempty] using haccounts.added e he
  | error b e rest before after err hadd =>
    refine .inr ⟨⟨err, rfl⟩, haccounts.sourced.not_coherent (haccounts.pending ?_) hadd⟩
    simp

theorem Outcome.spec (hr : Outcome archives (.ok b)) :
    Sourced (archives.flatMap Archive.classEntries) b.index ∧
      ∀ e ∈ archives.flatMap Archive.classEntries, Records b.index e := by
  obtain ⟨_, ⟨⟩, h⟩ | ⟨⟨_, ⟨⟩⟩, -⟩ := hr.cases
  exact h

theorem Outcome.exists_ok_iff (hE : DigestsDiffer (archives.flatMap Archive.classEntries))
    (hr : Outcome archives r) :
    (∃ b, r = .ok b) ↔ Coherent (archives.flatMap Archive.classEntries) := by
  obtain ⟨b, rfl, hsourced, hrecords⟩ | ⟨⟨err, rfl⟩, hnot⟩ := hr.cases
  · exact ⟨fun _ => hsourced.coherent hrecords hE, fun _ => ⟨b, rfl⟩⟩
  · exact ⟨nofun, fun h => absurd h hnot⟩

end Construction

/-- Without an index, an entry holds no class or has a class in conflict with others. -/
theorem build_eq_error {archives : List Archive} {err : WeaveError}
    (hb : build archives = .error err) :
    ∃ name, err = .invalidClass name ∨ err = .classConflict name := by
  obtain ⟨s, -, hs⟩ := Construction.outcome_build archives
  rw [hb] at hs
  cases hs with
  | error b e rest before after _ hadd =>
    obtain ⟨-, rfl⟩ | ⟨c, _, -, -, -, rfl⟩ := Building.addEntry_eq_error hadd
    · exact ⟨e.name, .inl rfl⟩
    · exact ⟨c.name, .inr rfl⟩

/-- The index of archives has a class for every entry, and no other. -/
theorem sourced_of_build {archives : List Archive} (hb : build archives = .ok b) :
    Sourced (archives.flatMap Archive.classEntries) b.index ∧
      ∀ e ∈ archives.flatMap Archive.classEntries, Records b.index e :=
  Construction.Outcome.spec (hb ▸ Construction.outcome_build archives)

theorem readable_of_build {archives : List Archive} (hb : build archives = .ok b) {a : Archive}
    (ha : a ∈ archives) (he : e ∈ a.classEntries) : ∃ c, ClassDef.ofBytes? e.data = some c := by
  obtain ⟨c, hc, -⟩ := (sourced_of_build hb).2 e (List.mem_flatMap.2 ⟨a, ha, he⟩)
  exact ⟨c, hc⟩

/-- The classes of the first archive are those that the index has under their names. -/
theorem get?_of_mem_classes {a : Archive} {archives : List Archive}
    (hb : build (a :: archives) = .ok b) (hE : DigestsDiffer a.classEntries) {c : ClassDef}
    (hc : c ∈ a.classes) : b.index.get? c.name = some c := by
  obtain ⟨hsourced, hrecords⟩ := sourced_of_build hb
  rw [get?_build hb, List.flatMap_cons, List.find?_append]
  rcases hfound : a.classes.find? (fun d => d.name = c.name) with _ | d
  · simpa using List.find?_eq_none.1 hfound c hc
  have hname : d.name = c.name := by simpa using List.find?_some hfound
  obtain ⟨e₁, he₁, hd⟩ := List.mem_filterMap.1 (List.mem_of_find?_eq_some hfound)
  obtain ⟨e₂, he₂, hc⟩ := List.mem_filterMap.1 hc
  have hmem {e : Archive.Entry} (he : e ∈ a.classEntries) :
      e ∈ (a :: archives).flatMap Archive.classEntries :=
    List.mem_flatMap.2 ⟨a, List.mem_cons_self, he⟩
  have hdata := hE e₁ he₁ e₂ he₂ (hsourced.digest_eq (hrecords e₁ (hmem he₁))
    (hrecords e₂ (hmem he₂)) hd hc hname)
  rw [hdata, hc] at hd
  rw [hfound, Option.some_or, hd]

open Construction in
/--
Several tasks, one for each archive, index their class entries in any order. All orders come to an
outcome, and `build` is one of them. Where digests tell the entries apart, there is an index exactly
if the entries are coherent, and it then holds the classes of the entries and nothing else; the
orders and the order of the archives change nothing about it.
-/
theorem build_conflict_exact (archives : List Archive)
    (hE : DigestsDiffer (archives.flatMap Archive.classEntries)) :
    Outcome archives (build archives) ∧
    (∀ s, Relation.ReflTransGen Step (start archives) s →
      ∃ t r, Relation.ReflTransGen Step s t ∧ t.Yields r) ∧
    ∀ r, Outcome archives r →
      ((∃ b, r = .ok b) ↔ Coherent (archives.flatMap Archive.classEntries)) ∧
      ∀ b, r = .ok b →
        (∀ name c, b.index.get? name = some c ↔
          ∃ e ∈ archives.flatMap Archive.classEntries,
            ClassDef.ofBytes? e.data = some c ∧ c.name = name) ∧
        ∀ archives', archives'.Perm archives → ∀ r', Outcome archives' r' →
          ∃ b', r' = .ok b' ∧ (∀ name, b'.index.get? name = b.index.get? name) ∧
            b'.index.size = b.index.size ∧ b'.index.classNames = b.index.classNames := by
  refine ⟨outcome_build archives, fun s _ => s.exists_yields, fun r hr => ⟨hr.exists_ok_iff hE, ?_⟩⟩
  rintro b rfl
  obtain ⟨hsourced, hrecords⟩ := hr.spec
  have hget := hsourced.get?_eq_some_iff hrecords hE
  refine ⟨hget, fun archives' hperm r' hr' => ?_⟩
  have hentries : (archives'.flatMap Archive.classEntries).Perm
      (archives.flatMap Archive.classEntries) := hperm.flatMap_right _
  have hE' := hE.of_subset hentries.subset
  obtain ⟨b', rfl⟩ := (hr'.exists_ok_iff hE').2
    (((hr.exists_ok_iff hE).1 ⟨b, rfl⟩).of_subset hentries.subset)
  obtain ⟨hsourced', hrecords'⟩ := hr'.spec
  have hsame (name : String) : b'.index.get? name = b.index.get? name := by
    refine Option.ext fun c => ?_
    rw [hget, hsourced'.get?_eq_some_iff hrecords' hE']
    simp only [hentries.mem_iff]
  exact ⟨b', rfl, hsame, classNames_eq hsourced'.nodup hsourced.nodup fun name => by rw [hsame]⟩

/-! ## Classes with different names -/

theorem foldlM_addEntry_of_nodup {es : List Archive.Entry} {cs : List ClassDef} (b : Building)
    (hdata : es.map (·.data) = cs.map (·.toBytes))
    (hread : ∀ c ∈ cs, ClassDef.ofBytes? c.toBytes = some c)
    (hnames : (b.index.classes.map (·.definition.name) ++ cs.map (·.name)).Nodup) :
    es.foldlM Building.addEntry b =
      .ok { b with index := ⟨b.index.classes ++ cs.map fun c => ⟨c, c.toBytes⟩⟩ } := by
  induction es generalizing b cs with
  | nil =>
    obtain rfl := List.map_eq_nil_iff.1 hdata.symm
    simp [pure, Except.pure]
  | cons e es ih =>
    obtain ⟨c, cs, rfl⟩ := List.exists_cons_of_ne_nil (l := cs) (by rintro rfl; simp at hdata)
    obtain ⟨he, hdata⟩ : e.data = c.toBytes ∧ _ := List.cons.inj hdata
    obtain ⟨hc, hread⟩ := List.forall_mem_cons.1 hread
    have hfresh : b.index.find? c.name = none := by
      rw [find?, List.find?_eq_none]
      intro d hd
      simpa using (List.nodup_append.1 hnames).2.2 _ (List.mem_map_of_mem hd) c.name (by simp)
    rw [List.foldlM_cons, Building.addEntry_of_fresh (by rw [he, hc]) hfresh]
    refine (ih _ hdata hread (by simpa using hnames)).trans ?_
    simp [he]

theorem classes_of_data {a : Archive} {cs : List ClassDef}
    (hdata : a.classEntries.map (·.data) = cs.map (·.toBytes))
    (hread : ∀ c ∈ cs, ClassDef.ofBytes? c.toBytes = some c) : a.classes = cs := by
  have hclasses : a.classes = (a.classEntries.map (·.data)).filterMap ClassDef.ofBytes? := by
    rw [List.filterMap_map]
    rfl
  rw [hclasses, hdata, List.filterMap_map]
  exact (List.filterMap_congr hread).trans List.filterMap_some

/-- An archive of classes with different names, each in its stored form, is indexed in order. -/
theorem build_of_nodup {a : Archive} {cs : List ClassDef}
    (hdata : a.classEntries.map (·.data) = cs.map (·.toBytes))
    (hread : ∀ c ∈ cs, ClassDef.ofBytes? c.toBytes = some c) (hnames : (cs.map (·.name)).Nodup) :
    build [a] = .ok { index := ⟨cs.map fun c => ⟨c, c.toBytes⟩⟩ } := by
  rw [build, List.flatMap_singleton]
  exact foldlM_addEntry_of_nodup {} hdata hread hnames

/-! ### A class in two archives -/

namespace Ephemeris

/-- The shortest stored form of a class. -/
def source (name : String) : Bytes := Bytes.ofText ("\x7b\"name\":\"" ++ name ++ "\"\x7d")

def first : Archive where
  entries := [⟨"sky/Moon.class", source "sky.Moon"⟩, ⟨"sky/Tide.class", source "sky.Tide"⟩]
  distinct := by decide

/-- Has one of the classes again, in an entry of another name. -/
def second : Archive where
  entries := [⟨"notes.txt", []⟩, ⟨"copy/Moon.class", source "sky.Moon"⟩]
  distinct := by decide

theorem classEntries_eq : [first, second].flatMap Archive.classEntries =
    [⟨"sky/Moon.class", source "sky.Moon"⟩, ⟨"sky/Tide.class", source "sky.Tide"⟩,
      ⟨"copy/Moon.class", source "sky.Moon"⟩] := rfl

theorem digestsDiffer : DigestsDiffer ([first, second].flatMap Archive.classEntries) := by
  have hne : Digest.sha256 (source "sky.Moon") ≠ Digest.sha256 (source "sky.Tide") := by
    decide +kernel
  rw [classEntries_eq]
  simp [DigestsDiffer, hne, hne.symm]

theorem ofBytes?_source : ClassDef.ofBytes? (source "sky.Moon") = some { name := "sky.Moon" } ∧
    ClassDef.ofBytes? (source "sky.Tide") = some { name := "sky.Tide" } := by
  decide +kernel

theorem coherent : Coherent ([first, second].flatMap Archive.classEntries) := by
  rw [classEntries_eq]
  constructor <;> simp [ofBytes?_source]

/-- There is one index, whichever archive comes first. -/
theorem index_of_both : DigestsDiffer ([first, second].flatMap Archive.classEntries) ∧
    ∃ b, build [first, second] = .ok b ∧
      b.index.get? "sky.Tide" = some { name := "sky.Tide" } ∧ b.index.get? "sky.Sun" = none ∧
      ∀ r, Construction.Outcome [second, first] r → ∃ b', r = .ok b' ∧
        b'.index.get? "sky.Tide" = b.index.get? "sky.Tide" ∧
        b'.index.classNames = b.index.classNames := by
  refine ⟨digestsDiffer, ?_⟩
  obtain ⟨houtcome, -, hall⟩ := build_conflict_exact [first, second] digestsDiffer
  obtain ⟨b, hb⟩ := (hall _ houtcome).1.2 coherent
  obtain ⟨hget, hsame⟩ := (hall _ houtcome).2 b hb
  rw [classEntries_eq] at hget
  refine ⟨b, hb, (hget _ _).2 ?_, Option.eq_none_iff_forall_ne_some.2 fun c hc => ?_,
    fun r hr => ?_⟩
  · simp [ofBytes?_source]
  · have hnamed := (hget _ _).1 hc
    simp only [List.mem_cons, List.not_mem_nil, or_false, exists_eq_or_imp, exists_eq_left,
      ofBytes?_source, Option.some.injEq] at hnamed
    obtain ⟨rfl, hname⟩ | ⟨rfl, hname⟩ | ⟨rfl, hname⟩ := hnamed <;> exact absurd hname (by decide)
  · obtain ⟨b', rfl, hget', -, hnames⟩ := hsame [second, first] (.swap _ _ _) r hr
    exact ⟨b', rfl, hget' _, hnames⟩

end Ephemeris

end StorageWeave.Weaving.ClassIndex
