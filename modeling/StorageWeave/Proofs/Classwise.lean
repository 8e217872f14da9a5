import StorageWeave.Proofs.Documents
import StorageWeave.Proofs.Interleaving
import StorageWeave.Proofs.Lineage

/-!
# Archives are woven class by class

The entries of an archive are woven by one task each, with one memo for all. Where no class is its
own ancestor, the outcome depends neither on the order of their accesses to the memo nor on the
other entries: an archive comes out exactly if each of its classes can be woven alone, and each of
its entries is then what weaving it alone makes of it (`weaveArchive_classwise`).
-/

namespace StorageWeave.Weaving

open Bytecode

/-! ## Classes alone -/

/-- Failing with errors of a class only, as a relation of which the second side is not looked at. -/
def failing : Simulation (Except WeaveError) (Except WeaveError) where
  Rel x _ := FailsOfClass x
  pure a := .ok a
  bind hx hf := hx.bind hf
  throw he := .error he

namespace Hierarchy.Acyclic

variable {h : Hierarchy}

theorem failing_agrees (hac : h.Acyclic) : failing.Agrees (.exact h) (.exact h) where
  isStorage _ := .ok _
  isContract _ := .ok _
  lookUp kind ref := by
    obtain ⟨a, ha⟩ := hac.exists_annotation kind ref
    change FailsOfClass (h.annotation kind ref)
    rw [ha]
    exact .ok a

/-- **A class alone** is woven as with the exact oracle. -/
theorem weaveClass_eq (hac : h.Acyclic) (c : ClassDef) :
    weaveClass h c = ClassWeaver.weave h (.exact h) c := by
  have hrun := (((answering_agrees hac).weaveClass h c).run (Memo.consistent_empty h)).1
  rw [((running_agrees h).weaveClass h c {} (Memo.consistent_empty h)).1] at hrun
  rw [← hrun, weaveClass, StateT.run'_eq]
  rfl

end Hierarchy.Acyclic

/-! ## Entries at the same time -/

theorem mem_classes {a : Archive} {c : ClassDef} : c ∈ a.classes ↔
    ∃ e ∈ a.entries, e.isClass = true ∧ ClassDef.ofBytes? e.data = some c := by
  simp [Archive.classes, Archive.classEntries, List.mem_filterMap, and_assoc]

namespace ArchiveWeaver

variable {h : Hierarchy} {input : Archive}

/-- One task for each entry, with an empty memo. -/
def pool (h : Hierarchy) (input : Archive) : Pool WovenEntry :=
  ⟨{}, input.entries.map (weaveEntry h (.stepwise h))⟩

/-- The archive of woven entries. -/
def assemble (woven : List WovenEntry) : Except WeaveError Archive :=
  (Archive.empty.pushAll (woven.map (·.entry))).mapError fun e => .archive (.format e)

/-- `r` comes out when the entries of an archive are woven at the same time, in some order of their
accesses to the memo. -/
def Outcome (h : Hierarchy) (input : Archive) (r : Except WeaveError Archive) : Prop :=
  ∃ q woven, Relation.ReflTransGen Pool.Step (pool h input) q ∧ q.Yields woven ∧
    r = woven >>= assemble

/-- `e'` is `e` with its class, if it holds one, woven alone. -/
structure EntryWoven (h : Hierarchy) (e e' : Archive.Entry) : Prop where
  name : e'.name = e.name
  data : if e.isClass then
      ∃ c w, ClassDef.ofBytes? e.data = some c ∧ weaveClass h c = .ok w ∧
        e'.data = w.result.toBytes
    else e'.data = e.data

namespace EntryWoven

variable {e e' : Archive.Entry}

theorem isClass_eq (he : EntryWoven h e e') : e'.isClass = e.isClass := by
  rw [Archive.Entry.isClass, Archive.Entry.isClass, he.name]

theorem exists_class (he : EntryWoven h e e') (hclass : e.isClass = true) :
    ∃ c w, ClassDef.ofBytes? e.data = some c ∧ weaveClass h c = .ok w ∧
      e'.data = w.result.toBytes := by
  have hdata := he.data
  rwa [if_pos hclass] at hdata

theorem eq_mk (he : EntryWoven h e e') {data : Bytes} (hdata : e'.data = data) :
    e' = ⟨e.name, data⟩ := by
  cases e'
  cases he.name
  cases hdata
  rfl

theorem eq_of_not_isClass (he : EntryWoven h e e') (hclass : e.isClass = false) : e' = e := by
  have hdata := he.data
  rw [if_neg (by simp [hclass])] at hdata
  exact he.eq_mk hdata

end EntryWoven

theorem entryWoven_of_weaveEntry (hac : h.Acyclic) {e : Archive.Entry} {r : WovenEntry}
    (hr : weaveEntry h (.exact h) e = .ok r) : EntryWoven h e r.entry := by
  obtain ⟨hclass, rfl⟩ | ⟨hclass, c, w, hc, hw, rfl⟩ := weaveEntry_eq_ok hr
  · exact ⟨rfl, by rw [if_neg (by simp [hclass])]⟩
  · refine ⟨rfl, ?_⟩
    rw [if_pos hclass]
    exact ⟨c, w, hc, (hac.weaveClass_eq c).trans hw, rfl⟩

theorem exists_class_of_weaveEntry (hac : h.Acyclic) {e : Archive.Entry} {err : WeaveError}
    (hreadable : e.isClass = true → ∃ c, ClassDef.ofBytes? e.data = some c)
    (herr : weaveEntry h (.exact h) e = .error err) :
    e.isClass = true ∧ ∃ c, ClassDef.ofBytes? e.data = some c ∧ weaveClass h c = .error err := by
  unfold weaveEntry at herr
  by_cases he : e.isClass = true
  · rw [if_pos he] at herr
    obtain ⟨c, hc⟩ := hreadable he
    simp only [hc] at herr
    refine ⟨he, c, hc, ?_⟩
    rw [hac.weaveClass_eq]
    rcases hw : ClassWeaver.weave h (.exact h) c with err' | w
    · rw [hw] at herr
      cases herr
      rfl
    · rw [hw] at herr
      cases herr
  · rw [if_neg he] at herr
    cases herr

theorem names_eq {es es' : List Archive.Entry} (hes : List.Forall₂ (EntryWoven h) es es') :
    es'.map Archive.Entry.name = es.map Archive.Entry.name := by
  rw [← List.forall₂_eq_eq_eq, List.forall₂_map_left_iff, List.forall₂_map_right_iff]
  exact hes.flip.imp fun _ _ he => he.name

/-- Woven entries can stand in one archive, because the names have stayed. -/
theorem exists_assemble {woven : List WovenEntry}
    (hwoven : List.Forall₂ (EntryWoven h) input.entries (woven.map (·.entry))) :
    ∃ a, assemble woven = .ok a ∧ a.entries = woven.map (·.entry) := by
  let a : Archive := ⟨woven.map (·.entry), (names_eq hwoven).symm ▸ input.distinct⟩
  have ha : Archive.empty.pushAll (woven.map (·.entry)) = .ok a := Archive.pushAll_eq_ok.2 rfl
  refine ⟨a, ?_, rfl⟩
  rw [assemble, ha]
  rfl

/-- The tasks of an archive come to what the exact oracle makes of its entries. -/
theorem sound_pool (hac : h.Acyclic) (input : Archive) :
    (pool h input).Sound h (input.entries.map (weaveEntry h (.exact h))) where
  memo := Memo.consistent_empty h
  tasks := by
    refine List.forall₂_map_left_iff.2 (List.forall₂_map_right_iff.2 (List.forall₂_same.2 ?_))
    exact fun e _ => (answering_agrees hac).weaveEntry h e

/-- **What comes out** is the archive of the entries woven alone, or the error of one of them. -/
theorem Outcome.cases (hac : h.Acyclic) {r : Except WeaveError Archive} (hr : Outcome h input r) :
    (∃ a, r = .ok a ∧ List.Forall₂ (EntryWoven h) input.entries a.entries) ∨
      ∃ err, r = .error err ∧ ∃ e ∈ input.entries, weaveEntry h (.exact h) e = .error err := by
  obtain ⟨q, woven, hrun, hyields, rfl⟩ := hr
  obtain ⟨results, rfl, hanswers⟩ | ⟨err, rfl, herr⟩ :=
    ((sound_pool hac input).run hrun).yields hyields
  · rw [← List.forall₂_eq_eq_eq, List.forall₂_map_left_iff, List.forall₂_map_right_iff]
      at hanswers
    have hresults : List.Forall₂ (EntryWoven h) input.entries (results.map (·.entry)) :=
      List.forall₂_map_right_iff.2 (hanswers.imp fun _ _ hr => entryWoven_of_weaveEntry hac hr)
    obtain ⟨a, ha, hentries⟩ := exists_assemble hresults
    exact .inl ⟨a, ha, hentries ▸ hresults⟩
  · obtain ⟨e, he, herr⟩ := List.mem_map.1 herr
    exact .inr ⟨err, rfl, e, he, herr⟩

theorem Outcome.entries (hac : h.Acyclic) {a : Archive} (ha : Outcome h input (.ok a)) :
    List.Forall₂ (EntryWoven h) input.entries a.entries := by
  obtain ⟨_, ⟨⟩, hentries⟩ | ⟨_, ⟨⟩, -⟩ := ha.cases hac
  exact hentries

section Built

variable {dependencies : List Archive} {config : Config} {built : ClassIndex.Building}
  (hbuilt : ClassIndex.build (input :: dependencies) = .ok built)
include hbuilt

/-- An entry of an indexed archive fails only for its class. -/
theorem exists_class_of_build (hac : Hierarchy.Acyclic ⟨built.index, config⟩) {e : Archive.Entry}
    {err : WeaveError} (he : e ∈ input.entries)
    (herr : weaveEntry ⟨built.index, config⟩ (.exact ⟨built.index, config⟩) e = .error err) :
    ∃ c ∈ input.classes, weaveClass ⟨built.index, config⟩ c = .error err := by
  have hreadable (hclass : e.isClass = true) : ∃ c, ClassDef.ofBytes? e.data = some c :=
    ClassIndex.readable_of_build hbuilt List.mem_cons_self (List.mem_filter.2 ⟨he, hclass⟩)
  obtain ⟨hclass, c, hread, hw⟩ := exists_class_of_weaveEntry hac hreadable herr
  exact ⟨c, mem_classes.2 ⟨e, he, hclass, hread⟩, hw⟩

theorem Outcome.exists_ok_iff (hac : Hierarchy.Acyclic ⟨built.index, config⟩)
    {r : Except WeaveError Archive} (hr : Outcome ⟨built.index, config⟩ input r) :
    (∃ a, r = .ok a) ↔ ∀ c ∈ input.classes, ∃ w, weaveClass ⟨built.index, config⟩ c = .ok w := by
  obtain ⟨a, rfl, hentries⟩ | ⟨err, rfl, e, he, herr⟩ := hr.cases hac
  · refine ⟨fun _ c hc => ?_, fun _ => ⟨a, rfl⟩⟩
    obtain ⟨e, he, hclass, hread⟩ := mem_classes.1 hc
    obtain ⟨e', -, hwoven⟩ := exists_of_forall₂_right hentries.flip he
    obtain ⟨c', w, hread', hw, -⟩ := hwoven.exists_class hclass
    cases hread.symm.trans hread'
    exact ⟨w, hw⟩
  · refine ⟨nofun, fun hall => ?_⟩
    obtain ⟨c, hc, hw⟩ := exists_class_of_build hbuilt hac he herr
    obtain ⟨w, hw'⟩ := hall c hc
    cases hw.symm.trans hw'

/-- The archive woven entry by entry is one of the outcomes. -/
theorem outcome_weaveArchive :
    Outcome ⟨built.index, config⟩ input
      ((weaveArchive input dependencies config).map (·.result)) := by
  let h : Hierarchy := ⟨built.index, config⟩
  obtain ⟨q, hrun, hyields⟩ :=
    Pool.exists_run ((running_agrees h).weaveEntry h) input.entries (Memo.consistent_empty h)
  refine ⟨q, _, hrun, hyields, ?_⟩
  rw [weaveArchive, hbuilt, StateT.run'_eq]
  change Except.map _ ((input.entries.mapM (weaveEntry h (.remembering h))).run {} >>= _) = _
  rcases (input.entries.mapM (weaveEntry h (.remembering h))).run {} with err | ⟨woven, memo⟩
  · rfl
  · change Except.map _ (assemble woven >>= _) = assemble woven
    cases assemble woven <;> rfl

theorem exists_weaveArchive_iff (hac : Hierarchy.Acyclic ⟨built.index, config⟩) :
    (∃ w, weaveArchive input dependencies config = .ok w) ↔
      ∀ c ∈ input.classes, ∃ w, weaveClass ⟨built.index, config⟩ c = .ok w := by
  rw [← (outcome_weaveArchive hbuilt).exists_ok_iff hbuilt hac]
  cases weaveArchive input dependencies config <;> simp [Except.map]

theorem entriesWoven_weaveArchive (hac : Hierarchy.Acyclic ⟨built.index, config⟩)
    {w : WovenArchive} (hw : weaveArchive input dependencies config = .ok w) :
    List.Forall₂ (EntryWoven ⟨built.index, config⟩) input.entries w.result.entries := by
  have hout : Outcome ⟨built.index, config⟩ input
      ((weaveArchive input dependencies config).map (·.result)) := outcome_weaveArchive hbuilt
  rw [hw] at hout
  exact hout.entries hac

end Built

end ArchiveWeaver

open ArchiveWeaver in
/--
The entries of an archive are woven at the same time, with one memo for all. Where no class is its
own ancestor, all orders of their accesses to the memo come to an outcome. An archive comes out
exactly if each class of the input can be woven alone, and its entries are then those of the input,
one by one, with the classes woven alone. An error is that of a class woven alone, so none arises
from putting the entries together.
-/
theorem weaveArchive_classwise {input : Archive} {dependencies : List Archive} {config : Config}
    {built : ClassIndex.Building} (hbuilt : ClassIndex.build (input :: dependencies) = .ok built)
    (hac : Hierarchy.Acyclic ⟨built.index, config⟩) :
    Outcome ⟨built.index, config⟩ input
        ((weaveArchive input dependencies config).map (·.result)) ∧
    (∀ p, Relation.ReflTransGen Pool.Step (pool ⟨built.index, config⟩ input) p →
      ∃ q woven, Relation.ReflTransGen Pool.Step p q ∧ q.Yields woven) ∧
    ∀ r, Outcome ⟨built.index, config⟩ input r →
      ((∃ a, r = .ok a) ↔ ∀ c ∈ input.classes, ∃ w, weaveClass ⟨built.index, config⟩ c = .ok w) ∧
      (∀ a, r = .ok a →
        List.Forall₂ (EntryWoven ⟨built.index, config⟩) input.entries a.entries) ∧
      ∀ err, r = .error err → err.isOfClass = true ∧
        ∃ c ∈ input.classes, weaveClass ⟨built.index, config⟩ c = .error err := by
  refine ⟨outcome_weaveArchive hbuilt, fun p _ => p.exists_yields, fun r hr =>
    ⟨hr.exists_ok_iff hbuilt hac, fun a ha => (ha ▸ hr).entries hac, fun err herr => ?_⟩⟩
  subst herr
  obtain ⟨a, ⟨⟩, -⟩ | ⟨_, ⟨⟩, e, he, herr⟩ := hr.cases hac
  obtain ⟨c, hc, hw⟩ := exists_class_of_build hbuilt hac he herr
  exact ⟨hac.failing_agrees.weaveEntry _ e err herr, c, hc, hw⟩

/-! ### A class before its superclass -/

namespace Savings

/-- The lower class comes first, and a text stands between the two. -/
def archive : Archive where
  entries := [⟨"bank/Savings.class", Bank.savings.toBytes⟩, ⟨"terms.txt", Bytes.ofText "2% a year"⟩,
    ⟨"bank/Account.class", Bank.account.toBytes⟩]
  distinct := by decide

/-- The index of the archive. -/
def index : ClassIndex.Building where
  index := ⟨[Bank.savings, Bank.account].map fun c => ⟨c, c.toBytes⟩⟩

theorem ofBytes?_toBytes (c : ClassDef) (hc : c ∈ [Bank.savings, Bank.account]) :
    ClassDef.ofBytes? c.toBytes = some c := by
  rw [ClassDef.ofBytes?_toBytes]
  rcases List.mem_pair.1 hc with rfl | rfl <;> rfl

theorem build_archive : ClassIndex.build [archive] = .ok index :=
  ClassIndex.build_of_nodup rfl ofBytes?_toBytes (by decide)

theorem acyclic : index.hierarchy.Acyclic :=
  .of_rank (fun x => if x = "bank.Savings" then 2 else if x = "bank.Account" then 1 else 0)
    (by decide)

/-- In every order the two classes are woven, and the text is copied. -/
theorem outcome_eq_ok : ClassIndex.build [archive] = .ok index ∧ index.hierarchy.Acyclic ∧
    ∀ r, ArchiveWeaver.Outcome index.hierarchy archive r → ∃ a, r = .ok a ∧
      a.names = ["bank/Savings.class", "terms.txt", "bank/Account.class"] ∧
      List.Forall₂ (ArchiveWeaver.EntryWoven index.hierarchy) archive.entries a.entries := by
  obtain ⟨-, -, hall⟩ := weaveArchive_classwise build_archive acyclic
  have hwoven : ∀ c ∈ archive.classes, ∃ w, weaveClass index.hierarchy c = .ok w := by
    have hok : ∀ c ∈ [Bank.savings, Bank.account], (weaveClass index.hierarchy c).isOk = true := by
      decide +kernel
    rw [ClassIndex.classes_of_data rfl ofBytes?_toBytes]
    exact fun c hc => exists_eq_ok_of_isOk (hok c hc)
  refine ⟨build_archive, acyclic, fun r hr => ?_⟩
  obtain ⟨hiff, hentries, -⟩ := hall r hr
  obtain ⟨a, rfl⟩ := hiff.2 hwoven
  exact ⟨a, rfl, ArchiveWeaver.names_eq (hentries a rfl), hentries a rfl⟩

end Savings

end StorageWeave.Weaving
