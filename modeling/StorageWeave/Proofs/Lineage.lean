import StorageWeave.Proofs.Container
import StorageWeave.Proofs.Fields
import StorageWeave.Proofs.Indexing
import StorageWeave.Proofs.Loaded
import StorageWeave.Proofs.Stored

/-!
# The levels of a storage class

A storage class has a level for itself and one for every superclass below the platform root
(`Lineage`). When all of them are woven together, each level is loaded with its members
(`WovenProgram.exists_members`), and the classification of the class lists the eager fields of all
levels, the one below the platform root first (`Lineage.eagerLevels_eq`).
-/

namespace StorageWeave

open Bytecode Weaving Machine

/-- The platform types whose methods are hooks. -/
def Weaving.Config.platformTypes (c : Config) : List String :=
  [c.storageRoot, c.contractRoot, c.updateAccumulator, c.objectType]

theorem Weaving.Config.mem_platformTypes {c : Config} {root : String}
    (h : c.isPlatformRoot root = true) : root ∈ c.platformTypes := by
  simp only [Config.isPlatformRoot, decide_eq_true_eq] at h
  rcases h with rfl | rfl <;> simp [Config.platformTypes]

/-- No two different classes have the same name. -/
def DistinctNames (classes : List ClassDef) : Prop :=
  ∀ c ∈ classes, ∀ d ∈ classes, c.name = d.name → c = d

/-- The program of the classes of a woven archive. -/
def Weaving.WovenArchive.program (w : WovenArchive) : Program :=
  .ofClasses (w.report.classes.map (·.result))

/-- `p` holds exactly the given classes, woven against `h`. -/
structure WovenProgram (h : Hierarchy) (classes : List ClassDef) (p : Program) : Prop where
  hierarchyConfig : h.config = {}
  config : p.config = {}
  index : ∀ c ∈ classes, h.index.get? c.name = some c
  loaded : ∀ c ∈ classes, ∃ c', p.classes.get? c.name = some c' ∧ ClassWoven h c c'
  origin : ∀ n c', p.classes.get? n = some c' → ∃ c ∈ classes, c.name = n ∧ ClassWoven h c c'
  platform : ∀ n ∈ h.config.platformTypes, p.classes.get? n = none

theorem WovenProgram.superclassOf_eq {h : Hierarchy} {classes : List ClassDef} {p : Program}
    (hp : WovenProgram h classes p) {c : ClassDef} {s : String} (hc : c ∈ classes)
    (hs : c.superclass = some s) : p.superclassOf c.name = some s := by
  obtain ⟨c', hc', hwoven⟩ := hp.loaded c hc
  obtain ⟨methods, -, hgrows⟩ := hwoven.grows
  rw [Program.superclassOf, hc', Option.bind_some, hgrows.superclass]
  exact hs

namespace Weaving

variable {input : Archive} {dependencies : List Archive} {config : Config} {w : WovenArchive}
  {built : ClassIndex.Building}

theorem ClassWoven.name_eq {h : Hierarchy} {c c' : ClassDef} (hw : ClassWoven h c c') :
    c'.name = c.name := by
  obtain ⟨methods, -, hgrows⟩ := hw.grows
  exact hgrows.name

/-- The index prefers the classes of the archive to those of its dependencies. -/
theorem get?_index (hb : ClassIndex.build (input :: dependencies) = .ok built)
    (hu : DistinctNames input.classes) {c : ClassDef} (hc : c ∈ input.classes) :
    built.index.get? c.name = some c := by
  rw [ClassIndex.get?_build hb, List.flatMap_cons, List.find?_append]
  rcases hfound : input.classes.find? fun d => d.name = c.name with _ | d
  · simpa using List.find?_eq_none.1 hfound c hc
  · have hname := List.find?_some hfound
    simp only [decide_eq_true_eq] at hname
    rw [hfound, Option.some_or, hu d (List.mem_of_find?_eq_some hfound) c hc hname]

/-- The classes of an archive by itself are loaded as they are indexed. -/
theorem get?_ofClasses (hb : ClassIndex.build [input] = .ok built)
    (hu : DistinctNames input.classes) (n : String) :
    (Program.ofClasses input.classes).classes.get? n = built.index.get? n := by
  have hindex := ClassIndex.get?_build hb n
  rw [List.flatMap_cons, List.flatMap_nil, List.append_nil] at hindex
  rcases hd : (Program.ofClasses input.classes).classes.get? n with _ | d
  · rcases hc : built.index.get? n with _ | c
    · rfl
    · rw [hc] at hindex
      have hname : c.name = n := by simpa using List.find?_some hindex.symm
      obtain ⟨d, hd'⟩ := Program.exists_get?_ofClasses (List.mem_of_find?_eq_some hindex.symm)
      rw [hname, hd] at hd'
      cases hd'
  · obtain ⟨hmem, rfl⟩ := Program.mem_of_get?_ofClasses hd
    exact (get?_index hb hu hmem).symm

/-- **The program of a woven archive** holds the classes of the archive, woven. -/
theorem wovenProgram_of_weaveArchive (hw : weaveArchive input dependencies {} = .ok w)
    (hb : ClassIndex.build (input :: dependencies) = .ok built) (hu : DistinctNames input.classes)
    (hplatform : ∀ c ∈ input.classes, c.name ∉ ({} : Config).platformTypes) :
    WovenProgram ⟨built.index, {}⟩ input.classes w.program := by
  obtain ⟨built', hb', hclasses⟩ := weaveArchive_spec hw
  obtain rfl : built' = built := Except.ok.inj (hb'.symm.trans hb)
  have hrel (n : String) := Program.rel_ofClasses (fun {_ _} => ClassWoven.name_eq)
    (List.forall₂_map_right_iff.2 hclasses) n
  have horigin : ∀ n c', w.program.classes.get? n = some c' →
      ∃ c ∈ input.classes, c.name = n ∧ ClassWoven ⟨built'.index, {}⟩ c c' := by
    intro n c' hc'
    have hn := hrel n
    rw [show (Program.ofClasses (w.report.classes.map (·.result))).classes.get? n = some c'
      from hc'] at hn
    rcases hc : (Program.ofClasses input.classes).classes.get? n with _ | c
    · rw [hc] at hn
      cases hn
    · rw [hc] at hn
      obtain ⟨hmem, hname⟩ := Program.mem_of_get?_ofClasses hc
      cases hn with
      | some hwoven => exact ⟨c, hmem, hname, hwoven⟩
  refine ⟨rfl, rfl, fun c hc => get?_index hb hu hc, fun c hc => ?_, horigin, fun n hn => ?_⟩
  · obtain ⟨d, hd⟩ := Program.exists_get?_ofClasses hc
    obtain ⟨hmem, hname⟩ := Program.mem_of_get?_ofClasses hd
    obtain rfl := hu d hmem c hc hname
    have hn := hrel d.name
    rw [hd] at hn
    rcases hc' : (Program.ofClasses (w.report.classes.map (·.result))).classes.get? d.name
      with _ | c'
    · rw [hc'] at hn
      cases hn
    · rw [hc'] at hn
      cases hn with
      | some hwoven => exact ⟨c', hc', hwoven⟩
  · by_contra hloaded
    obtain ⟨c', hc'⟩ := Option.ne_none_iff_exists'.1 hloaded
    obtain ⟨c, hmem, rfl, -⟩ := horigin n c' hc'
    exact hplatform c hmem hn

end Weaving

/-- `levels` are the classes from the one below a platform root down to `c`, all of the list. -/
inductive Lineage (config : Config) (classes : List ClassDef) : List ClassDef → ClassDef → Prop
  | top {c : ClassDef} {s : String} : c ∈ classes → c.superclass = some s →
      config.isPlatformRoot s = true → Lineage config classes [c] c
  | child {levels : List ClassDef} {d c : ClassDef} : Lineage config classes levels d →
      c ∈ classes → c.superclass = some d.name → config.isPlatformRoot d.name = false →
      Lineage config classes (levels ++ [c]) c

namespace Lineage

variable {h : Hierarchy} {classes levels : List ClassDef} {c : ClassDef} {p : Program}

theorem mem_classes {config : Config} (hl : Lineage config classes levels c) : c ∈ classes := by
  cases hl <;> assumption

theorem mem_levels {config : Config} (hl : Lineage config classes levels c) : c ∈ levels := by
  cases hl <;> simp

/-- The walk of the classification passes the levels from the class up. -/
theorem eagerLevelsFrom_eq (hindex : ∀ c ∈ classes, h.index.get? c.name = some c)
    (hl : Lineage h.config classes levels c) {bottom : String} {fuel : Nat} {visited : List String}
    {below out : List (List FieldDef)}
    (hout : h.eagerLevelsFrom bottom fuel visited below c = .ok out) :
    out = levels.map h.eagerFields ++ below := by
  induction hl generalizing fuel visited below with
  | @top c s _ hs hroot =>
    cases fuel with
    | zero => cases hout
    | succ fuel =>
      simp only [Hierarchy.eagerLevelsFrom, hs, hroot, if_true] at hout
      split at hout
      · cases hout
      · cases hout
        rfl
  | @child levels d c hd _ hs hroot ih =>
    cases fuel with
    | zero => cases hout
    | succ fuel =>
      simp only [Hierarchy.eagerLevelsFrom, hs, hroot, hindex d hd.mem_classes] at hout
      split at hout
      · cases hout
      · rw [ih hout, List.map_append, List.append_assoc]
        rfl

/-- **The classification of a class** lists the eager fields of its levels. -/
theorem eagerLevels_eq (hindex : ∀ c ∈ classes, h.index.get? c.name = some c)
    (hl : Lineage h.config classes levels c) {k : Classification} (hk : h.classify c = .ok k) :
    k.eagerLevels = levels.map h.eagerFields ∧ k.lazyFields = h.lazyFields c := by
  obtain ⟨out, hout, hk⟩ := bind_eq_ok.1 hk
  cases hk
  exact ⟨by rw [hl.eagerLevelsFrom_eq hindex hout, List.append_nil], rfl⟩

/-- All levels are storage classes if the last one is. -/
theorem isStorage (hp : WovenProgram h classes p) (hl : Lineage h.config classes levels c)
    (hs : h.isStorage c.name = true) : ∀ d ∈ levels, h.isStorage d.name = true := by
  induction hl with
  | top => simpa using hs
  | @child levels d c hd hc hsup _ ih =>
    have hne : c.name ≠ h.config.storageRoot := by
      intro he
      obtain ⟨c', hc', -⟩ := hp.loaded c hc
      rw [he, hp.platform _ (by simp [Config.platformTypes])] at hc'
      cases hc'
    have hsd : h.isStorage d.name = true := by
      rwa [Hierarchy.isStorage, Hierarchy.descendsFrom_superclass
        ((Hierarchy.superclassOf_of_get? (hp.index c hc)).trans hsup) hne] at hs
    intro e he
    rcases List.mem_append.1 he with he | he
    · exact ih hsd e he
    · rw [List.mem_singleton.1 he]
      exact hs

theorem subset {config : Config} (hl : Lineage config classes levels c) :
    ∀ d ∈ levels, d ∈ classes := by
  induction hl with
  | top hc => simpa using hc
  | child _ hc _ _ ih =>
    intro e he
    rcases List.mem_append.1 he with he | he
    · exact ih e he
    · exact List.mem_singleton.1 he ▸ hc

/-- From a class of a lineage loading ends at a platform root. -/
theorem exists_climb (hp : WovenProgram h classes p) (hl : Lineage h.config classes levels c) :
    ∃ root n, h.config.isPlatformRoot root = true ∧
      climb p.superclassOf n c.name = some root := by
  induction hl with
  | @top c s hc hs hroot =>
    exact ⟨s, 1, hroot, by rw [climb_succ_of_next (hp.superclassOf_eq hc hs), climb]⟩
  | @child levels d c _ hc hs _ ih =>
    obtain ⟨root, n, hroot, hn⟩ := ih
    exact ⟨root, n + 1, hroot, by rw [climb_succ_of_next (hp.superclassOf_eq hc hs), hn]⟩

/-- From a class of a lineage loading comes to each level past lower ones only. -/
theorem exists_climb_level (hp : WovenProgram h classes p)
    (hl : Lineage h.config classes levels c) {d : ClassDef} (hd : d ∈ levels) :
    ∃ n, climb p.superclassOf n c.name = some d.name ∧
      ∀ k < n, ∀ z, climb p.superclassOf k c.name = some z →
        ∃ e ∈ levels, e.name = z ∧ e ≠ d := by
  induction hl with
  | top =>
    obtain rfl := List.mem_singleton.1 hd
    exact ⟨0, rfl, fun k hk => absurd hk (Nat.not_lt_zero k)⟩
  | @child levels e c hparent hc hs _ ih =>
    by_cases hdc : d = c
    · subst hdc
      exact ⟨0, rfl, fun k hk => absurd hk (Nat.not_lt_zero k)⟩
    · obtain ⟨n, hn, hbelow⟩ := ih (by simpa [hdc] using hd)
      refine ⟨n + 1, by rw [climb_succ_of_next (hp.superclassOf_eq hc hs), hn], fun k hk z hz => ?_⟩
      rcases k with _ | k
      · cases hz
        exact ⟨c, by simp, rfl, fun he => hdc he.symm⟩
      · rw [climb_succ_of_next (hp.superclassOf_eq hc hs)] at hz
        obtain ⟨x, hx, hname, hne⟩ := hbelow k (by omega) z hz
        exact ⟨x, List.mem_append_left _ hx, hname, hne⟩

end Lineage

/-- A level of a storage class is loaded with its members. -/
theorem WovenProgram.exists_members {h : Hierarchy} {classes : List ClassDef} {p : Program}
    (hp : WovenProgram h classes p) {c : ClassDef} (hc : c ∈ classes)
    (hs : h.isStorage c.name = true) (hi : c.isInterface = false) :
    ∃ k c', h.classify c = .ok k ∧ p.classes.get? c.name = some c' ∧
      (∀ f ∈ k.lazyFields, Augmentation.HasAccessors h c f c') ∧
      Has c' (Augmentation.constructor h c k) ∧ Has c' (Augmentation.extractUpdates h c k) := by
  obtain ⟨c', hc', hwoven⟩ := hp.loaded c hc
  obtain ⟨k, hk, hmembers⟩ := hwoven.members hs hi
  exact ⟨k, c', hk, hc', hmembers⟩

/-! ## Woven storage classes -/

/-- Whether the code that was made is no longer than an activation may run. -/
def codeFits : Except WeaveError MethodDef → Bool
  | .ok m => m.code.all (·.length ≤ Frame.stepLimit)
  | .error _ => true

/-- Whether the bodies whose length depends on the fields of a class fit an activation. -/
def bodiesFit (h : Hierarchy) (c : ClassDef) : Bool :=
  match h.classify c with
  | .ok k =>
    codeFits (Augmentation.constructor h c k) && codeFits (Augmentation.extractUpdates h c k)
  | .error _ => true

theorem length_le_of_codeFits {made : Except WeaveError MethodDef} {m : MethodDef} {code : Code}
    (hfits : codeFits made = true) (hmade : made = .ok m) (hcode : m.code = some code) :
    code.length ≤ Frame.stepLimit := by
  rw [hmade, codeFits, hcode] at hfits
  simpa using hfits

theorem codeFits_of_bodiesFit {h : Hierarchy} {c : ClassDef} {k : Classification}
    (hfits : bodiesFit h c = true) (hk : h.classify c = .ok k) :
    codeFits (Augmentation.constructor h c k) = true ∧
      codeFits (Augmentation.extractUpdates h c k) = true := by
  rw [bodiesFit, hk] at hfits
  simpa using hfits

/-- A storage class with levels that are all given their members. -/
structure PersistentLineage (h : Hierarchy) (classes levels : List ClassDef) (c : ClassDef) : Prop
    where
  lineage : Lineage h.config classes levels c
  storage : ∀ d ∈ levels, h.isStorage d.name = true
  concrete : ∀ d ∈ levels, d.isInterface = false
  fits : ∀ d ∈ levels, bodiesFit h d = true

theorem PersistentLineage.parent {h : Hierarchy} {classes levels : List ClassDef} {d c : ClassDef}
    (hl : PersistentLineage h classes (levels ++ [c]) c) (hd : Lineage h.config classes levels d) :
    PersistentLineage h classes levels d :=
  ⟨hd, fun e he => hl.storage e (List.mem_append_left _ he),
    fun e he => hl.concrete e (List.mem_append_left _ he),
    fun e he => hl.fits e (List.mem_append_left _ he)⟩

/-- The hierarchy of an index, with the default configuration. -/
def Weaving.ClassIndex.Building.hierarchy (b : ClassIndex.Building) : Hierarchy := ⟨b.index, {}⟩

/--
A storage class whose levels are all classes of one archive, which is woven with the default
configuration: fields of all levels have different names that are neither marked nor those of the
platform, and the generated bodies fit an activation.
-/
structure WovenLineage (input : Archive) (dependencies : List Archive) (w : WovenArchive)
    (built : ClassIndex.Building) (levels : List ClassDef) (c : ClassDef) : Prop where
  woven : weaveArchive input dependencies {} = .ok w
  indexed : ClassIndex.build (input :: dependencies) = .ok built
  distinctNames : DistinctNames input.classes
  platform : ∀ d ∈ input.classes, d.name ∉ ({} : Config).platformTypes
  lineage : Lineage {} input.classes levels c
  storage : built.hierarchy.isStorage c.name = true
  fits : ∀ d ∈ levels, bodiesFit built.hierarchy d = true
  distinctFields : (Hierarchy.fieldNames levels).Nodup
  ordinary : ∀ n ∈ Hierarchy.fieldNames levels,
    Names.isSynthetic n = false ∧ Names.isPlatformField n = false

namespace WovenLineage

variable {input : Archive} {dependencies : List Archive} {w : WovenArchive}
  {built : ClassIndex.Building} {levels : List ClassDef} {c : ClassDef}

theorem wovenProgram (hl : WovenLineage input dependencies w built levels c) :
    WovenProgram built.hierarchy input.classes w.program :=
  wovenProgram_of_weaveArchive hl.woven hl.indexed hl.distinctNames hl.platform

theorem persistentLineage (hl : WovenLineage input dependencies w built levels c)
    (hconcrete : ∀ d ∈ levels, d.isInterface = false) :
    PersistentLineage built.hierarchy input.classes levels c :=
  ⟨hl.lineage, Lineage.isStorage hl.wovenProgram hl.lineage hl.storage, hconcrete, hl.fits⟩

theorem ordinary_of_mem (hl : WovenLineage input dependencies w built levels c) {r : ResolvedField}
    (hr : r ∈ built.hierarchy.persistentFields levels) :
    Names.isSynthetic r.field.name = false ∧ Names.isPlatformField r.field.name = false := by
  obtain ⟨d, hd, -, hf, -⟩ := Hierarchy.mem_persistentFields.1 hr
  exact hl.ordinary _ (List.mem_flatMap.2 ⟨d, hd, List.mem_map_of_mem hf⟩)

end WovenLineage

/-! ### Archives with two levels -/

/-- A class as it is woven, if it can be. -/
def wovenResult (h : Hierarchy) (c : ClassDef) : ClassDef :=
  match weaveClass h c with
  | .ok w => w.result
  | .error _ => c

/-- The classes that an archive is woven into. -/
def wovenClasses (input : Archive) : Except WeaveError (List ClassDef) :=
  (weaveArchive input [] {}).map fun w => w.report.classes.map (·.result)

theorem exists_weaveArchive {input : Archive} {classes : List ClassDef}
    (h : wovenClasses input = .ok classes) :
    ∃ w, weaveArchive input [] {} = .ok w ∧ w.program = Program.ofClasses classes := by
  rw [wovenClasses] at h
  rcases hw : weaveArchive input [] {} with e | w
  · rw [hw] at h
    cases h
  · rw [hw] at h
    exact ⟨w, rfl, congrArg Program.ofClasses (Except.ok.inj h)⟩

namespace Weaving.ArchiveWeaver

/-- The entries of stored classes are woven as the classes are, one after the other. -/
theorem exists_run_mapM_weaveEntry {h : Hierarchy} {o : Oracle Remembering}
    {es : List Archive.Entry} {cs : List ClassDef} {ws : List WovenClass} {memo memo' : Memo}
    (hclass : ∀ e ∈ es, e.isClass = true) (hdata : es.map (·.data) = cs.map (·.toBytes))
    (hread : ∀ c ∈ cs, ClassDef.ofBytes? c.toBytes = some c)
    (hrun : (cs.mapM (ClassWeaver.weave h o)).run memo = .ok (ws, memo')) :
    ∃ woven, (es.mapM (weaveEntry h o)).run memo = .ok (woven, memo') ∧
      woven.filterMap (·.woven) = ws ∧ woven.map (·.entry.name) = es.map (·.name) := by
  induction es generalizing cs ws memo with
  | nil =>
    obtain rfl := List.map_eq_nil_iff.1 hdata.symm
    cases hrun
    exact ⟨[], rfl, rfl, rfl⟩
  | cons e es ih =>
    obtain ⟨c, cs, rfl, he, hdata⟩ := List.map_eq_cons_iff.1 hdata.symm
    obtain ⟨hc, hread⟩ := List.forall_mem_cons.1 hread
    obtain ⟨hisClass, hclass⟩ := List.forall_mem_cons.1 hclass
    rw [List.mapM_cons, StateT.run_bind] at hrun
    obtain ⟨⟨w, memo₁⟩, hw, hrun⟩ := bind_eq_ok.1 hrun
    rw [StateT.run_bind] at hrun
    obtain ⟨⟨ws, memo₂⟩, hws, hrun⟩ := bind_eq_ok.1 hrun
    cases hrun
    obtain ⟨woven, hwoven, rfl, hnames⟩ := ih hclass hdata.symm hread hws
    have hentry : (weaveEntry h o e).run memo =
        .ok (⟨⟨e.name, w.result.toBytes⟩, some w⟩, memo₁) := by
      simp only [weaveEntry, hisClass, ← he, hc, if_true]
      rw [StateT.run_bind, hw]
      rfl
    refine ⟨⟨⟨e.name, w.result.toBytes⟩, some w⟩ :: woven, ?_, rfl, ?_⟩
    · rw [List.mapM_cons, StateT.run_bind, hentry]
      change ((es.mapM (weaveEntry h o)).run memo₁ >>= _) = _
      rw [hwoven]
      rfl
    · rw [List.map_cons, List.map_cons, hnames]

end Weaving.ArchiveWeaver

/-- An archive of classes with different names, each in its stored form, holds these classes, is
indexed in their order, and is woven as they are, one after the other. -/
theorem woven_of_stored {a : Archive} {cs results : List ClassDef}
    (hclass : ∀ e ∈ a.entries, e.isClass = true)
    (hdata : a.entries.map (·.data) = cs.map (·.toBytes))
    (hread : ∀ c ∈ cs, c.reread? = some c) (hnames : (cs.map (·.name)).Nodup)
    (hresults : ((cs.mapM (ClassWeaver.weave ⟨⟨cs.map fun c => ⟨c, c.toBytes⟩⟩, {}⟩
      (.remembering ⟨⟨cs.map fun c => ⟨c, c.toBytes⟩⟩, {}⟩))).run {}).map
        (·.1.map (·.result)) = .ok results) :
    a.classes = cs ∧ ClassIndex.build [a] = .ok { index := ⟨cs.map fun c => ⟨c, c.toBytes⟩⟩ } ∧
      wovenClasses a = .ok results := by
  have hread : ∀ c ∈ cs, ClassDef.ofBytes? c.toBytes = some c := fun c hc =>
    (ClassDef.ofBytes?_toBytes c).trans (hread c hc)
  have hentries : a.classEntries.map (·.data) = cs.map (·.toBytes) := by
    rw [Archive.classEntries, List.filter_eq_self.2 hclass, hdata]
  have hbuilt := ClassIndex.build_of_nodup hentries hread hnames
  refine ⟨ClassIndex.classes_of_data hentries hread, hbuilt, ?_⟩
  rcases hrun : (cs.mapM (ClassWeaver.weave ⟨⟨cs.map fun c => ⟨c, c.toBytes⟩⟩, {}⟩
    (.remembering ⟨⟨cs.map fun c => ⟨c, c.toBytes⟩⟩, {}⟩))).run {} with err | ⟨ws, memo⟩
  · rw [hrun] at hresults
    cases hresults
  · rw [hrun] at hresults
    cases hresults
    obtain ⟨woven, hwoven, rfl, hpaths⟩ :=
      ArchiveWeaver.exists_run_mapM_weaveEntry hclass hdata hread hrun
    -- The entries keep their names, so that they go into one archive again.
    let result : Archive := ⟨woven.map (·.entry), by
      rw [List.map_map]
      exact hpaths.symm ▸ a.distinct⟩
    have hresult : Archive.empty.pushAll (woven.map (·.entry)) = .ok result :=
      Archive.pushAll_eq_ok.2 rfl
    rw [wovenClasses, weaveArchive, hbuilt]
    simp only [bind, Except.bind, hwoven, hresult]
    rfl

/-- A storage class with one level above, in an archive of the two. -/
theorem exists_wovenLineage_pair {input : Archive} {built : ClassIndex.Building}
    {upper lower : ClassDef} {results : List ClassDef} {root : String}
    (hwoven : input.classes = [upper, lower] ∧ ClassIndex.build [input] = .ok built ∧
      wovenClasses input = .ok results)
    (hnames : upper.name ≠ lower.name)
    (hplatform : ∀ d ∈ [upper, lower], d.name ∉ ({} : Config).platformTypes)
    (hupper : upper.superclass = some root) (hroot : ({} : Config).isPlatformRoot root = true)
    (hlower : lower.superclass = some upper.name)
    (hstorage : built.hierarchy.isStorage lower.name = true)
    (hfits : ∀ d ∈ [upper, lower], bodiesFit built.hierarchy d = true)
    (hdistinct : (Hierarchy.fieldNames [upper, lower]).Nodup)
    (hordinary : ∀ n ∈ Hierarchy.fieldNames [upper, lower],
      Names.isSynthetic n = false ∧ Names.isPlatformField n = false) :
    ∃ w, WovenLineage input [] w built [upper, lower] lower ∧
      w.program = Program.ofClasses results := by
  obtain ⟨hclasses, hindex, hresults⟩ := hwoven
  obtain ⟨w, hw, hprogram⟩ := exists_weaveArchive hresults
  refine ⟨w, ⟨hw, hindex, ?_, ?_, ?_, hstorage, hfits, hdistinct, hordinary⟩, hprogram⟩ <;>
    rw [hclasses]
  · rintro c hc d hd hname
    rcases List.mem_pair.1 hc with rfl | rfl <;> rcases List.mem_pair.1 hd with rfl | rfl
    · rfl
    · exact absurd hname hnames
    · exact absurd hname.symm hnames
    · rfl
  · exact hplatform
  · refine .child (.top (by simp) hupper hroot) (by simp) hlower ?_
    rw [Bool.eq_false_iff]
    exact fun hplatformRoot => hplatform upper (by simp) (Config.mem_platformTypes hplatformRoot)

namespace Bank

/-- A class below the platform root. -/
def account : ClassDef where
  name := "bank.Account"
  superclass := some "runtime.Storage"
  fields := [⟨"owner", .reference "lang.String", .none⟩, ⟨"balance", .primitive .long, .none⟩,
    ⟨"cache", .primitive .int, .transient⟩]

/-- A class below another storage class. -/
def savings : ClassDef where
  name := "bank.Savings"
  superclass := some "bank.Account"
  fields := [⟨"rate", .primitive .double, .none⟩, ⟨"next", .reference "bank.Account", .none⟩]

/-- The archive of both. -/
def archive : Archive where
  entries := [⟨"bank/Account.class", account.toBytes⟩, ⟨"bank/Savings.class", savings.toBytes⟩]
  distinct := by decide

/-- The index of the archive. -/
def index : ClassIndex.Building where
  index := ⟨[⟨account, account.toBytes⟩, ⟨savings, savings.toBytes⟩]⟩

/-- The archive is woven, and the bodies that its classes are given fit. -/
theorem woven_and_fits : (archive.classes = [account, savings] ∧
    ClassIndex.build [archive] = .ok index ∧ wovenClasses archive =
      .ok [wovenResult index.hierarchy account, wovenResult index.hierarchy savings]) ∧
    ∀ d ∈ [account, savings], bodiesFit index.hierarchy d = true :=
  ⟨woven_of_stored (by decide) rfl (by decide) (by decide) (by decide +kernel), by decide +kernel⟩

theorem woven : archive.classes = [account, savings] ∧ ClassIndex.build [archive] = .ok index ∧
    wovenClasses archive =
      .ok [wovenResult index.hierarchy account, wovenResult index.hierarchy savings] :=
  woven_and_fits.1

/-- The lineage of the lower class. -/
theorem exists_wovenLineage : ∃ w, WovenLineage archive [] w index [account, savings] savings ∧
    w.program = Program.ofClasses
      [wovenResult index.hierarchy account, wovenResult index.hierarchy savings] :=
  exists_wovenLineage_pair woven (by decide) (by decide) rfl (by decide) rfl (by decide)
    woven_and_fits.2 (by decide) (by decide)

end Bank

namespace Library

/-- An interface below the platform root, which is not given the members of a storage class. -/
def document : ClassDef where
  name := "lib.Document"
  superclass := some "runtime.Storage"
  access := .interface
  fields := [⟨"size", .primitive .int, .none⟩, ⟨"text", .reference "lang.String", .none⟩]

/-- A class below the interface, with a method that reads a lazy field of it. -/
def page : ClassDef where
  name := "lib.Page"
  superclass := some "lib.Document"
  methods := [{
    name := "read"
    signature := ⟨[], some (.reference "lang.String")⟩
    code := some [.loadThis, .getField "lib.Page" "text" (.reference "lang.String"),
      .return (some .reference)] }]

/-- The archive of both. -/
def archive : Archive where
  entries := [⟨"lib/Document.class", document.toBytes⟩, ⟨"lib/Page.class", page.toBytes⟩]
  distinct := by decide

/-- The index of the archive. -/
def index : ClassIndex.Building where
  index := ⟨[⟨document, document.toBytes⟩, ⟨page, page.toBytes⟩]⟩

/-- The archive is woven, and the bodies that its classes are given fit. -/
theorem woven_and_fits : (archive.classes = [document, page] ∧
    ClassIndex.build [archive] = .ok index ∧
    wovenClasses archive = .ok [document, wovenResult index.hierarchy page]) ∧
    ∀ d ∈ [document, page], bodiesFit index.hierarchy d = true :=
  ⟨woven_of_stored (by decide) rfl (by decide) (by decide) (by decide +kernel), by decide +kernel⟩

theorem woven : archive.classes = [document, page] ∧ ClassIndex.build [archive] = .ok index ∧
    wovenClasses archive = .ok [document, wovenResult index.hierarchy page] :=
  woven_and_fits.1

/-- The lineage of the lower class. -/
theorem exists_wovenLineage : ∃ w, WovenLineage archive [] w index [document, page] page ∧
    w.program = Program.ofClasses [document, wovenResult index.hierarchy page] :=
  exists_wovenLineage_pair woven (by decide) (by decide) rfl (by decide) rfl (by decide)
    woven_and_fits.2 (by decide) (by decide)

end Library

end StorageWeave
