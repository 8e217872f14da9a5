import StorageWeave.Proofs.Bodies
import StorageWeave.Proofs.Levels
import StorageWeave.Proofs.Overloads

/-!
# The inventory of a storage class

The members of a storage class are one list of additions. They can be added unless one of them
clashes with an earlier member or the eager fields do not fit (`Augmentation.exists_augment_iff`),
and the methods among them are declared in a fixed order (`Augmentation.implements_members`). So the
members of a woven storage class and the reasons why it cannot be woven can be listed
(`weaveClass_inventory`).
-/

namespace StorageWeave

open Bytecode

namespace Weaving.Addition

variable {as : List Addition} {c c' : ClassDef} {e : WeaveError}

theorem name_addTo {a : Addition} (ha : addTo c a = .ok c') : c'.name = c.name := by
  cases a with
  | field f =>
    rw [addTo] at ha
    split at ha <;> cases ha
    rfl
  | method made =>
    obtain ⟨m, -, ha⟩ := bind_eq_ok.1 ha
    split at ha <;> cases ha
    rfl

/-- Additions fail because of a clash, or because a method cannot be made. -/
theorem foldlM_addTo_eq_error (he : as.foldlM addTo c = .error e) :
    (∃ member, e = .duplicateMember c.name member) ∨ .method (.error e) ∈ as := by
  induction as generalizing c with
  | nil => cases he
  | cons a as ih =>
    rw [List.foldlM_cons] at he
    obtain he | ⟨c', hadd, he⟩ := bind_eq_error.1 he
    · cases a with
      | field f =>
        rw [addTo] at he
        split at he <;> cases he
        exact .inl ⟨_, rfl⟩
      | method made =>
        cases made with
        | error e' =>
          cases he
          exact .inr List.mem_cons_self
        | ok m =>
          rw [addTo_method] at he
          split at he <;> cases he
          exact .inl ⟨_, rfl⟩
    · rw [← name_addTo hadd]
      exact (ih he).imp_right (List.mem_cons_of_mem _)

end Weaving.Addition

/-- A method is another one with a body. -/
def Bytecode.MethodDef.Implements (m declared : MethodDef) : Prop :=
  ∃ code, m = { declared with code := some code }

namespace Weaving.Augmentation

open Addition (addTo)

/-- The accessors of a lazy field, without their bodies. -/
def accessorDeclarations (f : FieldDef) : List MethodDef :=
  [{ name := Names.ensureLoaded f.name, signature := .void, access := .generated },
    { name := Names.getter f.name, signature := ⟨[], some f.type⟩, access := .generated },
    { name := Names.setter f.name, signature := ⟨[f.type], none⟩, access := .generated }]

/-- The methods that a storage class is given, without their bodies. -/
def declarations (h : Hierarchy) (k : Classification) : List MethodDef :=
  k.lazyFields.flatMap accessorDeclarations ++
    [{ name := constructorName
       signature := ⟨constructorParams h k.allEager, none⟩
       access := Access.public.union .synthetic },
      { name := Names.extractUpdates, signature := extractSignature h, access := .generated }]

variable {h : Hierarchy} {c : ClassDef} {k : Classification} {ms : List MethodDef}

/-- **A class with its members** is the class with the additions. -/
theorem augment_eq (out : ClassDef) :
    augment h c k out = (additions h c k).foldlM addTo out := by
  rw [← Draft.toClass_ofClass out, ← Addition.map_foldlM_addToDraft, ← addMembers_eq,
    Draft.toClass_ofClass, augment]
  cases addMembers h c k (.ofClass out) <;> rfl

/-! ## The added methods -/

theorem implements_generated {name : String} {signature : Signature} {ds : List Directive}
    {m : MethodDef} (hm : generated c name signature ds = .ok m) :
    m.Implements { name, signature, access := .generated } := by
  obtain ⟨code, -, hm⟩ := bind_eq_ok.1 hm
  exact ⟨code, (Except.ok.inj hm).symm⟩

/-- The added methods are declared as listed. -/
theorem implements_members (hms : members h c k = .ok ms) :
    List.Forall₂ MethodDef.Implements ms (declarations h k) := by
  obtain ⟨lists, m₁, m₂, hlists, hm₁, hm₂, rfl⟩ := members_eq_ok hms
  have haccessors {fs : List FieldDef} {lists : List (List MethodDef)}
      (hlists : List.Forall₂ (fun f ms => accessors h c f = .ok ms) fs lists) :
      List.Forall₂ MethodDef.Implements lists.flatten (fs.flatMap accessorDeclarations) := by
    induction hlists with
    | nil => exact .nil
    | cons hms _ ih =>
      obtain ⟨a₁, a₂, a₃, h₁, h₂, h₃, rfl⟩ := accessors_eq_ok hms
      exact List.rel_append (.cons (implements_generated h₁) (.cons (implements_generated h₂)
        (.cons (implements_generated h₃) .nil))) ih
  refine List.rel_append (haccessors hlists) (.cons ?_ (.cons ?_ .nil))
  · obtain ⟨s, -, hm₁⟩ := bind_eq_ok.1 hm₁
    obtain ⟨⟨inherited, slot⟩, -, hm₁⟩ := bind_eq_ok.1 hm₁
    obtain ⟨⟨own, last⟩, -, hm₁⟩ := bind_eq_ok.1 hm₁
    obtain ⟨code, -, hm₁⟩ := bind_eq_ok.1 hm₁
    exact ⟨code, (Except.ok.inj hm₁).symm⟩
  · obtain ⟨s, -, hm₂⟩ := bind_eq_ok.1 hm₂
    exact implements_generated hm₂

theorem keys_of_members (hms : members h c k = .ok ms) :
    ms.map MethodDef.key = (declarations h k).map MethodDef.key := by
  have hkeys : List.Forall₂ (fun m d => m.key = d.key) ms (declarations h k) := by
    refine (implements_members hms).imp ?_
    rintro m d ⟨code, rfl⟩
    rfl
  rwa [← List.forall₂_map_right_iff, ← List.forall₂_map_left_iff, List.forall₂_eq_eq_eq] at hkeys

/-- Every accessor can be made. -/
theorem exists_of_mem_additions {made : Except WeaveError MethodDef}
    (hmade : .method made ∈ additions h c k) :
    (∃ m, made = .ok m) ∨ made = constructor h c k ∨ made = extractUpdates h c k := by
  simp only [additions, lazyAdditions, List.mem_append, List.mem_map, List.mem_flatMap,
    List.mem_cons, List.not_mem_nil, or_false, Addition.method.injEq, reduceCtorEq, and_false,
    exists_false, false_or] at hmade
  obtain ⟨f, -, hmade | hmade | hmade⟩ | hmade := hmade
  · rw [hmade]
    exact .inl (exists_ensureLoaded h c f)
  · rw [hmade]
    exact .inl (exists_getter c f)
  · rw [hmade]
    exact .inl (exists_setter c f)
  · exact .inr hmade

/-- **The added methods can be made** if the eager fields fit and the own fields differ by name. -/
theorem exists_members {s : String} (hs : c.superclass = some s)
    (hslots : slotsOf k.allEager ≤ 65533)
    (hnames : ((k.ownEager ++ k.lazyFields).map (·.name)).Nodup) :
    ∃ ms, members h c k = .ok ms := by
  have hmade {as : List Addition} (has : ∀ made, .method made ∈ as → ∃ m, made = .ok m) :
      ∃ ms, Addition.methods as = .ok ms := by
    induction as with
    | nil => exact ⟨[], rfl⟩
    | cons a as ih =>
      obtain ⟨ms, hms⟩ := ih fun made hmem => has made (List.mem_cons_of_mem a hmem)
      cases a with
      | field f => exact ⟨ms, hms⟩
      | method made =>
        obtain ⟨m, rfl⟩ := has made List.mem_cons_self
        exact ⟨m :: ms, Addition.methods_cons_eq_ok_iff.2 ⟨ms, hms, rfl⟩⟩
  rw [← methods_additions]
  refine hmade fun made hmem => ?_
  obtain hm | rfl | rfl := exists_of_mem_additions hmem
  · exact hm
  · exact (exists_constructor_iff hs).2 hslots
  · exact exists_extractUpdates hs hnames

/-! ## Classes with their members -/

variable {out : ClassDef} {e : WeaveError}

/-- Shadows that do not clash have fields of different names. -/
theorem nodup_names {old : List String} {fs : List FieldDef}
    (hno : ¬ Clashes old ((fs.map shadowField).map (·.name))) : (fs.map (·.name)).Nodup := by
  have hnodup := (Clashes.not_iff.1 hno).1
  rw [List.map_map] at hnodup
  refine List.Nodup.of_map Names.shadow ?_
  rwa [List.map_map]

/-- **Members can be added** exactly if none of them clashes and the eager fields fit. -/
theorem exists_augment_iff {s : String} (hs : c.superclass = some s) :
    (∃ c', augment h c k out = .ok c') ↔
      ¬ Clashes (out.fields.map (·.name)) ((addedFields k).map (·.name)) ∧
      ¬ Clashes (out.methods.map MethodDef.key) ((declarations h k).map MethodDef.key) ∧
      slotsOf k.allEager ≤ 65533 := by
  simp only [augment_eq, Addition.foldlM_addTo_eq_ok_iff, methods_additions, fields_additions]
  constructor
  · rintro ⟨c', ms, hms, hfields, hmethods, -⟩
    rw [keys_of_members hms] at hmethods
    obtain ⟨-, m, -, -, hm, -⟩ := members_eq_ok hms
    exact ⟨hfields, hmethods, (exists_constructor_iff hs).1 ⟨m, hm⟩⟩
  · rintro ⟨hfields, hmethods, hslots⟩
    have hshadows : ¬ Clashes (out.fields.map (·.name))
        (((k.ownEager ++ k.lazyFields).map shadowField).map (·.name)) := by
      intro hclash
      apply hfields
      rw [addedFields, List.map_append]
      exact hclash.append _
    obtain ⟨ms, hms⟩ := exists_members (h := h) hs hslots (nodup_names hshadows)
    exact ⟨_, ms, hms, hfields, keys_of_members hms ▸ hmethods, rfl⟩

/-- Members cannot be added because of a clash or because the eager fields do not fit. -/
theorem augment_eq_error {s : String} (hs : c.superclass = some s)
    (he : augment h c k out = .error e) : (∃ member, e = .duplicateMember out.name member) ∨
      e = .unresolvableType c.name .tooManyEagerFields := by
  rw [augment_eq, additions, List.foldlM_append] at he
  obtain he | ⟨shadowed, hshadows, hrest⟩ := bind_eq_error.1 he
  · obtain hclash | hmade := Addition.foldlM_addTo_eq_error he
    · exact .inl hclash
    · simp at hmade
  · -- with the shadows in, the labels of the extraction are different
    obtain ⟨ms, -, hno, -, rfl⟩ := Addition.foldlM_addTo_eq_ok_iff.1 hshadows
    rw [fields_shadows] at hno
    obtain hclash | hmade := Addition.foldlM_addTo_eq_error hrest
    · exact .inl hclash
    · obtain ⟨m, hm⟩ | hm | hm := exists_of_mem_additions (List.mem_append_right _ hmade)
      · cases hm
      · exact .inr (constructor_eq_error hs hm.symm)
      · obtain ⟨m, hm'⟩ := exists_extractUpdates (h := h) hs (nodup_names hno)
        rw [hm'] at hm
        cases hm

end Weaving.Augmentation

namespace Weaving

open Augmentation

variable {h : Hierarchy} {c : ClassDef} {k : Classification} {ms : List WovenMethod}

/-- A storage class whose methods are woven and whose fields are sorted is left to be given its
members. -/
theorem ClassWeaver.weave_eq_augment (hconcrete : c.isInterface = false)
    (hstorage : h.isStorage c.name = true)
    (hms : List.Forall₂ (fun m wm => MethodWeaver.weave h (.exact h) c m = .ok wm) c.methods ms)
    (hk : h.classify c = .ok k) : ClassWeaver.weave h (.exact h) c = do
      let result ← Augmentation.augment h c k { c with methods := ms.map (·.method) }
      return ⟨result, true, h.isContract c.name, ms.filterMap (·.prologue),
        some ⟨k.ownEager.length, k.lazyFields.length⟩⟩ := by
  have hclass : (Oracle.exact h).isStorage c.name = .ok true := congrArg Except.ok hstorage
  have hcontract : (Oracle.exact h).isContract c.name = .ok (h.isContract c.name) := rfl
  simp only [weave, hconcrete, Bool.false_eq_true, if_false, hclass, hcontract,
    mapM_eq_ok_of_forall₂ hms, ofExcept_eq, ClassWeaver.augment, hk, bind, Except.bind, pure,
    Except.pure, if_true]
  cases Augmentation.augment h c k { c with methods := ms.map (·.method) } <;> rfl

/--
**The inventory of a storage class** that is no interface, whose methods can be woven and whose
fields are sorted into own eager and lazy ones. It keeps its header. Its fields are followed by a
shadow of each own field, the eager ones first, and a flag for each lazy one, and its woven methods
by the accessors of the lazy fields, the deserializing constructor and the method that reports
changes. It cannot be woven exactly if one of these has the name of a field, or the name and the
signature of a method, that stands before it, or if the eager fields of all levels take too many
slots; no other error arises, and none from a body.
-/
theorem weaveClass_inventory (hconcrete : c.isInterface = false)
    (hstorage : h.isStorage c.name = true)
    (hms : List.Forall₂ (fun m wm => weaveMethod h c m = .ok wm) c.methods ms)
    (hk : h.classify c = .ok k) :
    (∀ w, weaveClass h c = .ok w → ∃ added, members h c k = .ok added ∧
      List.Forall₂ MethodDef.Implements added (declarations h k) ∧
      w.result = { c with
        fields := c.fields ++ addedFields k
        methods := ms.map (·.method) ++ added }) ∧
    ((∃ e, weaveClass h c = .error e) ↔
      Clashes (c.fields.map (·.name)) ((addedFields k).map (·.name)) ∨
      Clashes (ms.map (·.method.key)) ((declarations h k).map MethodDef.key) ∨
      65533 < (k.allEager.map (·.type.size)).sum) ∧
    ∀ e, weaveClass h c = .error e →
      (∃ member, e = .duplicateMember c.name member) ∨
        e = .unresolvableType c.name .tooManyEagerFields := by
  obtain ⟨line, hline, -, -⟩ := Hierarchy.classify_eq_ok_iff.1 hk
  obtain ⟨s, hs, -⟩ := hline.exists_superclass
  have hweave := ClassWeaver.weave_eq_augment hconcrete hstorage
    (hms.imp fun _ _ hm => weaveMethod_eq_ok_iff.1 hm) hk
  refine ⟨?_, ?_, ?_⟩
  · intro w hw
    rw [weaveClass_eq_ok_iff, hweave] at hw
    obtain ⟨result, hresult, hw⟩ := bind_eq_ok.1 hw
    rw [augment_eq, Addition.foldlM_addTo_eq_ok_iff, methods_additions, fields_additions] at hresult
    obtain ⟨added, hadded, -, -, rfl⟩ := hresult
    cases hw
    exact ⟨added, hadded, implements_members hadded, rfl⟩
  · have hok : (∃ e, weaveClass h c = .error e) ↔ ¬ ∃ w, weaveClass h c = .ok w := by
      cases weaveClass h c <;> simp
    have hresult : (∃ w, weaveClass h c = .ok w) ↔
        ∃ result, augment h c k { c with methods := ms.map (·.method) } = .ok result := by
      simp only [weaveClass_eq_ok_iff, hweave, bind_eq_ok]
      constructor
      · rintro ⟨-, result, hresult, -⟩
        exact ⟨result, hresult⟩
      · rintro ⟨result, hresult⟩
        exact ⟨_, result, hresult, rfl⟩
    rw [hok, hresult, exists_augment_iff hs, List.map_map]
    simp only [not_and_or, not_not, Nat.not_le, slotsOf]
    exact Iff.rfl
  · intro e he
    obtain ⟨e', he', halike⟩ := exists_of_weaveClass_eq_error he
    rw [hweave] at he'
    obtain he' | ⟨result, -, he'⟩ := bind_eq_error.1 he'
    · have hfault := augment_eq_error hs he'
      have hclass : e'.isOfClass = true := by
        obtain ⟨member, rfl⟩ | rfl := hfault <;> rfl
      rw [halike.eq (.inr hclass)]
      exact hfault
    · cases he'

namespace Orchard

/-- Reads the lazy field of the class. -/
def pick : MethodDef where
  name := "pick"
  signature := ⟨[], some (.reference "orchard.Fruit")⟩
  code := some [.loadThis, .getField "orchard.Shrub" "fruit" (.reference "orchard.Fruit"),
    .return (some .reference)]

def shrub : ClassDef where
  name := "orchard.Shrub"
  superclass := some "orchard.Plant"
  fields := [⟨"age", .primitive .int, .private⟩, ⟨"fruit", .reference "orchard.Fruit", .private⟩]
  methods := [pick]

def garden : Hierarchy where
  index := ⟨[shrub, plant].map fun c => ⟨c, c.toBytes⟩⟩
  config := {}

def wovenPick : MethodDef :=
  { pick with code := some [.loadThis, .invoke .special "orchard.Shrub" "§get_fruit"
    ⟨[], some (.reference "orchard.Fruit")⟩, .return (some .reference)] }

theorem weaveMethod_pick : weaveMethod garden shrub pick = .ok ⟨wovenPick, none⟩ := by
  decide

theorem sorted_singleton (f : FieldDef) : FieldDef.sorted [f] = [f] := by
  rw [FieldDef.sorted, List.mergeSort_singleton]
  rfl

theorem classify_shrub : garden.classify shrub = .ok
    ⟨[[⟨"height", .primitive .float, .protected⟩], [⟨"age", .primitive .int, .private⟩]],
      [⟨"fruit", .reference "orchard.Fruit", .private⟩]⟩ := by
  have hclassify : garden.classify shrub = .ok
      ⟨[FieldDef.sorted [⟨"height", .primitive .float, .protected⟩],
          FieldDef.sorted [⟨"age", .primitive .int, .private⟩]],
        FieldDef.sorted [⟨"fruit", .reference "orchard.Fruit", .private⟩]⟩ := rfl
  rw [hclassify]
  simp only [sorted_singleton]

/-- The shrub is woven with its shadows and its flag. -/
theorem shrub_inventory : shrub.isInterface = false ∧ garden.isStorage shrub.name = true ∧
    (∃ k, garden.classify shrub = .ok k) ∧ ∃ w, weaveClass garden shrub = .ok w ∧
      w.result.fields.map (·.name) =
        ["age", "fruit", "§old_age", "§old_fruit", "§loaded_fruit"] := by
  obtain ⟨hok, herror, -⟩ := weaveClass_inventory (h := garden) (c := shrub) (by decide)
    (by decide) (.cons weaveMethod_pick .nil) classify_shrub
  refine ⟨by decide, by decide, ⟨_, classify_shrub⟩, ?_⟩
  rcases hw : weaveClass garden shrub with e | w
  · exact absurd (herror.1 ⟨e, hw⟩) (by decide)
  · obtain ⟨added, -, -, hresult⟩ := hok w hw
    refine ⟨w, rfl, ?_⟩
    rw [hresult]
    rfl

end Orchard

end Weaving

end StorageWeave
