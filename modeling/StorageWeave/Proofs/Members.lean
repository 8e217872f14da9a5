import StorageWeave.Proofs.Additions

/-!
# The members of a storage class

A storage class is given one list of `additions`. So what becomes of a class is said at once
(`addMembers_eq_ok`): the fields and methods go behind those it had, and meet none of them. It keeps
the methods it had, each added method is found by its name and signature, and a method that was not
there has one of the `memberNames` (`addMembers_spec`).
-/

namespace StorageWeave.Weaving

open Bytecode

theorem Hierarchy.lazyFields_of_classify {h : Hierarchy} {c : ClassDef} {k : Classification}
    (hk : h.classify c = .ok k) : k.lazyFields = h.lazyFields c := by
  obtain ⟨levels, -, hk⟩ := bind_eq_ok.1 hk
  cases hk
  rfl

namespace Names

theorem isSynthetic_shadow (n : String) : isSynthetic (shadow n) = true := by
  simp [isSynthetic, shadow, mark]

theorem isSynthetic_loadedFlag (n : String) : isSynthetic (loadedFlag n) = true := by
  simp [isSynthetic, loadedFlag, mark]

theorem isSynthetic_getter (n : String) : isSynthetic (getter n) = true := by
  simp [isSynthetic, getter, mark]

theorem isSynthetic_setter (n : String) : isSynthetic (setter n) = true := by
  simp [isSynthetic, setter, mark]

theorem isSynthetic_ensureLoaded (n : String) : isSynthetic (ensureLoaded n) = true := by
  -- the equation of this name is slow to make, so the name is unfolded without it
  delta ensureLoaded
  simp [isSynthetic, mark]

theorem isSynthetic_extractUpdates : isSynthetic extractUpdates = true := by
  decide

theorem shadow_injective {a b : String} (h : shadow a = shadow b) : a = b := by
  simpa [shadow] using h

theorem loadedFlag_injective {a b : String} (h : loadedFlag a = loadedFlag b) : a = b := by
  simpa [loadedFlag] using h

theorem shadow_ne_loadedFlag (a b : String) : shadow a ≠ loadedFlag b := by
  intro h
  have := congrArg String.toList h
  simp [shadow, loadedFlag] at this

end Names

/-! ## Classes that grow -/

/-- The names of the methods that a class with the given lazy fields is given. -/
def memberNames (lazyFields : List FieldDef) : List String :=
  lazyFields.flatMap
      (fun f => [Names.ensureLoaded f.name, Names.getter f.name, Names.setter f.name]) ++
    [constructorName, Names.extractUpdates]

theorem isSynthetic_of_mem_memberNames {lazyFields : List FieldDef} {name : String}
    (h : name ∈ memberNames lazyFields) :
    Names.isSynthetic name = true ∨ name = constructorName := by
  rcases List.mem_append.1 h with h | h
  · obtain ⟨f, -, h⟩ := List.mem_flatMap.1 h
    simp only [List.mem_cons, List.not_mem_nil, or_false] at h
    rcases h with rfl | rfl | rfl
    · exact .inl (Names.isSynthetic_ensureLoaded f.name)
    · exact .inl (Names.isSynthetic_getter f.name)
    · exact .inl (Names.isSynthetic_setter f.name)
  · simp only [List.mem_cons, List.not_mem_nil, or_false] at h
    rcases h with rfl | rfl
    · exact .inr rfl
    · exact .inl Names.isSynthetic_extractUpdates

/-- `c'` is `c` with methods of some names added behind those of `c`. -/
structure Grows (names : List String) (c c' : ClassDef) : Prop where
  name : c'.name = c.name
  superclass : c'.superclass = c.superclass
  keeps : ∀ {name signature m}, c.method? name signature = some m →
    c'.method? name signature = some m
  adds : ∀ {name signature m}, c'.method? name signature = some m →
    c.method? name signature = some m ∨ name ∈ names

/-- A class has the method that a computation makes. -/
def Has (c : ClassDef) (made : Except WeaveError MethodDef) : Prop :=
  ∃ m, made = .ok m ∧ c.method? m.name m.signature = some m

theorem Grows.refl (names : List String) (c : ClassDef) : Grows names c c := ⟨rfl, rfl, id, .inl⟩

/-! ## The added members -/

namespace Augmentation

variable {h : Hierarchy} {c : ClassDef} {k : Classification}

theorem superclass_eq_ok {s : String} (hs : superclass c = .ok s) : c.superclass = some s := by
  unfold superclass at hs
  split at hs
  · next hs' => exact hs'.trans (congrArg some (Except.ok.inj hs))
  · cases hs

theorem assemble_of_body {method : String} {ds : List Directive} {code : Code}
    (hcode : body c method ds = .ok code) : assemble ds = .ok code := by
  unfold body at hcode
  rcases hds : assemble ds with e | code'
  · rw [hds] at hcode
    cases hcode
  · rw [hds] at hcode
    exact congrArg _ (Except.ok.inj hcode)

theorem generated_eq_ok {name : String} {signature : Signature} {ds : List Directive}
    {m : MethodDef} (hm : generated c name signature ds = .ok m) :
    m.name = name ∧ m.signature = signature ∧
      ∃ code, m.code = some code ∧ assemble ds = .ok code := by
  obtain ⟨code, hcode, hm⟩ := bind_eq_ok.1 hm
  cases hm
  exact ⟨rfl, rfl, code, rfl, assemble_of_body hcode⟩

/-- The accessors of a lazy field are found. -/
structure HasAccessors (h : Hierarchy) (c : ClassDef) (f : FieldDef) (c' : ClassDef) : Prop where
  ensureLoaded : Has c' (ensureLoaded h c f)
  getter : Has c' (getter c f)
  setter : Has c' (setter c f)

/-- One step of `assignSlots`. -/
theorem assignSlots_cons {f : FieldDef} {fs : List FieldDef} {slot last : UInt16}
    {slotted : List SlottedField} (h : assignSlots c slot (f :: fs) = .ok (slotted, last)) :
    ∃ rest, slotted = ⟨f, slot⟩ :: rest ∧
      (slot + f.type.size.toUInt16).toNat = slot.toNat + f.type.size ∧
      assignSlots c (slot + f.type.size.toUInt16) fs = .ok (rest, last) := by
  rw [assignSlots] at h
  split at h
  · next hfits =>
    obtain ⟨⟨rest, last'⟩, hrest, h⟩ := bind_eq_ok.1 h
    cases h
    refine ⟨rest, rfl, ?_, hrest⟩
    rw [UInt16.toNat_add, Nat.toUInt16, UInt16.toNat_ofNat']
    omega
  · cases h

/-- Fields are given slots one after the other. -/
theorem fields_of_assignSlots {fs : List FieldDef} {slot last : UInt16}
    {slotted : List SlottedField} (h : assignSlots c slot fs = .ok (slotted, last)) :
    slotted.map (·.field) = fs := by
  induction fs generalizing slot slotted with
  | nil =>
    cases h
    rfl
  | cons f fs ih =>
    obtain ⟨rest, rfl, -, hrest⟩ := assignSlots_cons h
    rw [List.map_cons, ih hrest]

theorem constructor_eq_ok {m : MethodDef} (hm : constructor h c k = .ok m) :
    m.name = constructorName ∧ m.signature = ⟨constructorParams h k.allEager, none⟩ ∧
      ∃ s inherited own slot last code, c.superclass = some s ∧
        assignSlots c 2 k.inheritedEager = .ok (inherited, slot) ∧
        assignSlots c slot k.ownEager = .ok (own, last) ∧
        assemble (constructorBody h c s inherited own) = .ok code ∧ m.code = some code := by
  obtain ⟨s, hs, hm⟩ := bind_eq_ok.1 hm
  obtain ⟨⟨inherited, slot⟩, hinherited, hm⟩ := bind_eq_ok.1 hm
  obtain ⟨⟨own, last⟩, hown, hm⟩ := bind_eq_ok.1 hm
  obtain ⟨code, hcode, hm⟩ := bind_eq_ok.1 hm
  cases hm
  exact ⟨rfl, rfl, s, inherited, own, slot, last, code, superclass_eq_ok hs, hinherited, hown,
    assemble_of_body hcode, rfl⟩

/-! ## The list of added methods -/

/-- The accessors of a lazy field. -/
def accessors (h : Hierarchy) (c : ClassDef) (f : FieldDef) :
    Except WeaveError (List MethodDef) := do
  return [← ensureLoaded h c f, ← getter c f, ← setter c f]

/-- The methods of a storage class that are added to it, in their order. -/
def members (h : Hierarchy) (c : ClassDef) (k : Classification) :
    Except WeaveError (List MethodDef) := do
  let lists ← k.lazyFields.mapM (accessors h c)
  return lists.flatten ++ [← constructor h c k, ← extractUpdates h c k]

variable {ms : List MethodDef}

theorem accessors_eq_ok {f : FieldDef} (hms : accessors h c f = .ok ms) :
    ∃ m₁ m₂ m₃, ensureLoaded h c f = .ok m₁ ∧ getter c f = .ok m₂ ∧ setter c f = .ok m₃ ∧
      ms = [m₁, m₂, m₃] := by
  obtain ⟨m₁, hm₁, hms⟩ := bind_eq_ok.1 hms
  obtain ⟨m₂, hm₂, hms⟩ := bind_eq_ok.1 hms
  obtain ⟨m₃, hm₃, hms⟩ := bind_eq_ok.1 hms
  exact ⟨m₁, m₂, m₃, hm₁, hm₂, hm₃, (Except.ok.inj hms).symm⟩

theorem members_eq_ok (hms : members h c k = .ok ms) :
    ∃ lists m₁ m₂, List.Forall₂ (fun f l => accessors h c f = .ok l) k.lazyFields lists ∧
      constructor h c k = .ok m₁ ∧ extractUpdates h c k = .ok m₂ ∧
      ms = lists.flatten ++ [m₁, m₂] := by
  obtain ⟨lists, hlists, hms⟩ := bind_eq_ok.1 hms
  obtain ⟨m₁, hm₁, hms⟩ := bind_eq_ok.1 hms
  obtain ⟨m₂, hm₂, hms⟩ := bind_eq_ok.1 hms
  exact ⟨lists, m₁, m₂, forall₂_of_mapM hlists, hm₁, hm₂, (Except.ok.inj hms).symm⟩

/-- What the added methods are. -/
theorem mem_members {m : MethodDef} (hms : members h c k = .ok ms) :
    m ∈ ms ↔ (∃ f ∈ k.lazyFields,
        ensureLoaded h c f = .ok m ∨ getter c f = .ok m ∨ setter c f = .ok m) ∨
      constructor h c k = .ok m ∨ extractUpdates h c k = .ok m := by
  obtain ⟨lists, m₁, m₂, hlists, hm₁, hm₂, rfl⟩ := members_eq_ok hms
  have haccessors : m ∈ lists.flatten ↔ ∃ f ∈ k.lazyFields,
      ensureLoaded h c f = .ok m ∨ getter c f = .ok m ∨ setter c f = .ok m := by
    rw [List.mem_flatten]
    constructor
    · rintro ⟨l, hl, hm⟩
      obtain ⟨f, hf, hl⟩ := exists_of_forall₂_right hlists hl
      obtain ⟨a₁, a₂, a₃, h₁, h₂, h₃, rfl⟩ := accessors_eq_ok hl
      refine ⟨f, hf, ?_⟩
      rw [h₁, h₂, h₃]
      simpa [eq_comm] using hm
    · rintro ⟨f, hf, hm⟩
      obtain ⟨l, hl, hf⟩ := exists_of_forall₂_right hlists.flip hf
      obtain ⟨a₁, a₂, a₃, h₁, h₂, h₃, rfl⟩ := accessors_eq_ok hf
      refine ⟨_, hl, ?_⟩
      rw [h₁, h₂, h₃] at hm
      simpa [eq_comm] using hm
  rw [List.mem_append, haccessors, hm₁, hm₂]
  simp [eq_comm]

theorem name_mem_memberNames {m : MethodDef} (hms : members h c k = .ok ms) (hm : m ∈ ms) :
    m.name ∈ memberNames k.lazyFields := by
  have haccessor {f : FieldDef} (hf : f ∈ k.lazyFields) (hname : m.name ∈
      [Names.ensureLoaded f.name, Names.getter f.name, Names.setter f.name]) :
      m.name ∈ memberNames k.lazyFields :=
    List.mem_append_left _ (List.mem_flatMap.2 ⟨f, hf, hname⟩)
  rcases (mem_members hms).1 hm with ⟨f, hf, hm | hm | hm⟩ | hm | hm
  · exact haccessor hf (by simp [(generated_eq_ok hm).1])
  · exact haccessor hf (by simp [(generated_eq_ok hm).1])
  · exact haccessor hf (by simp [(generated_eq_ok hm).1])
  · exact List.mem_append_right _ (by simp [(constructor_eq_ok hm).1])
  · obtain ⟨s, -, hm⟩ := bind_eq_ok.1 hm
    exact List.mem_append_right _ (by simp [(generated_eq_ok hm).1])

/-! ## The additions of a storage class -/

open Addition (addToDraft)

/-- The field with the last persisted value of a field. -/
def shadowField (f : FieldDef) : FieldDef := ⟨Names.shadow f.name, f.type, .generated⟩

/-- The field that says whether a lazy field has been loaded. -/
def flagField (f : FieldDef) : FieldDef := ⟨Names.loadedFlag f.name, boolean, .generated⟩

/-- What is added for a lazy field, apart from its shadow. -/
def lazyAdditions (h : Hierarchy) (c : ClassDef) (f : FieldDef) : List Addition :=
  [.field (flagField f), .method (ensureLoaded h c f), .method (getter c f), .method (setter c f)]

/-- What is added to a storage class, in the order of adding. -/
def additions (h : Hierarchy) (c : ClassDef) (k : Classification) : List Addition :=
  (k.ownEager ++ k.lazyFields).map (fun f => .field (shadowField f)) ++
    (k.lazyFields.flatMap (lazyAdditions h c) ++
      [.method (constructor h c k), .method (extractUpdates h c k)])

/-- The fields that a storage class is given. -/
def addedFields (k : Classification) : List FieldDef :=
  (k.ownEager ++ k.lazyFields).map shadowField ++ k.lazyFields.map flagField

theorem foldlM_addLazy (fs : List FieldDef) (d : Draft) :
    (fs.flatMap (lazyAdditions h c)).foldlM addToDraft d = fs.foldlM (addLazy h c) d := by
  induction fs generalizing d with
  | nil => rfl
  | cons f fs ih =>
    have hlazy : (lazyAdditions h c f).foldlM addToDraft d = addLazy h c d f := by
      simp [addLazy, lazyAdditions, addToDraft, flagField]
    rw [List.foldlM_cons, List.flatMap_cons, List.foldlM_append, hlazy]
    exact congrArg _ (funext ih)

theorem addMembers_eq (d : Draft) :
    addMembers h c k d = (additions h c k).foldlM addToDraft d := by
  rw [additions, List.foldlM_append, List.foldlM_map, addMembers]
  refine bind_congr fun out => ?_
  rw [List.foldlM_append, foldlM_addLazy]
  simp [addToDraft]

theorem fields_shadows (fs : List FieldDef) :
    Addition.fields (fs.map fun f => .field (shadowField f)) = fs.map shadowField := by
  simp [Addition.fields, List.filterMap_map, Addition.field?, Function.comp_def]

theorem fields_additions : Addition.fields (additions h c k) = addedFields k := by
  have hlazy (fs : List FieldDef) :
      (fs.flatMap (lazyAdditions h c)).filterMap Addition.field? = fs.map flagField := by
    induction fs with
    | nil => rfl
    | cons f fs ih =>
      rw [List.flatMap_cons, List.filterMap_append, ih]
      rfl
  have hshadows := fields_shadows (k.ownEager ++ k.lazyFields)
  rw [Addition.fields] at hshadows
  rw [Addition.fields, additions, List.filterMap_append, List.filterMap_append, hlazy, hshadows]
  simp [addedFields, Addition.field?]

theorem methods_additions : Addition.methods (additions h c k) = members h c k := by
  have hshadows (fs : List FieldDef) :
      Addition.methods (fs.map fun f => .field (shadowField f)) = pure [] := by
    induction fs with
    | nil => rfl
    | cons f fs ih => exact ih
  have hlazy (fs : List FieldDef) : Addition.methods (fs.flatMap (lazyAdditions h c)) = do
      return (← fs.mapM (accessors h c)).flatten := by
    induction fs with
    | nil => rfl
    | cons f fs ih =>
      rw [List.flatMap_cons, Addition.methods_append, ih, List.mapM_cons]
      simp [lazyAdditions, Addition.methods, accessors]
  rw [additions, Addition.methods_append, Addition.methods_append, hshadows, hlazy, members]
  simp [Addition.methods]

/-- **The members of a storage class** go behind those that a draft has, and meet none of them. -/
theorem addMembers_eq_ok {d d' : Draft} (hadd : addMembers h c k d = .ok d') :
    ∃ added, members h c k = .ok added ∧
      ¬ Clashes (d.toClass.fields.map (·.name)) ((addedFields k).map (·.name)) ∧
      ¬ Clashes (d.toClass.methods.map MethodDef.key) (added.map MethodDef.key) ∧
      d'.toClass = { d.toClass with
        fields := d.toClass.fields ++ addedFields k
        methods := d.toClass.methods ++ added } := by
  have hclass := Addition.map_foldlM_addToDraft (additions h c k) d
  rw [← addMembers_eq, hadd] at hclass
  rw [← methods_additions, ← fields_additions]
  exact Addition.foldlM_addTo_eq_ok_iff.1 hclass.symm

/-- **A class with the members of a storage class** has grown by the accessors of its lazy fields,
the deserializing constructor and the method that reports changed fields. -/
theorem addMembers_spec {d d' : Draft} (hadd : addMembers h c k d = .ok d') :
    Grows (memberNames k.lazyFields) d.toClass d'.toClass ∧
      (∀ f ∈ k.lazyFields, HasAccessors h c f d'.toClass) ∧
      Has d'.toClass (constructor h c k) ∧ Has d'.toClass (extractUpdates h c k) := by
  obtain ⟨added, hadded, -, hno, hd'⟩ := addMembers_eq_ok hadd
  have hfound (name : String) (signature : Signature) : d'.toClass.method? name signature =
      (d.toClass.method? name signature).or (added.find? (·.isNamed name signature)) := by
    rw [hd']
    exact List.find?_append
  have hhas {made : Except WeaveError MethodDef} {m : MethodDef} (hmade : made = .ok m)
      (hm : m ∈ added) : Has d'.toClass made := by
    refine ⟨m, hmade, ?_⟩
    rw [hd']
    exact ClassDef.method?_of_mem_added hno hm
  obtain ⟨lists, m₁, m₂, hlists, hm₁, hm₂, -⟩ := members_eq_ok hadded
  refine ⟨⟨by rw [hd'], by rw [hd'], ?_, ?_⟩, fun f hf => ?_,
    hhas hm₁ ((mem_members hadded).2 (.inr (.inl hm₁))),
    hhas hm₂ ((mem_members hadded).2 (.inr (.inr hm₂)))⟩
  · intro name signature m hm
    rw [hfound, hm, Option.some_or]
  · intro name signature m hm
    rw [hfound, Option.or_eq_some_iff] at hm
    refine hm.imp_right fun ⟨_, hm⟩ => ?_
    have hname : m.name = name := by
      have := List.find?_some hm
      simp only [MethodDef.isNamed, decide_eq_true_eq] at this
      exact this.1
    exact hname ▸ name_mem_memberNames hadded (List.mem_of_find?_eq_some hm)
  · obtain ⟨l, -, hl⟩ := exists_of_forall₂_right hlists.flip hf
    obtain ⟨a₁, a₂, a₃, h₁, h₂, h₃, -⟩ := accessors_eq_ok hl
    exact ⟨hhas h₁ ((mem_members hadded).2 (.inl ⟨f, hf, .inl h₁⟩)),
      hhas h₂ ((mem_members hadded).2 (.inl ⟨f, hf, .inr (.inl h₂)⟩)),
      hhas h₃ ((mem_members hadded).2 (.inl ⟨f, hf, .inr (.inr h₃)⟩))⟩

end Augmentation

end StorageWeave.Weaving
