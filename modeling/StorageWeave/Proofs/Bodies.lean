import Mathlib.Data.List.Nodup
import StorageWeave.Proofs.Assembly
import StorageWeave.Proofs.Failures
import StorageWeave.Proofs.Members
import StorageWeave.Proofs.Relocation

/-!
# The bodies of the members can be assembled

Assembling fails on a label that stands twice or nowhere, and on branches out of the code. A list of
directives in which every label stands once, every branch has its label and no other instruction
branches is free of that once an instruction follows the last label (`exists_assemble`). The bodies
of the members are such lists, as long as the fields that they are made for have different names. So
the members of a storage class can all be made, unless the eager fields do not fit the parameters of
a constructor (`exists_members`).
-/

namespace StorageWeave

open Bytecode

namespace Bytecode

/-! ## Directives with their labels -/

namespace Directive

/-- The label that a directive puts down. -/
def label? : Directive → Option String
  | .label l => some l
  | _ => none

/-- The labels that stand in a list of directives. -/
def boundLabels (ds : List Directive) : List String := ds.filterMap label?

variable {ds ds₁ ds₂ : List Directive} {l : String}

theorem mem_boundLabels : l ∈ boundLabels ds ↔ .label l ∈ ds := by
  rw [boundLabels, List.mem_filterMap]
  constructor
  · rintro ⟨d, hd, hl⟩
    cases d with
    | label l' =>
      cases hl
      exact hd
    | _ => cases hl
  · exact fun hl => ⟨_, hl, rfl⟩

theorem exists_branch_of_mem_labelled {n : Nat} {r : Nat × String} (hr : r ∈ labelled n ds) :
    ∃ i, .branch i r.2 ∈ ds := by
  induction ds generalizing n with
  | nil => cases hr
  | cons d ds ih =>
    cases d with
    | emit i | label l => exact (ih hr).imp fun _ => List.mem_cons_of_mem _
    | branch i l =>
      rcases List.mem_cons.1 hr with rfl | hr
      · exact ⟨i, List.mem_cons_self⟩
      · exact (ih hr).imp fun _ => List.mem_cons_of_mem _

@[simp] theorem boundLabels_append :
    boundLabels (ds₁ ++ ds₂) = boundLabels ds₁ ++ boundLabels ds₂ :=
  List.filterMap_append

@[simp] theorem boundLabels_emit (is : Code) : boundLabels (is.map .emit) = [] := by
  simp [boundLabels, List.filterMap_map, label?]

@[simp] theorem boundLabels_branch (i : Instruction) :
    boundLabels (.branch i l :: ds) = boundLabels ds := rfl

@[simp] theorem boundLabels_label : boundLabels (.label l :: ds) = l :: boundLabels ds := rfl

@[simp] theorem boundLabels_nil : boundLabels [] = [] := rfl

/-- Every label stands once, every branch has its label, and no other instruction branches. -/
structure Closed (ds : List Directive) : Prop where
  nodup : (boundLabels ds).Nodup
  bound : ∀ i l, .branch i l ∈ ds → l ∈ boundLabels ds
  plain : ∀ i, .emit i ∈ ds → i.targets = []

theorem closed_emit {is : Code} (his : ∀ i ∈ is, i.targets = []) : Closed (is.map .emit) where
  nodup := by simp
  bound i l hi := by simp at hi
  plain i hi := his i (by simpa using hi)

theorem Closed.append (h₁ : Closed ds₁) (h₂ : Closed ds₂)
    (hdisjoint : (boundLabels ds₁).Disjoint (boundLabels ds₂)) : Closed (ds₁ ++ ds₂) where
  nodup := by
    rw [boundLabels_append]
    exact h₁.nodup.append h₂.nodup hdisjoint
  bound i l hi := by
    rw [boundLabels_append, List.mem_append]
    exact (List.mem_append.1 hi).imp (h₁.bound i l) (h₂.bound i l)
  plain i hi := (List.mem_append.1 hi).elim (h₁.plain i) (h₂.plain i)

/-- Pieces with one label each, all of them different. -/
theorem closed_flatMap {α : Type} {as : List α} {piece : α → List Directive} {name : α → String}
    (hpiece : ∀ a, Closed (piece a)) (hname : ∀ a, boundLabels (piece a) = [name a])
    (hnodup : (as.map name).Nodup) : Closed (as.flatMap piece) := by
  have hlabels (as : List α) : boundLabels (as.flatMap piece) = as.map name := by
    induction as with
    | nil => rfl
    | cons a as ih => rw [List.flatMap_cons, boundLabels_append, hname, ih, List.map_cons,
        List.singleton_append]
  induction as with
  | nil => exact ⟨List.nodup_nil, by simp, by simp⟩
  | cons a as ih =>
    rw [List.map_cons, List.nodup_cons] at hnodup
    rw [List.flatMap_cons]
    refine (hpiece a).append (ih hnodup.2) ?_
    rw [hname, hlabels]
    simpa using hnodup.1

end Directive

open Directive

/-! ## Assembling comes to a result -/

namespace Assembler

theorem exists_run {ds : List Directive} {a : Assembler} (hnodup : (boundLabels ds).Nodup)
    (hnew : ∀ l ∈ boundLabels ds, a.labels[l]? = none) : ∃ b, a.run ds = .ok b := by
  induction ds generalizing a with
  | nil => exact ⟨a, rfl⟩
  | cons d ds ih =>
    cases d with
    | emit i => exact ih (a := a.emit i) hnodup hnew
    | branch i l => exact ih (a := a.branch i l) hnodup hnew
    | label l =>
      obtain ⟨hl, hnodup⟩ := List.nodup_cons.1 (show (l :: boundLabels ds).Nodup from hnodup)
      obtain ⟨hfree, hnew⟩ :=
        List.forall_mem_cons.1 (show ∀ l' ∈ l :: boundLabels ds, a.labels[l']? = none from hnew)
      have hrest : ∀ l' ∈ boundLabels ds, (a.bindLabel l).1.labels[l']? = none := by
        intro l' hl'
        have hne : l ≠ l' := by
          rintro rfl
          exact hl hl'
        simpa [bindLabel, Std.TreeMap.getElem?_insert, hne] using hnew l' hl'
      obtain ⟨b, hb⟩ := ih hnodup hrest
      refine ⟨b, ?_⟩
      rw [← hb]
      simp [run, step, bindLabel, hfree]

theorem exists_resolve {labels : Std.TreeMap String Nat} {references : List (Nat × String)}
    {code : Array Instruction} (hbound : ∀ r ∈ references, ∃ n, labels[r.2]? = some n) :
    ∃ out, resolve labels references code = .ok out := by
  induction references generalizing code with
  | nil => exact ⟨code, rfl⟩
  | cons r references ih =>
    obtain ⟨⟨n, hn⟩, hrest⟩ := List.forall_mem_cons.1 hbound
    simp only [resolve, hn]
    exact ih hrest

end Assembler

/-- **Closed directives** can be assembled when an instruction comes last. -/
theorem exists_assemble {ds : List Directive} {last : Instruction} (hds : Closed ds)
    (hlast : ds.getLast? = some (.emit last)) : ∃ code, assemble ds = .ok code := by
  obtain ⟨b, hrun⟩ : ∃ b, ({} : Assembler).run ds = .ok b :=
    Assembler.exists_run hds.nodup (by simp)
  obtain ⟨-, hreferences, -, haddress⟩ := Assembler.run_spec hrun
  -- every label of a branch has an address, before the last instruction
  have hbound : ∀ i l, .branch i l ∈ ds →
      ∃ n, b.labels[l]? = some n ∧ n < (ds.flatMap raw).length := by
    intro i l hi
    obtain ⟨pre, post, hsplit⟩ := List.append_of_mem (mem_boundLabels.1 (hds.bound i l hi))
    refine ⟨_, haddress pre l post hsplit, ?_⟩
    have hpost : .emit last ∈ post := by
      rw [hsplit, List.getLast?_append_cons] at hlast
      cases post with
      | nil => cases hlast
      | cons d post => exact List.mem_of_getLast? (by simpa using hlast)
    obtain ⟨post₁, post₂, rfl⟩ := List.append_of_mem hpost
    simp [hsplit, Assembler.position, raw]
  obtain ⟨out, hout⟩ : ∃ out, Assembler.resolve b.labels b.references.reverse b.emitted =
      .ok out := by
    refine Assembler.exists_resolve fun r hr => ?_
    rw [hreferences] at hr
    obtain ⟨i, hi⟩ := exists_branch_of_mem_labelled (by simpa using hr)
    obtain ⟨n, hn, -⟩ := hbound i r.2 hi
    exact ⟨n, hn⟩
  have hcode := Assembler.toList_of_resolve hrun hout
  have hvalid : Code.validate out.toList = .ok () := by
    refine Code.validate_of_targets fun i hi t ht => ?_
    rw [hcode] at hi ⊢
    rw [length_flatMap_resolved]
    obtain ⟨d, hd, hi⟩ := List.mem_flatMap.1 hi
    cases d with
    | label l => cases hi
    | emit j =>
      rw [List.mem_singleton.1 hi, hds.plain j hd] at ht
      cases ht
    | branch j l =>
      obtain ⟨n, hn, hlt⟩ := hbound j l hd
      rw [List.mem_singleton.1 hi, Instruction.targets_mapTargets] at ht
      obtain ⟨-, -, rfl⟩ := List.mem_map.1 ht
      simp only [hn, Option.getD_some, Nat.toUInt64_eq, UInt64.toNat_ofNat']
      exact Nat.lt_of_le_of_lt (Nat.mod_le _ _) hlt
  refine ⟨out.toList, ?_⟩
  simp only [assemble, hrun, Assembler.finish, hout, hvalid, bind, Except.bind, pure, Except.pure]

end Bytecode

namespace Weaving.Augmentation

/-! ## The bodies of members -/

open Directive

variable {h : Hierarchy} {c : ClassDef} {k : Classification} {f : FieldDef}

theorem exists_generated {name : String} {signature : Signature} {ds : List Directive}
    {last : Instruction} (hds : Closed ds) (hlast : ds.getLast? = some (.emit last)) :
    ∃ m, generated c name signature ds = .ok m := by
  obtain ⟨code, hcode⟩ := exists_assemble hds hlast
  simp only [generated, body, hcode, Except.mapError]
  exact ⟨_, rfl⟩

theorem exists_ensureLoaded (h : Hierarchy) (c : ClassDef) (f : FieldDef) :
    ∃ m, ensureLoaded h c f = .ok m := by
  have hlabels : boundLabels (ensureLoadedBody h c f) = ["done"] := rfl
  refine exists_generated ⟨?_, ?_, ?_⟩ rfl
  · simp [hlabels]
  · rw [hlabels]
    simp only [ensureLoadedBody, emitAll, List.mem_append, List.mem_cons, List.mem_map]
    grind
  · simp [ensureLoadedBody, emitAll, thisField, Instruction.targets, Instruction.loadThis,
      Instruction.string]

theorem exists_getter (c : ClassDef) (f : FieldDef) : ∃ m, getter c f = .ok m := by
  refine exists_generated (closed_emit ?_) rfl
  simp [thisField, ensureLoadedCall, Instruction.targets, Instruction.loadThis]

theorem exists_setter (c : ClassDef) (f : FieldDef) : ∃ m, setter c f = .ok m := by
  refine exists_generated (closed_emit ?_) rfl
  simp [ensureLoadedCall, Instruction.targets, Instruction.loadThis]

/-! ## Extraction -/

theorem exists_compareWithShadow (c : ClassDef) (f : FieldDef) :
    ∃ is i, compareWithShadow c f = emitAll is ++ [.branch i (unchangedLabel f)] ∧
      ∀ j ∈ is, j.targets = [] := by
  unfold compareWithShadow
  split <;> exact ⟨_, _, rfl, by simp [thisField, Instruction.targets, Instruction.loadThis]⟩

theorem boundLabels_updateField : boundLabels (updateField h c f) = [unchangedLabel f] := by
  obtain ⟨is, i, hcompare, -⟩ := exists_compareWithShadow c f
  simp [updateField, emitAll, hcompare]

theorem closed_updateField : Closed (updateField h c f) := by
  obtain ⟨is, i, hcompare, his⟩ := exists_compareWithShadow c f
  have hreport : ∀ j ∈ (if h.isLeaf f.type then [] else recurseInto h c f) ++ recordField h c f,
      j.targets = [] := by
    split <;> simp [recurseInto, recordField, thisField, Instruction.targets, Instruction.loadThis,
      Instruction.string]
  refine ⟨?_, ?_, ?_⟩
  · simp [boundLabels_updateField]
  · rw [boundLabels_updateField]
    simp [updateField, emitAll, hcompare]
  · intro j hj
    have hmem : j ∈ is ∨ j ∈ (if h.isLeaf f.type then [] else recurseInto h c f) ++
        recordField h c f := by
      simpa only [updateField, emitAll, hcompare, List.mem_append, List.mem_map, List.mem_singleton,
        Directive.emit.injEq, exists_eq_right, reduceCtorEq, or_false] using hj
    exact hmem.elim (his j) (hreport j)

theorem superclass_eq {s : String} (hs : c.superclass = some s) : superclass c = .ok s := by
  simp only [superclass, hs]

/-- Fields of different names have different labels, so that they can be reported one after the
other. -/
theorem exists_extractUpdates {s : String} (hs : c.superclass = some s)
    (hnames : ((k.ownEager ++ k.lazyFields).map (·.name)).Nodup) :
    ∃ m, extractUpdates h c k = .ok m := by
  have hlabels : ((k.ownEager ++ k.lazyFields).map unchangedLabel).Nodup := by
    have hinjective : Function.Injective ("unchanged_" ++ · : String → String) := by
      intro a b hab
      simpa using hab
    have hmap := hnames.map hinjective
    rwa [List.map_map] at hmap
  have hfields := closed_flatMap (fun f => closed_updateField (h := h) (c := c) (f := f))
    (fun _ => boundLabels_updateField) hlabels
  have hreturn : Closed ([Instruction.return none].map .emit) :=
    closed_emit (by simp [Instruction.targets])
  have hlast : (extractBody h c s (k.ownEager ++ k.lazyFields)).getLast? =
      some (.emit (.return none)) := by
    simp [extractBody]
  simp only [extractUpdates, superclass_eq hs]
  refine exists_generated (.append (.append (closed_emit ?_) hfields ?_) hreturn ?_) hlast
  · split <;> simp [Instruction.targets, Instruction.loadThis]
  · rw [emitAll, boundLabels_emit]
    exact List.disjoint_nil_left _
  · exact List.disjoint_nil_right _

/-! ## The deserializing constructor -/

variable {fs : List FieldDef} {slot last : UInt16} {slotted : List SlottedField} {e : WeaveError}

/-- The slots that the values of fields take. -/
def slotsOf (fs : List FieldDef) : Nat := (fs.map (·.type.size)).sum

/-- Fields can be given slots exactly if there are enough of them. -/
theorem exists_assignSlots_iff :
    (∃ r, assignSlots c slot fs = .ok r) ↔ slot.toNat + slotsOf fs < 0x10000 := by
  induction fs generalizing slot with
  | nil => simpa [assignSlots, slotsOf] using slot.toNat_lt
  | cons f fs ih =>
    have hslots : slotsOf (f :: fs) = f.type.size + slotsOf fs := by simp [slotsOf]
    rw [assignSlots, hslots]
    split
    · next hfits =>
      have hnext : (slot + f.type.size.toUInt16).toNat = slot.toNat + f.type.size := by
        rw [UInt16.toNat_add, Nat.toUInt16, UInt16.toNat_ofNat']
        omega
      have hrest := @ih (slot + f.type.size.toUInt16)
      rw [hnext] at hrest
      constructor
      · rintro ⟨r, hr⟩
        obtain ⟨r', hr', -⟩ := bind_eq_ok.1 hr
        have := hrest.1 ⟨r', hr'⟩
        omega
      · intro hlt
        obtain ⟨r', hr'⟩ := hrest.2 (by omega)
        exact ⟨_, bind_eq_ok.2 ⟨r', hr', rfl⟩⟩
    · next hfits =>
      constructor
      · rintro ⟨r, ⟨⟩⟩
      · intro hlt
        omega

theorem toNat_last (hr : assignSlots c slot fs = .ok (slotted, last)) :
    last.toNat = slot.toNat + slotsOf fs := by
  induction fs generalizing slot slotted with
  | nil =>
    cases hr
    rfl
  | cons f fs ih =>
    obtain ⟨rest, -, hslot, hrest⟩ := assignSlots_cons hr
    rw [ih hrest, hslot, slotsOf, slotsOf, List.map_cons, List.sum_cons, Nat.add_assoc]

theorem assignSlots_eq_error (he : assignSlots c slot fs = .error e) :
    e = .unresolvableType c.name .tooManyEagerFields := by
  induction fs generalizing slot with
  | nil => cases he
  | cons f fs ih =>
    rw [assignSlots] at he
    split at he
    · obtain he | ⟨r, -, he⟩ := bind_eq_error.1 he
      · exact ih he
      · cases he
    · exact (Except.error.inj he).symm

theorem allEager_eq (k : Classification) : k.allEager = k.inheritedEager ++ k.ownEager := by
  rcases List.eq_nil_or_concat k.eagerLevels with hnil | ⟨levels, level, hlevels⟩
  · simp [Classification.allEager, Classification.inheritedEager, Classification.ownEager, hnil]
  · simp [Classification.allEager, Classification.inheritedEager, Classification.ownEager, hlevels]

theorem exists_constructorBody (h : Hierarchy) (c : ClassDef) (s : String)
    (inherited own : List SlottedField) :
    ∃ code, body c constructorName (constructorBody h c s inherited own) = .ok code := by
  have hlast : (constructorBody h c s inherited own).getLast? = some (.emit (.return none)) := by
    simp only [constructorBody, emitAll, List.map_append, List.map_cons, List.map_nil,
      List.getLast?_concat]
  have hclosed : Closed (constructorBody h c s inherited own) := by
    refine closed_emit ?_
    simp only [List.forall_mem_append, List.forall_mem_map, List.forall_mem_flatMap,
      List.forall_mem_cons, initializeField]
    simp [Instruction.targets, Instruction.loadThis]
  obtain ⟨code, hcode⟩ := exists_assemble hclosed hlast
  refine ⟨code, ?_⟩
  rw [body, hcode]
  rfl

/-- The constructor can be made exactly if its parameters fit, behind the receiver and the
reference of the object. -/
theorem exists_constructor_iff {s : String} (hs : c.superclass = some s) :
    (∃ m, constructor h c k = .ok m) ↔ slotsOf k.allEager ≤ 65533 := by
  have hall : slotsOf k.allEager = slotsOf k.inheritedEager + slotsOf k.ownEager := by
    simp [slotsOf, allEager_eq]
  rw [hall]
  constructor
  · rintro ⟨m, hm⟩
    obtain ⟨-, -, s, inherited, own, slot, last, code, -, hinherited, hown, -, -⟩ :=
      constructor_eq_ok hm
    have hfits := exists_assignSlots_iff.1 ⟨_, hown⟩
    rw [toNat_last hinherited] at hfits
    have htwo : (2 : UInt16).toNat = 2 := rfl
    omega
  · intro hle
    have htwo : (2 : UInt16).toNat = 2 := rfl
    obtain ⟨⟨inherited, slot⟩, hinherited⟩ : ∃ r, assignSlots c 2 k.inheritedEager = .ok r :=
      exists_assignSlots_iff.2 (by omega)
    obtain ⟨⟨own, last⟩, hown⟩ : ∃ r, assignSlots c slot k.ownEager = .ok r :=
      exists_assignSlots_iff.2 (by rw [toNat_last hinherited]; omega)
    obtain ⟨code, hcode⟩ := exists_constructorBody h c s inherited own
    simp only [constructor, superclass_eq hs, hinherited, hown, hcode, bind, Except.bind]
    exact ⟨_, rfl⟩

theorem constructor_eq_error {s : String} (hs : c.superclass = some s)
    (he : constructor h c k = .error e) : e = .unresolvableType c.name .tooManyEagerFields := by
  obtain he | ⟨s', -, he⟩ := bind_eq_error.1 he
  · rw [superclass_eq hs] at he
    cases he
  obtain he | ⟨⟨inherited, slot⟩, -, he⟩ := bind_eq_error.1 he
  · exact assignSlots_eq_error he
  obtain he | ⟨⟨own, last⟩, -, he⟩ := bind_eq_error.1 he
  · exact assignSlots_eq_error he
  obtain ⟨code, hcode⟩ := exists_constructorBody h c s' inherited own
  obtain he | ⟨code, -, he⟩ := bind_eq_error.1 he
  · rw [hcode] at he
    cases he
  · cases he

end Weaving.Augmentation

end StorageWeave
