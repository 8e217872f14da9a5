import StorageWeave.Proofs.Updates

/-!
# Deserialization

The generated constructor takes the reference of an object and the values of the eager fields of all
levels. It hands those of the levels above to the constructor of the superclass and writes its own
into the fields and their shadows. `PersistentLineage.gives_constructor` says that together the
constructors of all levels do what `State.restore` does.
-/

namespace StorageWeave

open Bytecode Weaving

namespace Machine

/-! ## Restored objects -/

namespace State

/-- Writes values into fields of the object at a place and into the shadows of the fields. -/
def restore (s : State) (o : Nat) : List (FieldDef × Value) → State
  | [] => s
  | (f, v) :: rest => ((s.write o f.name v).write o (Names.shadow f.name) v).restore o rest

/-- The platform part of a persisted object. -/
def identify (s : State) (o : Nat) (reference : Value) : State :=
  (s.write o Names.storageReference reference).write o Names.inStorage (.int 1)

variable {s : State} {o : Nat} {fields : List (FieldDef × Value)}

theorem restore_append (fields₁ fields₂ : List (FieldDef × Value)) :
    s.restore o (fields₁ ++ fields₂) = (s.restore o fields₁).restore o fields₂ := by
  induction fields₁ generalizing s with
  | nil => rfl
  | cons f fields₁ ih => exact ih

@[simp] theorem size_restore : (s.restore o fields).heap.size = s.heap.size := by
  induction fields generalizing s with
  | nil => rfl
  | cons f fields ih => rw [restore, ih, size_write, size_write]

@[simp] theorem className?_restore (id : Nat) :
    (s.restore o fields).className? id = s.className? id := by
  induction fields generalizing s with
  | nil => rfl
  | cons f fields ih => rw [restore, ih, className?_write, className?_write]

@[simp] theorem records_restore : (s.restore o fields).persisted = s.persisted ∧
    (s.restore o fields).fetches = s.fetches ∧ (s.restore o fields).updates = s.updates ∧
      (s.restore o fields).extracted = s.extracted ∧ (s.restore o fields).entries = s.entries := by
  induction fields generalizing s with
  | nil => exact ⟨rfl, rfl, rfl, rfl, rfl⟩
  | cons f fields ih => exact ih

/-- Only the restored fields and their shadows are written. -/
theorem field?_restore_of_ne (ho : o < s.heap.size) {id : Nat} {n : String}
    (hn : id = o → ∀ g ∈ fields, g.1.name ≠ n ∧ Names.shadow g.1.name ≠ n) :
    (s.restore o fields).field? (.object id) n = s.field? (.object id) n := by
  induction fields generalizing s with
  | nil => rfl
  | cons g fields ih =>
    have hg (hid : o = id) := hn hid.symm g List.mem_cons_self
    rw [restore, ih (by simpa using ho) fun hid g' hg' => hn hid g' (List.mem_cons_of_mem g hg'),
      field?_write _ (by simpa using ho), if_neg fun hs => (hg hs.1).2 hs.2, field?_write _ ho,
      if_neg fun hs => (hg hs.1).1 hs.2]

/-- A restored field and its shadow hold the value. -/
theorem field?_restore (ho : o < s.heap.size) (hnames : (fields.map (·.1.name)).Nodup)
    (hordinary : ∀ g ∈ fields, Names.isSynthetic g.1.name = false) {g : FieldDef × Value}
    (hg : g ∈ fields) : (s.restore o fields).field? (.object o) g.1.name = some g.2 ∧
      (s.restore o fields).field? (.object o) (Names.shadow g.1.name) = some g.2 := by
  induction fields generalizing s with
  | nil => cases hg
  | cons g' fields ih =>
    obtain ⟨hnew, hnames⟩ := List.nodup_cons.1 hnames
    rcases List.mem_cons.1 hg with rfl | hg
    · have hg := hordinary g List.mem_cons_self
      have hother : ∀ g' ∈ fields, g'.1.name ≠ g.1.name := fun g' hg' he =>
        hnew (List.mem_map.2 ⟨g', hg', he⟩)
      have hsize :
          o < ((s.write o g.1.name g.2).write o (Names.shadow g.1.name) g.2).heap.size := by
        simpa using ho
      refine ⟨?_, ?_⟩
      · rw [restore, field?_restore_of_ne hsize fun _ g' hg' => ⟨hother g' hg', shadow_ne hg _⟩,
          field?_write _ (by simpa using ho), if_neg fun hs => shadow_ne hg _ hs.2,
          field?_write_self _ ho]
      · rw [restore, field?_restore_of_ne hsize fun _ g' hg' => ⟨fun he => ?_, fun he =>
          hother g' hg' (Names.shadow_injective he)⟩, field?_write_self _ (by simpa using ho)]
        exact shadow_ne (hordinary g' (List.mem_cons_of_mem g hg')) _ he.symm
    · exact ih (by simpa using ho) hnames (fun g hg => hordinary g (List.mem_cons_of_mem g' hg)) hg

end State

/--
From `s` to `s'` the object at `o` gets a reference and the values of some fields, which are taken
for the persisted ones, and nothing else happens.
-/
structure Restored (o : Nat) (reference : Value) (fields : List (FieldDef × Value)) (s s' : State) :
    Prop where
  storageReference : s'.field? (.object o) Names.storageReference = some reference
  inStorage : s'.field? (.object o) Names.inStorage = some (.int 1)
  restored : ∀ g ∈ fields, s'.field? (.object o) g.1.name = some g.2 ∧
    s'.field? (.object o) (Names.shadow g.1.name) = some g.2
  /-- No other field of any object is written. -/
  others : ∀ id n, (id = o → Names.isPlatformField n = false ∧
      ∀ g ∈ fields, g.1.name ≠ n ∧ Names.shadow g.1.name ≠ n) →
    s'.field? (.object id) n = s.field? (.object id) n
  classes : ∀ id, s'.className? id = s.className? id
  persisted : s'.persisted = s.persisted
  fetches : s'.fetches = s.fetches
  updates : s'.updates = s.updates
  extracted : s'.extracted = s.extracted
  entries : s'.entries = s.entries

theorem restored_restore {s : State} {o : Nat} {reference : Value}
    {fields : List (FieldDef × Value)} (ho : o < s.heap.size)
    (hnames : (fields.map (·.1.name)).Nodup)
    (hordinary : ∀ g ∈ fields, Names.isSynthetic g.1.name = false ∧
      Names.isPlatformField g.1.name = false) :
    Restored o reference fields s ((s.identify o reference).restore o fields) := by
  have hsize : o < (s.identify o reference).heap.size := by simpa [State.identify] using ho
  have hplatform {n : String} (hn : Names.isPlatformField n = true)
      (hmarked : Names.isSynthetic n = false) :
      ((s.identify o reference).restore o fields).field? (.object o) n =
        (s.identify o reference).field? (.object o) n := by
    refine State.field?_restore_of_ne hsize fun _ g hg => ⟨?_, State.shadow_ne hmarked _⟩
    rintro rfl
    rw [(hordinary g hg).2] at hn
    cases hn
  have hidentify (id : Nat) (n : String) : (s.identify o reference).field? (.object id) n =
      if o = id ∧ Names.inStorage = n then some (.int 1)
      else if o = id ∧ Names.storageReference = n then some reference
      else s.field? (.object id) n := by
    rw [State.identify, State.field?_write _ (by simpa using ho), State.field?_write _ ho]
  refine ⟨?_, ?_, ?_, ?_, ?_, ?_, ?_, ?_, ?_, ?_⟩
  · rw [hplatform (by decide) (by decide), hidentify, if_neg (by simp; decide), if_pos ⟨rfl, rfl⟩]
  · rw [hplatform (by decide) (by decide), hidentify, if_pos ⟨rfl, rfl⟩]
  · exact fun g hg => State.field?_restore hsize hnames (fun g hg => (hordinary g hg).1) hg
  · intro id n hn
    rw [State.field?_restore_of_ne hsize fun hid => (hn hid).2, hidentify]
    have hother (hid : o = id) : ¬(n = Names.inStorage ∨ n = Names.storageReference) := by
      have := (hn hid.symm).1
      simpa [Names.isPlatformField] using this
    rw [if_neg fun hs => hother hs.1 (.inl hs.2.symm),
      if_neg fun hs => hother hs.1 (.inr hs.2.symm)]
  · intro id
    simp [State.identify]
  all_goals simp [State.identify]

/-! ## Parameters and their slots -/

/-- The values stand in the local slots from one on. -/
def Holds (locals : Locals) (slot : Nat) (values : List Value) : Prop :=
  ∀ pre v post, values = pre ++ v :: post → locals[(slot + slotCount pre).toUInt16]? = some v

namespace Holds

variable {locals : Locals} {slot : Nat} {v : Value} {values values₁ values₂ : List Value}

theorem head (h : Holds locals slot (v :: values)) : locals[slot.toUInt16]? = some v :=
  h [] v values rfl

theorem right (h : Holds locals slot (values₁ ++ values₂)) :
    Holds locals (slot + slotCount values₁) values₂ := by
  rintro pre v post rfl
  rw [Nat.add_assoc, ← slotCount_append]
  exact h (values₁ ++ pre) v post (List.append_assoc ..).symm

theorem left (h : Holds locals slot (values₁ ++ values₂)) : Holds locals slot values₁ := by
  rintro pre v post rfl
  exact h pre v (post ++ values₂) (by simp)

theorem tail (h : Holds locals slot (v :: values)) : Holds locals (slot + v.size) values := by
  simpa using right (show Holds locals slot ([v] ++ values) from h)

end Holds

/-- Arguments that fit stand in the slots from zero on. -/
theorem exists_holds {args : List Value} (h : slotCount args < slotBound) :
    ∃ locals, layOut 0 {} args = .ok locals ∧ Holds locals 0 args := by
  obtain ⟨locals, hlay, hargs, -⟩ := exists_layOut args 0 {} (by omega)
  exact ⟨locals, hlay, hargs⟩

/-- The values have the sizes of their fields. -/
def SizesMatch (fields : List (FieldDef × Value)) : Prop := ∀ g ∈ fields, g.2.size = g.1.type.size

end Machine

open Machine

namespace Weaving.Augmentation

variable {c : ClassDef} {slot last : UInt16} {fields : List (FieldDef × Value)}
  {slotted : List SlottedField}

/-- The slot after the last parameter. -/
theorem toNat_of_assignSlots (hsizes : SizesMatch fields)
    (h : assignSlots c slot (fields.map (·.1)) = .ok (slotted, last)) :
    last.toNat = slot.toNat + slotCount (fields.map (·.2)) := by
  induction fields generalizing slot slotted with
  | nil =>
    cases h
    rfl
  | cons g fields ih =>
    obtain ⟨rest, -, hslot, hrest⟩ := assignSlots_cons h
    rw [ih (fun g' hg' => hsizes g' (List.mem_cons_of_mem g hg')) hrest, hslot, List.map_cons,
      slotCount_cons, hsizes g List.mem_cons_self, Nat.add_assoc]

/-- A field whose parameter is in its slot. -/
def Slotted (locals : Locals) (f : SlottedField) (g : FieldDef × Value) : Prop :=
  f.field = g.1 ∧ locals[f.slot]? = some g.2

/-- The parameters of fields are in the slots that the fields are given. -/
theorem slotted_of_assignSlots {locals : Locals} (hsizes : SizesMatch fields)
    (h : assignSlots c slot (fields.map (·.1)) = .ok (slotted, last))
    (hlocals : Holds locals slot.toNat (fields.map (·.2))) :
    List.Forall₂ (Slotted locals) slotted fields := by
  induction fields generalizing slot slotted with
  | nil =>
    cases h
    exact .nil
  | cons g fields ih =>
    obtain ⟨rest, rfl, hslot, hrest⟩ := assignSlots_cons h
    refine .cons ⟨rfl, ?_⟩ (ih (fun g' hg' => hsizes g' (List.mem_cons_of_mem g hg')) hrest ?_)
    · have := hlocals.head
      rwa [Nat.toUInt16, UInt16.ofNat_toNat] at this
    · rw [hslot, ← hsizes g List.mem_cons_self]
      exact hlocals.tail

/-! ## The blocks of the constructor -/

variable {locals : Locals} {n o : Nat} {s : State} {stack : List Value}

theorem exec?_loads (hslotted : List.Forall₂ (Slotted locals) slotted fields) :
    Point.exec? (slotted.map fun f => .load f.field.type.valueKind f.slot) ⟨n, stack, locals, s⟩ =
      some ⟨n + slotted.length, (fields.map (·.2)).reverse ++ stack, locals, s⟩ := by
  induction hslotted generalizing n stack with
  | nil => rfl
  | @cons f g slotted fields hf _ ih =>
    have hload : Point.exec? [.load f.field.type.valueKind f.slot] ⟨n, stack, locals, s⟩ =
        some ⟨n + 1, g.2 :: stack, locals, s⟩ := by
      simp only [Point.exec?, Point.frame, Frame.execute.eq_def, hf.2, Frame.advance, if_true]
    rw [List.map_cons, ← List.singleton_append, Point.exec?_append, hload, Option.bind_some, ih]
    simp [Nat.add_assoc, Nat.add_comm 1]

theorem exec?_initializeField {f : SlottedField} {g : FieldDef × Value} (hf : Slotted locals f g)
    (hthis : locals[(0 : UInt16)]? = some (.object o)) (ho : o < s.heap.size) :
    Point.exec? (initializeField c f) ⟨n, stack, locals, s⟩ =
      some ⟨n + 6, stack, locals, s.restore o [g]⟩ := by
  rw [initializeField, List.flatMap_cons, List.flatMap_singleton, Point.exec?_append,
    Point.exec?_writeThis _ _ _ _ hthis ho hf.2, Option.bind_some,
    Point.exec?_writeThis _ _ _ _ hthis (by simpa using ho) hf.2, hf.1]
  rfl

theorem exec?_initializeFields (hslotted : List.Forall₂ (Slotted locals) slotted fields)
    (hthis : locals[(0 : UInt16)]? = some (.object o)) (ho : o < s.heap.size) :
    Point.exec? (slotted.flatMap (initializeField c)) ⟨n, stack, locals, s⟩ =
      some ⟨n + 6 * slotted.length, stack, locals, s.restore o fields⟩ := by
  induction hslotted generalizing n s with
  | nil => rfl
  | @cons f g slotted fields hf _ ih =>
    rw [List.flatMap_cons, Point.exec?_append, exec?_initializeField hf hthis ho, Option.bind_some,
      ih (by simpa using ho), ← State.restore_append, List.length_cons, Nat.mul_add, Nat.add_assoc,
      Nat.add_comm 6, List.singleton_append]

theorem length_initializeFields (c : ClassDef) (slotted : List SlottedField) :
    (slotted.flatMap (initializeField c)).length = 6 * slotted.length := by
  induction slotted with
  | nil => rfl
  | cons f slotted ih =>
    rw [List.flatMap_cons, List.length_append, ih, List.length_cons, Nat.mul_add, Nat.add_comm]
    rfl

end Weaving.Augmentation

/-! ## All levels -/

/-- The constructor of a platform root gives the object its reference. -/
theorem WovenProgram.gives_constructRoot {h : Hierarchy} {classes : List ClassDef} {p : Program}
    {s : State} {o : Nat} (hp : WovenProgram h classes p) {root : String} {signature : Signature}
    (hroot : h.config.isPlatformRoot root = true) (ho : o < s.heap.size) (reference : Value) :
    p.Gives ⟨.special, root, constructorName, signature, [.object o, reference]⟩ s
      ⟨.ok none, s.identify o reference⟩ := by
  have hcallee : p.callee ⟨.special, root, constructorName, signature, [.object o, reference]⟩ s =
      .ok (.hook root) := by
    rw [Program.callee_special, Program.resolve, Program.resolveFrom,
      hp.platform root (Config.mem_platformTypes hroot)]
  refine Program.gives_hook hcallee ?_
  rw [hp.hierarchyConfig] at hroot
  rw [hp.config, runHook, if_pos ⟨rfl, hroot⟩]
  have hconstruct : (constructRoot [.object o, reference]).run s =
      (.ok (), s.identify o reference) :=
    (run_bind (run_setField_object ho _ _)).trans
      (run_setField_object (by simpa using ho) _ _)
  exact run_bind hconstruct

namespace PersistentLineage

variable {h : Hierarchy} {classes levels : List ClassDef} {c : ClassDef} {p : Program} {s : State}
  {o : Nat}

/-- The constructor of the class itself, which hands the eager fields of the levels above on. -/
theorem exists_constructorCode (hp : WovenProgram h classes p)
    (hl : PersistentLineage h classes levels c) {s : String} (hs : c.superclass = some s) :
    ∃ inherited own slot last code,
      p.resolve c.name constructorName
          ⟨Augmentation.constructorParams h (levels.flatMap h.eagerFields), none⟩ =
        .ok (.code code) ∧ code.length ≤ Frame.stepLimit ∧
      Augmentation.assignSlots c 2 (levels.dropLast.flatMap h.eagerFields) =
        .ok (inherited, slot) ∧
      Augmentation.assignSlots c slot (h.eagerFields c) = .ok (own, last) ∧
      code = [.loadThis, .load .reference 1] ++
        (inherited.map (fun f => .load f.field.type.valueKind f.slot) ++
          (.invoke .special s constructorName
              ⟨Augmentation.constructorParams h (inherited.map (·.field)), none⟩ ::
            (own.flatMap (Augmentation.initializeField c) ++ [.return none]))) := by
  have hmem := hl.lineage.mem_levels
  obtain ⟨k, c', hk, hc', -, ⟨m, hm, hfound⟩, -⟩ := hp.exists_members hl.lineage.mem_classes
    (hl.storage c hmem) (hl.concrete c hmem)
  obtain ⟨hname, hsignature, s', inherited, own, slot, last, code, hs', hinherited, hown, hassemble,
    hcode⟩ := Augmentation.constructor_eq_ok hm
  obtain rfl : s = s' := Option.some.inj (hs.symm.trans hs')
  obtain ⟨hlevels, -⟩ := hl.lineage.eagerLevels_eq hp.index hk
  have hlast : k.ownEager = h.eagerFields c := by
    rw [Classification.ownEager, hlevels]
    cases hl.lineage <;> simp
  rw [hlast] at hown
  rw [Classification.inheritedEager, hlevels, ← List.map_dropLast, ← List.flatMap_def] at hinherited
  rw [Classification.allEager, hlevels, ← List.flatMap_def] at hsignature
  refine ⟨inherited, own, slot, last, code, Program.resolve_code hc' ?_,
    length_le_of_codeFits (codeFits_of_bodiesFit (hl.fits c hmem) hk).1 hm hcode, hinherited, hown,
    ?_⟩
  · rw [hname, hsignature] at hfound
    rw [Program.codeOf?, hfound, Option.bind_some, hcode]
  · obtain ⟨address, hcode, -⟩ := assemble_spec hassemble
    rw [hcode, Augmentation.constructorBody, Augmentation.emitAll, Directive.flatMap_resolved_emit]
    simp

/-- One level: the constructor of the class after that of its superclass. -/
theorem gives_constructor_level (hp : WovenProgram h classes p)
    (hl : PersistentLineage h classes levels c) {superclass : String}
    (hs : c.superclass = some superclass) {s s' : State} {reference : Value}
    (hreference : reference.size = 1) {above own : List (FieldDef × Value)}
    (habove : above.map (·.1) = levels.dropLast.flatMap h.eagerFields)
    (hown : own.map (·.1) = h.eagerFields c) (hsizes : SizesMatch (above ++ own))
    (hsuper : p.Gives ⟨.special, superclass, constructorName,
      ⟨Augmentation.constructorParams h (levels.dropLast.flatMap h.eagerFields), none⟩,
      .object o :: reference :: above.map (·.2)⟩ s ⟨.ok none, s'⟩) (ho : o < s'.heap.size)
    {call : Call} (hcall : p.callee call s = p.resolve c.name constructorName
      ⟨Augmentation.constructorParams h (levels.flatMap h.eagerFields), none⟩)
    (hargs : call.args = .object o :: reference :: (above ++ own).map (·.2)) :
    p.Gives call s ⟨.ok none, s'.restore o own⟩ := by
  obtain ⟨inherited, initialized, slot, last, code, hresolve, hfit, hinherited, hinitialized,
    hcode⟩ := hl.exists_constructorCode hp hs
  rw [← habove] at hinherited
  rw [← hown] at hinitialized
  have hsizesAbove : SizesMatch above := fun g hg => hsizes g (List.mem_append_left _ hg)
  have hsizesOwn : SizesMatch own := fun g hg => hsizes g (List.mem_append_right _ hg)
  have hslot := Augmentation.toNat_of_assignSlots hsizesAbove hinherited
  have hlast := Augmentation.toNat_of_assignSlots hsizesOwn hinitialized
  have hbound : slotCount (.object o :: reference :: (above ++ own).map (·.2)) < slotBound := by
    have hsize : (Value.object o).size = 1 := rfl
    have := last.toNat_lt
    rw [slotCount_cons, slotCount_cons, List.map_append, slotCount_append, hreference, slotBound,
      hsize]
    simp only [hslot, UInt16.reduceToNat] at hlast
    omega
  obtain ⟨locals, hlay, hholds⟩ := exists_holds hbound
  have hthis : locals[(0 : UInt16)]? = some (.object o) := hholds.head
  have hfirst : locals[(1 : UInt16)]? = some reference := hholds.tail.head
  have hrest := hholds.tail.tail
  rw [List.map_append, hreference] at hrest
  have hloaded : List.Forall₂ (Augmentation.Slotted locals) inherited above :=
    Augmentation.slotted_of_assignSlots hsizesAbove hinherited hrest.left
  have hwritten : List.Forall₂ (Augmentation.Slotted locals) initialized own :=
    Augmentation.slotted_of_assignSlots hsizesOwn hinitialized (by rw [hslot]; exact hrest.right)
  have hsame : inherited.map (·.field) = levels.dropLast.flatMap h.eagerFields := by
    rw [← habove]
    exact List.forall₂_eq_eq_eq ▸ (List.forall₂_map_left_iff.2 (List.forall₂_map_right_iff.2
      (hloaded.imp fun _ _ hg => hg.1)))
  rw [hsame] at hcode
  have hplaced : Placed code 0 code := ⟨[], by simp⟩
  nth_rewrite 2 [hcode] at hplaced
  have hloads : Point.exec? [.loadThis, .load .reference 1] ⟨0, [], locals, s⟩ =
      some ⟨2, [reference, .object o], locals, s⟩ := by
    simp only [Instruction.loadThis, Point.exec?, Point.frame, Frame.execute.eq_def, hthis, hfirst,
      Frame.advance, if_true]
  refine Program.gives_code (hcall.trans hresolve) (by rw [hargs]; exact hlay) ?_
  refine (Program.flows_block hfit hplaced.left hloads).completes ?_
  refine (Program.flows_block hfit hplaced.right.left
    (Augmentation.exec?_loads hloaded)).completes ?_
  have hinvoke := hplaced.right.right
  rw [List.length_map] at hinvoke
  have hstack : (above.map (·.2)).reverse ++ [reference, .object o] =
      (Value.object o :: reference :: above.map (·.2)).reverse ++ [] := by simp
  rw [hstack]
  have hcount : (Value.object o :: reference :: above.map (·.2)).length =
      Program.operandCount .special
        ⟨Augmentation.constructorParams h (levels.dropLast.flatMap h.eagerFields), none⟩ := by
    rw [← habove]
    simp [Program.operandCount, Augmentation.constructorParams, InvokeKind.hasReceiver]
  refine (Program.flows_invoke _ _ hfit hinvoke.head hcount hsuper).completes ?_
  refine (Program.flows_block hfit hinvoke.tail.left
    (Augmentation.exec?_initializeFields hwritten hthis ho)).completes ?_
  refine Program.completes_done hfit (i := .return none) ?_ rfl
  have hreturn := hinvoke.tail.right.head
  rwa [Augmentation.length_initializeFields] at hreturn

/-- **The generated constructors restore** the eager fields of all levels. -/
theorem gives_constructor (hp : WovenProgram h classes p)
    (hl : PersistentLineage h classes levels c) (ho : o < s.heap.size) {reference : Value}
    (hreference : reference.size = 1)
    {fields : List (FieldDef × Value)} (hfields : fields.map (·.1) = levels.flatMap h.eagerFields)
    (hsizes : SizesMatch fields) {call : Call}
    (hcall : p.callee call s = p.resolve c.name constructorName
      ⟨Augmentation.constructorParams h (levels.flatMap h.eagerFields), none⟩)
    (hargs : call.args = .object o :: reference :: fields.map (·.2)) :
    p.Gives call s ⟨.ok none, (s.identify o reference).restore o fields⟩ := by
  have hsize : o < (s.identify o reference).heap.size := by simpa [State.identify] using ho
  have hlineage := hl.lineage
  induction hlineage generalizing call fields with
  | @top c root hc hs hroot =>
    rw [List.flatMap_singleton] at hfields
    have habove : ([] : List (FieldDef × Value)).map (·.1) = [].flatMap h.eagerFields := rfl
    exact gives_constructor_level hp hl hs hreference habove hfields hsizes
      (hp.gives_constructRoot hroot ho reference) hsize hcall hargs
  | @child levels d c hd hc hs hroot ih =>
    rw [List.flatMap_append, List.flatMap_singleton, List.map_eq_append_iff] at hfields
    obtain ⟨above, own, rfl, habove, hown⟩ := hfields
    have hsuper : p.Gives ⟨.special, d.name, constructorName,
        ⟨Augmentation.constructorParams h (levels.flatMap h.eagerFields), none⟩,
        .object o :: reference :: above.map (·.2)⟩ s _ :=
      ih (hl.parent hd) habove (fun g hg => hsizes g (List.mem_append_left _ hg)) rfl rfl
    rw [State.restore_append]
    exact gives_constructor_level hp hl hs hreference (by rw [List.dropLast_concat]; exact habove)
      hown hsizes (by rw [List.dropLast_concat]; exact hsuper) (by simpa using hsize) hcall hargs

end PersistentLineage

/-! ## Constructing an object -/

theorem Machine.sizesMatch_zip {fs : List FieldDef} {values : List Value}
    (h : values.map Value.size = fs.map (·.type.size)) : SizesMatch (fs.zip values) := by
  induction fs generalizing values with
  | nil => exact fun g hg => absurd hg (by simp)
  | cons f fs ih =>
    rcases values with _ | ⟨v, values⟩
    · cases h
    · rw [List.map_cons, List.map_cons, List.cons.injEq] at h
      exact List.forall_mem_cons.2 ⟨h.1, ih h.2⟩

theorem Machine.Value.hasKind_ofType (t : FieldType) :
    (Value.ofType t).hasKind t.valueKind = true := by
  rw [Value.ofType]
  cases t.valueKind <;> rfl

/-- Whether a value in a field equals itself as the field is compared: a NaN does so only where
it is compared by its bits. -/
def Machine.Value.isStable (t : FieldType) (v : Value) : Bool := v.equals v || v.hasKind t.valueKind

theorem Machine.comparison_self {t : FieldType} {v : Value} (hv : v.hasKind t.valueKind = true) :
    comparison t v v = .ok false := by
  rw [comparison_eq_ok (Value.comparable_of_hasKind hv) (Value.comparable_of_hasKind hv),
    Value.differs_self hv]

/-- A stable value is never found to differ from itself. -/
theorem Machine.comparison_self_ne {t : FieldType} {v : Value} (hv : v.isStable t = true) :
    comparison t v v ≠ .ok true := by
  cases hkind : v.hasKind t.valueKind with
  | true =>
    rw [comparison_self hkind]
    rintro ⟨⟩
  | false =>
    -- Values of other kinds cannot be compared, or are compared as numbers.
    have hequals : v.equals v = true := by simpa [Value.isStable, hkind] using hv
    rcases t with kind | className
    · cases kind with
      | boolean | byte | char | short | int | float | double =>
        cases v <;> cases hkind <;> rintro ⟨⟩
      | long =>
        cases v with
        | float x | double x =>
          have hcompare : x.compare? x = some .eq := eq_of_beq hequals
          simp only [comparison, compareValues, hcompare]
          rintro ⟨⟩
        | null | int _ | str _ | object _ => rintro ⟨⟩
        | long _ => cases hkind
    · rw [comparison, hequals]
      rintro ⟨⟩

theorem Weaving.Names.isPlatformField_of_isSynthetic {n : String}
    (hn : Names.isSynthetic n = true) : Names.isPlatformField n = false := by
  rw [Names.isPlatformField, decide_eq_false_iff_not]
  rintro (rfl | rfl) <;> exact absurd hn (by decide)

/-- A new object has no fields. -/
theorem Machine.State.field?_new (s : State) (className n : String) :
    (s.allocate className).2.field? (.object s.heap.size) n = none := by
  rw [field?_allocate, field?, Array.getElem?_eq_none (Nat.le_refl _), Option.bind_none]

namespace WovenLineage

variable {input : Archive} {dependencies : List Archive} {w : WovenArchive}
  {built : ClassIndex.Building} {levels : List ClassDef} {c : ClassDef} {s s' : State} {o : Nat}
  {reference : Value} {fields : List (FieldDef × Value)} {r : ResolvedField}

theorem exists_persistent (hfields : fields.map (·.1) = levels.flatMap built.hierarchy.eagerFields)
    {g : FieldDef × Value} (hg : g ∈ fields) :
    built.hierarchy.isLazy g.1.type = false ∧
      ∃ q ∈ built.hierarchy.persistentFields levels, q.field = g.1 := by
  have hmem : g.1 ∈ levels.flatMap built.hierarchy.eagerFields :=
    hfields ▸ List.mem_map_of_mem hg
  obtain ⟨d, hd, hf⟩ := List.mem_flatMap.1 hmem
  obtain ⟨hdeclared, hpersistent, hlazy⟩ := Hierarchy.mem_eagerFields.1 hf
  exact ⟨hlazy, ⟨d.name, g.1⟩,
    Hierarchy.mem_persistentFields.2 ⟨d, hd, rfl, hdeclared, hpersistent⟩, rfl⟩

/-- The parts of a lazy field are not touched by a deserialization. -/
theorem field?_lazy (hl : WovenLineage input dependencies w built levels c)
    (hfields : fields.map (·.1) = levels.flatMap built.hierarchy.eagerFields)
    (hrestored : Restored o reference fields s s')
    (hr : r ∈ built.hierarchy.persistentFields levels)
    (hlazy : built.hierarchy.isLazy r.field.type = true) {n : String}
    (hn : n ∈ [r.field.name, Names.shadow r.field.name, Names.loadedFlag r.field.name]) :
    s'.field? (.object o) n = s.field? (.object o) n := by
  obtain ⟨hmarked, hplatform⟩ := hl.ordinary_of_mem hr
  have hne {g : FieldDef × Value} (hg : g ∈ fields) : g.1.name ≠ r.field.name := by
    intro he
    obtain ⟨heager, q, hq, hqg⟩ := exists_persistent hfields hg
    obtain rfl : q = r := List.inj_on_of_nodup_map
      (Hierarchy.nodup_persistentFields hl.distinctFields) hq hr (by rw [hqg, he])
    rw [hqg, heager] at hlazy
    cases hlazy
  have hunmarked {g : FieldDef × Value} (hg : g ∈ fields) : Names.isSynthetic g.1.name = false := by
    obtain ⟨-, q, hq, hqg⟩ := exists_persistent hfields hg
    exact hqg ▸ (hl.ordinary_of_mem hq).1
  have hsynthetic {n : String} (hn : Names.isSynthetic n = true) {g : FieldDef × Value}
      (hg : g ∈ fields) : g.1.name ≠ n := by
    rintro rfl
    rw [hunmarked hg] at hn
    cases hn
  refine hrestored.others o n fun _ => ?_
  simp only [List.mem_cons, List.not_mem_nil, or_false] at hn
  rcases hn with rfl | rfl | rfl
  · exact ⟨hplatform, fun g hg => ⟨hne hg, State.shadow_ne hmarked _⟩⟩
  · exact ⟨Names.isPlatformField_of_isSynthetic (Names.isSynthetic_shadow _), fun g hg =>
      ⟨hsynthetic (Names.isSynthetic_shadow _) hg, fun he => hne hg (Names.shadow_injective he)⟩⟩
  · exact ⟨Names.isPlatformField_of_isSynthetic (Names.isSynthetic_loadedFlag _), fun g hg =>
      ⟨hsynthetic (Names.isSynthetic_loadedFlag _) hg, Names.shadow_ne_loadedFlag _ _⟩⟩

theorem allEager_eq (hl : WovenLineage input dependencies w built levels c) {k : Classification}
    (hk : built.hierarchy.classify c = .ok k) :
    k.allEager = levels.flatMap built.hierarchy.eagerFields := by
  obtain ⟨hlevels, -⟩ := Lineage.eagerLevels_eq hl.wovenProgram.index hl.lineage hk
  rw [Classification.allEager, hlevels, List.flatMap_def]

/-- Constructing an object from its reference and the values of its eager fields restores it. -/
theorem exists_construct (hl : WovenLineage input dependencies w built levels c)
    (hconcrete : ∀ d ∈ levels, d.isInterface = false) {k : Classification}
    (hk : built.hierarchy.classify c = .ok k) (s : State) (hreference : reference.size = 1)
    {values : List Value} (hsizes : values.map Value.size = k.allEager.map (·.type.size)) :
    (k.allEager.zip values).map (·.1) = levels.flatMap built.hierarchy.eagerFields ∧
      ∃ fuel s', w.program.construct fuel c.name
          ⟨Augmentation.constructorParams built.hierarchy k.allEager, none⟩
          (reference :: values) s =
            some ⟨.ok (.object s.heap.size), s'⟩ ∧
        Restored s.heap.size reference (k.allEager.zip values) (s.allocate c.name).2 s' := by
  have hall := hl.allEager_eq hk
  have hlength : k.allEager.length = values.length := by
    simpa using (congrArg List.length hsizes).symm
  have hfields : (k.allEager.zip values).map (·.1) =
      levels.flatMap built.hierarchy.eagerFields := by
    rw [← hall]
    exact List.map_fst_zip (Nat.le_of_eq hlength)
  have hvalues : (k.allEager.zip values).map (·.2) = values :=
    List.map_snd_zip (Nat.le_of_eq hlength.symm)
  have hnew : s.heap.size < (s.allocate c.name).2.heap.size := by
    simp [State.allocate]
  have hgives : w.program.Gives ⟨.special, c.name, constructorName,
      ⟨Augmentation.constructorParams built.hierarchy (levels.flatMap built.hierarchy.eagerFields),
        none⟩, .object s.heap.size :: reference :: (k.allEager.zip values).map (·.2)⟩ _ _ :=
    (hl.persistentLineage hconcrete).gives_constructor hl.wovenProgram hnew hreference hfields
      (sizesMatch_zip hsizes) rfl rfl
  rw [← hall, hvalues] at hgives
  obtain ⟨fuel, hfuel⟩ := hgives.call
  refine ⟨hfields, fuel, _, ?_, restored_restore hnew ?_ fun g hg => ?_⟩
  · exact congrArg (Option.map fun out =>
      (⟨out.result.map fun _ => .object s.heap.size, out.state⟩ : Outcome Value)) hfuel
  · have heager := congrArg (List.map (·.name)) hfields
    rw [List.map_map] at heager
    exact heager ▸ Hierarchy.nodup_eagerFields hl.distinctFields
  · obtain ⟨-, q, hq, hqg⟩ := exists_persistent hfields hg
    exact hqg ▸ hl.ordinary_of_mem hq

/-- After a deserialization every persistent field equals its shadow. -/
theorem current_restored (hl : WovenLineage input dependencies w built levels c)
    (hfields : fields.map (·.1) = levels.flatMap built.hierarchy.eagerFields)
    (hnew : ∀ n, s.field? (.object o) n = none) (hrestored : Restored o reference fields s s')
    (hr : r ∈ built.hierarchy.persistentFields levels) :
    s'.persistedValue o r.field = s'.current o r.field ∧
      (s'.current o r.field = .ofType r.field.type ∨
        ∃ g ∈ fields, g.1 = r.field ∧ s'.current o r.field = g.2) := by
  cases hlazy : built.hierarchy.isLazy r.field.type with
  | true =>
    have hcurrent : s'.current o r.field = .ofType r.field.type := by
      rw [State.current, State.read, hl.field?_lazy hfields hrestored hr hlazy (by simp), hnew]
      rfl
    refine ⟨?_, .inl hcurrent⟩
    rw [hcurrent, State.persistedValue, State.read,
      hl.field?_lazy hfields hrestored hr hlazy (by simp), hnew]
    rfl
  | false =>
    obtain ⟨d, hd, -, hf, hpersistent⟩ := Hierarchy.mem_persistentFields.1 hr
    have hmem : r.field ∈ fields.map (·.1) := by
      rw [hfields]
      exact List.mem_flatMap.2 ⟨d, hd, Hierarchy.mem_eagerFields.2 ⟨hf, hpersistent, hlazy⟩⟩
    obtain ⟨g, hg, hgr⟩ := List.mem_map.1 hmem
    obtain ⟨hvalue, hshadow⟩ := hrestored.restored g hg
    rw [hgr] at hvalue hshadow
    rw [State.persistedValue, State.current, State.read, State.read, hvalue, hshadow]
    exact ⟨rfl, .inr ⟨g, hg, hgr, rfl⟩⟩

/--
**Deserialization restores every level.** The generated constructor returns; it gives the object its
reference and every eager field of every level its value, also as the persisted one, and does
nothing else. An extraction right after it does nothing, unless a NaN was given for a field of
another kind, and returns if the values are of the kinds of their fields.
-/
theorem construct_restores (hl : WovenLineage input dependencies w built levels c)
    (hconcrete : ∀ d ∈ levels, d.isInterface = false) :
    ∃ k, built.hierarchy.classify c = .ok k ∧
      k.allEager = levels.flatMap built.hierarchy.eagerFields ∧
      ∀ (s : State) (reference : Value) (values : List Value), reference.size = 1 →
        values.map Value.size = k.allEager.map (·.type.size) →
        ∃ fuel s', w.program.construct fuel c.name
            ⟨Augmentation.constructorParams built.hierarchy k.allEager, none⟩
            (reference :: values) s = some ⟨.ok (.object s.heap.size), s'⟩ ∧
          Restored s.heap.size reference (k.allEager.zip values) (s.allocate c.name).2 s' ∧
          ((∀ g ∈ k.allEager.zip values, g.2.isStable g.1.type = true) → ∀ a, ∃ fuel' result,
            w.program.callMethod fuel' (.object s.heap.size) Names.extractUpdates
                (Augmentation.extractSignature built.hierarchy) [.object a] s' =
              some ⟨result, s'⟩ ∧
            ((∀ g ∈ k.allEager.zip values, g.2.hasKind g.1.type.valueKind = true) →
              result = .ok none)) := by
  obtain ⟨k, -, hk, -⟩ := hl.wovenProgram.exists_members hl.lineage.mem_classes hl.storage
    (hconcrete c hl.lineage.mem_levels)
  refine ⟨k, hk, hl.allEager_eq hk, fun s reference values hreference hsizes => ?_⟩
  obtain ⟨hfields, fuel, s', hconstruct, hrestored⟩ := hl.exists_construct hconcrete hk s hreference
    hsizes
  refine ⟨fuel, s', hconstruct, hrestored, fun hstable a => ?_⟩
  have ho : s'.className? s.heap.size = some c.name := by
    rw [hrestored.classes, State.className?_allocate, if_pos rfl]
  have hsame {r : ResolvedField} := hl.current_restored (r := r) hfields
    (s.field?_new c.name) hrestored
  have hnone : ¬∃ r ∈ built.hierarchy.persistentFields levels, s'.IsReported s.heap.size r := by
    rintro ⟨r, hr, hreported⟩
    obtain ⟨hshadow, hdefault | ⟨g, hg, hgr, hvalue⟩⟩ := hsame hr
    · rw [State.IsReported, hshadow, hdefault] at hreported
      exact comparison_self_ne (by simp [Value.isStable, Value.hasKind_ofType]) hreported
    · rw [State.IsReported, hshadow, hvalue, ← hgr] at hreported
      exact comparison_self_ne (hstable g hg) hreported
  have hgives := hl.gives_extract hconcrete (a := a) ho fun hreported => absurd hreported hnone
  obtain ⟨fuel', hfuel'⟩ := hgives.callMethod ho
  have hstate := congrArg (Outcome.mk (extract built.hierarchy s.heap.size
    (built.hierarchy.persistentFields levels) s').result)
    (extract_state (h := built.hierarchy) hnone)
  refine ⟨fuel', _, hfuel'.trans (congrArg some hstate), fun hkinds => ?_⟩
  rw [extract_same fun r hr => ?_]
  obtain ⟨hshadow, hdefault | ⟨g, hg, hgr, hvalue⟩⟩ := hsame hr
  · rw [hshadow, hdefault]
    exact comparison_self (Value.hasKind_ofType _)
  · rw [hshadow, hvalue, ← hgr]
    exact comparison_self (hkinds g hg)

end WovenLineage

namespace Bank

/-- A number that is none. -/
def nan : Value := .double ⟨0x7ff8000000000000⟩

/-- The constructor of the lower class. -/
def constructorSignature : Signature :=
  ⟨[.reference "runtime.StorageReference", .primitive .long, .primitive .double], none⟩

theorem construct_savings : ∃ w fuel fuel' s', weaveArchive archive [] {} = .ok w ∧
    w.program.construct fuel "bank.Savings" constructorSignature [.str "id", .long 7, nan] {} =
      some ⟨.ok (.object 0), s'⟩ ∧
    s'.field? (.object 0) Names.storageReference = some (.str "id") ∧
    s'.field? (.object 0) "balance" = some (.long 7) ∧
    s'.field? (.object 0) (Names.shadow "rate") = some nan ∧ s'.updates = #[] ∧
    w.program.callMethod fuel' (.object 0) Names.extractUpdates
      (Augmentation.extractSignature index.hierarchy) [.object 0] s' = some ⟨.ok none, s'⟩ := by
  obtain ⟨w, hl, -⟩ := exists_wovenLineage
  obtain ⟨k, -, hall, hconstruct⟩ := WovenLineage.construct_restores hl (by decide)
  have heager : [account, savings].flatMap index.hierarchy.eagerFields =
      [⟨"balance", .primitive .long, .none⟩, ⟨"rate", .primitive .double, .none⟩] := by
    decide +kernel
  rw [hall, heager] at hconstruct
  obtain ⟨fuel, s', hcall, hrestored, hextract⟩ := hconstruct {} (.str "id") [.long 7, nan] rfl rfl
  obtain ⟨fuel', result, hcall', hresult⟩ := hextract (by decide +kernel) 0
  obtain rfl := hresult (by decide)
  obtain ⟨hbalance, hrate⟩ := List.forall_mem_cons.1 hrestored.restored
  exact ⟨w, fuel, fuel', s', hl.woven, hcall, hrestored.storageReference, hbalance.1,
    (hrate _ List.mem_cons_self).2, hrestored.updates, hcall'⟩

end Bank

/-- Constructs an object and gives one of its fields, and what an extraction right after it
reports. -/
def constructed (p : Program) (className : String) (signature : Signature) (args : List Value)
    (field : String) : Option (Except Fault Value × Option Value × List String) := do
  let out ← p.construct 100 className signature args {}
  let after ← p.callMethod 100 (.object 0) Names.extractUpdates
    ⟨[.reference "runtime.Updates"], none⟩ [.object 1] (out.state.allocate "runtime.Updates").2
  return (out.result, out.state.field? (.object 0) field, after.state.updates.toList.map (·.field))

/-- A level that is an interface is not restored, and a NaN in the place of another number of its
size is reported as a change. -/
theorem construct_restores_exceptions :
    (∃ w, WovenLineage Library.archive [] w Library.index [Library.document, Library.page]
        Library.page ∧
      constructed w.program "lib.Page"
        ⟨[.reference "runtime.StorageReference", .primitive .int], none⟩
        [.str "id", .int 7] "size" =
          some (.ok (.object 0), none, [])) ∧
    ∃ w, WovenLineage Bank.archive [] w Bank.index [Bank.account, Bank.savings] Bank.savings ∧
      constructed w.program "bank.Savings" Bank.constructorSignature
        [.str "id", Bank.nan, .double .zero] "balance" =
          some (.ok (.object 0), some Bank.nan, ["balance"]) := by
  obtain ⟨w, hl, hprogram⟩ := Library.exists_wovenLineage
  obtain ⟨w', hl', hprogram'⟩ := Bank.exists_wovenLineage
  refine ⟨⟨w, hl, ?_⟩, w', hl', ?_⟩
  · rw [hprogram]
    decide +kernel
  · rw [hprogram']
    decide +kernel

end StorageWeave
