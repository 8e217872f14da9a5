import StorageWeave.Proofs.Lineage

/-!
# Calls of the platform

Woven code calls the platform by methods that no loaded class has. Such a call on an object comes
to the hook of the platform type that its class descends from.
-/

namespace StorageWeave

open Bytecode Weaving

namespace Machine

/-- The names of the hooks, constructors apart. -/
def hookNames : List String :=
  [Names.fetchLastUpdate, Names.recordUpdate, Names.recursiveExtract, Names.entryHook,
    Names.payableEntryHook]

/-- No class of the list has a method with the name of a hook. -/
def NoHookMethods (classes : List ClassDef) : Prop :=
  ∀ c ∈ classes, ∀ m ∈ c.methods, m.name ∉ hookNames

/-- The object at a place is one that updates can be reported to. -/
def IsAccumulator (p : Program) (s : State) (a : Nat) : Prop :=
  ∃ className, s.className? a = some className ∧
    ∃ n, climb p.superclassOf n className = some p.config.updateAccumulator

theorem hook_not_mem_memberNames {name : String} (h : name ∈ hookNames)
    (lazyFields : List FieldDef) : name ∉ memberNames lazyFields := by
  have hunmarked : ∀ n ∈ hookNames, Names.isSynthetic n = false ∧ n ≠ constructorName := by decide
  intro hmem
  obtain ⟨hsynthetic, hconstructor⟩ := hunmarked name h
  rcases isSynthetic_of_mem_memberNames hmem with hmarked | rfl
  · rw [hsynthetic] at hmarked
    cases hmarked
  · exact hconstructor rfl

variable {h : Hierarchy} {classes : List ClassDef} {p : Program} {s : State}

theorem Program.callee_virtual {owner name className : String} {signature : Signature} {o : Nat}
    {args : List Value} (ho : s.className? o = some className) :
    p.callee ⟨.virtual, owner, name, signature, .object o :: args⟩ s =
      p.resolve className name signature := by
  obtain ⟨object, hobject, rfl⟩ := Option.map_eq_some_iff.1 ho
  simp only [callee, dispatchClass, classOf, hobject]
  rfl

theorem Program.callee_special {owner name : String} {signature : Signature} {args : List Value} :
    p.callee ⟨.special, owner, name, signature, args⟩ s = p.resolve owner name signature := rfl

end Machine

open Machine

namespace WovenProgram

variable {h : Hierarchy} {classes : List ClassDef} {p : Program} {s : State}

/-- Woven classes have no methods with the names of hooks either. -/
theorem codeOf?_hook (hp : WovenProgram h classes p) (hno : NoHookMethods classes) {name : String}
    (hname : name ∈ hookNames) (signature : Signature) (z : String) (c' : ClassDef)
    (hc' : p.classes.get? z = some c') : Program.codeOf? c' name signature = none := by
  obtain ⟨c, hc, -, hwoven⟩ := hp.origin z c' hc'
  obtain ⟨methods, hmethods, hgrows⟩ := hwoven.grows
  rcases hm : c'.method? name signature with _ | m
  · rw [Program.codeOf?, hm, Option.bind_none]
  rcases hgrows.adds hm with hm | hm
  · obtain ⟨hmem, hmname, -⟩ := ClassDef.mem_of_method? hm
    obtain ⟨m₀, hm₀, hwoven⟩ := exists_of_forall₂_right hmethods hmem
    refine absurd hname (hwoven.name.symm.trans hmname ▸ ?_)
    exact hno c hc m₀ hm₀
  · exact absurd hm (hook_not_mem_memberNames hname _)

/-- A call of a hook on an object whose class leads to a platform type. -/
theorem gives_hook (hp : WovenProgram h classes p) (hno : NoHookMethods classes)
    {owner name className root : String} {signature : Signature} {o n : Nat} {args : List Value}
    {r : Except Fault (Option Value)} {s' : State} (hname : name ∈ hookNames)
    (ho : s.className? o = some className) (hclimb : climb p.superclassOf n className = some root)
    (hroot : root ∈ h.config.platformTypes)
    (hrun : (runHook {} root name (.object o :: args)).run s = (r, s')) :
    p.Gives ⟨.virtual, owner, name, signature, .object o :: args⟩ s ⟨r, s'⟩ := by
  have hcallee : p.callee ⟨.virtual, owner, name, signature, .object o :: args⟩ s =
      .ok (.hook root) := by
    rw [Program.callee_virtual ho]
    exact Program.resolve_hook (hp.platform root hroot) (hp.codeOf?_hook hno hname signature) hclimb
  exact Program.gives_hook hcallee (by rw [hp.config]; exact hrun)

theorem gives_recordUpdate (hp : WovenProgram h classes p) (hno : NoHookMethods classes)
    {owner : String} {signature : Signature} {a : Nat} (ha : IsAccumulator p s a)
    (reference : Value) (className field tag : String) (value : Value) :
    p.Gives ⟨.virtual, owner, Names.recordUpdate, signature,
        [.object a, reference, .str className, .str field, .str tag, value]⟩ s
      ⟨.ok none,
        { s with updates := s.updates.push ⟨reference, className, field, tag, value⟩ }⟩ := by
  obtain ⟨accumulator, hcls, n, hclimb⟩ := ha
  rw [hp.config] at hclimb
  refine hp.gives_hook hno (by simp [hookNames]) hcls hclimb ?_ rfl
  rw [hp.hierarchyConfig]
  simp [Config.platformTypes]

theorem gives_recursiveExtract (hp : WovenProgram h classes p) (hno : NoHookMethods classes)
    {owner : String} {signature : Signature} {a : Nat} (ha : IsAccumulator p s a) (value : Value) :
    p.Gives ⟨.virtual, owner, Names.recursiveExtract, signature, [.object a, value]⟩ s
      ⟨.ok none, { s with extracted := s.extracted.push value }⟩ := by
  obtain ⟨accumulator, hcls, n, hclimb⟩ := ha
  rw [hp.config] at hclimb
  refine hp.gives_hook hno (by simp [hookNames]) hcls hclimb ?_ rfl
  rw [hp.hierarchyConfig]
  simp [Config.platformTypes]

end WovenProgram

end StorageWeave
