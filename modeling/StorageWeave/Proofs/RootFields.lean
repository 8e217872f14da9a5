import StorageWeave.Proofs.Relocation

/-!
# The fields of the storage root

The platform gives the storage root fields of its own, which accesses name through classes below it.
No class below declares such a field, so the search for its declaration goes up to the root
(`Hierarchy.resolveField_eq_some_iff_root`). What becomes of the access then depends on whether the
root is visible: where it is not, the access is left as it is; where the root, or a class above it,
declares a persistent field of the name, an access of a lazy type becomes a call of its accessor
(`rootField_kept_iff`).
-/

namespace StorageWeave.Weaving

open Bytecode Machine

namespace Hierarchy

variable {h : Hierarchy} {name x y : String} {r : ResolvedField}

/-! ## The search for a field -/

/-- A search that can go over all indexed classes is the search for the field. -/
theorem resolveFieldFrom_eq {fuel : Nat} (hfuel : h.index.size < fuel) (x : String) :
    h.resolveFieldFrom name fuel x = h.resolveField x name := by
  have hdom (z : String) (hz : (h.beyond name z).isSome) :
      z ∈ h.index.classes.map (·.definition.name) := by
    obtain ⟨s, hs⟩ := Option.isSome_iff_exists.1 hz
    obtain ⟨c, hc, -⟩ := beyond_eq_some_iff.1 hs
    exact (h.index.find?_eq_none_or_mem z hc).2
  ext r
  rw [resolveField, resolveFieldFrom_eq_some_iff, resolveFieldFrom_eq_some_iff]
  constructor
  all_goals
    rintro ⟨n, -, hclimb, hdeclared⟩
    obtain ⟨k, hk, -, hclimb⟩ := exists_climb_le hdom hclimb
    rw [List.length_map] at hk
    refine ⟨k, ?_, hclimb, hdeclared⟩
    simp only [walkBound, ClassIndex.size] at *
    omega

/-- The search passes over a class that does not declare the field. -/
theorem resolveField_superclass {c : ClassDef} {s : String} (hc : h.index.get? x = some c)
    (hf : c.field? name = none) (hs : c.superclass = some s) :
    h.resolveField x name = h.resolveField s name := by
  rw [resolveField, walkBound, resolveFieldFrom, hc]
  simp only [hf, hs, Option.bind_some]
  exact resolveFieldFrom_eq (Nat.lt_succ_self _) s

/-! ## Below the storage root -/

/-- The classes from one up to the storage root, which is left out. -/
inductive Below (h : Hierarchy) : String → String → Prop where
  | here {x : String} (hx : x ≠ h.config.storageRoot) : Below h x x
  | above {x s y : String} (hx : x ≠ h.config.storageRoot) (hs : h.superclassOf x = some s)
      (hy : Below h s y) : Below h x y

theorem not_below_storageRoot : ¬ h.Below h.config.storageRoot x := by
  rintro (hroot | ⟨hroot, -⟩) <;> exact hroot rfl

theorem below_iff {s : String} (hx : x ≠ h.config.storageRoot) (hs : h.superclassOf x = some s) :
    h.Below x y ↔ y = x ∨ h.Below s y := by
  constructor
  · rintro (- | ⟨-, hs', hy⟩)
    · exact .inl rfl
    · cases hs.symm.trans hs'
      exact .inr hy
  · rintro (rfl | hy)
    · exact .here hx
    · exact .above hx hs hy

/-- No class below the storage root declares a field. -/
def Undeclared (h : Hierarchy) (owner name : String) : Prop :=
  ∀ x c, h.Below owner x → h.index.get? x = some c → c.field? name = none

/-- **The field of the storage root.** A field that no class below declares is found at the root or
above it, if all classes below are indexed. -/
theorem resolveField_eq_some_iff_root {owner : String} (hstorage : h.isStorage owner = true)
    (hundeclared : h.Undeclared owner name) :
    h.resolveField owner name = some r ↔
      (∀ x, h.Below owner x → (h.index.get? x).isSome) ∧
        h.resolveField h.config.storageRoot name = some r := by
  obtain ⟨n, hn⟩ := descendsFrom_iff.1 hstorage
  clear hstorage
  induction n generalizing owner with
  | zero =>
    cases hn
    simp [not_below_storageRoot]
  | succ n ih =>
    by_cases hroot : owner = h.config.storageRoot
    · subst hroot
      simp [not_below_storageRoot]
    obtain ⟨s, hs, hn⟩ := Option.bind_eq_some_iff.1 hn
    have hbelow (x : String) : h.Below owner x ↔ x = owner ∨ h.Below s x := below_iff hroot hs
    rcases hc : h.index.get? owner with _ | c
    · -- the search ends at a class that is not indexed
      have hnone : h.resolveField owner name = none := by
        rw [resolveField, walkBound, resolveFieldFrom, hc]
      refine iff_of_false (by simp [hnone]) fun hall => ?_
      simpa [hc] using hall.1 owner (.here hroot)
    · rw [superclassOf_of_get? hc] at hs
      rw [resolveField_superclass hc (hundeclared owner c (.here hroot) hc) hs,
        ih (fun x d hx => hundeclared x d ((hbelow x).2 (.inr hx))) hn]
      simp [hbelow, hc]

/-- An access is kept exactly if there is no class whose accessors stand for it. -/
theorem passed_eq_self_iff {owner : String} {type : FieldType} {i : Instruction}
    (hi : i = .getField owner name type ∨ i = .putField owner name type) :
    h.passed i = i ↔ h.lazyOwner? owner name type = none := by
  rcases hi with rfl | rfl
  all_goals
    rcases howner : h.lazyOwner? owner name type with _ | declaring
    · simp [passed, redirected, howner, widened]
    · simp only [passed, redirected, howner, widened]
      split <;> simp

theorem lazyOwner?_eq_none_iff {owner : String} {type : FieldType}
    (hstorage : h.isStorage owner = true) :
    h.lazyOwner? owner name type = none ↔
      ¬ (h.isLazy type = true ∧ ∃ r, h.resolveField owner name = some r ∧
        r.field.isPersistent = true) := by
  rw [lazyOwner?]
  rcases h.resolveField owner name with _ | r
  · simp
  · simp [hstorage]

end Hierarchy

open MethodWeaver

/-- Woven code is a relocation of the code of the method. -/
theorem exists_relocates {h : Hierarchy} {c : ClassDef} {m : MethodDef} {w : WovenMethod}
    {code : Code} (hw : weaveMethod h c m = .ok w) (hcode : m.code = some code) :
    ∃ woven f position block, w.method.code = some woven ∧
      h.Relocates code f position block woven := by
  obtain ⟨role, code', -, -, hmethod, hwoven⟩ := weave_eq_ok (weaveMethod_exact hw)
  rw [hcode] at hwoven
  cases hwoven with
  | @some _ woven hpassed =>
    obtain ⟨prologue, hpasses, -⟩ := hpassed
    obtain ⟨f, position, block, hr, -⟩ := relocates_passes hpasses
    exact ⟨woven, f, position, block, by rw [hmethod], hr⟩

/--
**Accesses to the fields of the storage root.** An access to a field that no class below the storage
root declares is left as it is, unless it has a lazy type and the search, over classes that are all
indexed, finds a persistent field of the name at the root or above it.
-/
theorem rootField_kept_iff {h : Hierarchy} {c : ClassDef} {m : MethodDef} {w : WovenMethod}
    {code : Code} (hw : weaveMethod h c m = .ok w) (hcode : m.code = some code) :
    ∃ woven f position block, w.method.code = some woven ∧
      h.Relocates code f position block woven ∧
      ∀ b i owner name type, code[b]? = some i →
        (i = .getField owner name type ∨ i = .putField owner name type) →
        h.isStorage owner = true → h.Undeclared owner name →
          (woven[f b]? = some i ↔ ¬ (h.isLazy type = true ∧
            (∀ x, h.Below owner x → (h.index.get? x).isSome) ∧
            ∃ r, h.resolveField h.config.storageRoot name = some r ∧
              r.field.isPersistent = true)) := by
  obtain ⟨woven, f, position, block, hwoven, hr⟩ := exists_relocates hw hcode
  refine ⟨woven, f, position, block, hwoven, hr, ?_⟩
  intro b i owner name type hb hi hstorage hundeclared
  have htargets : (h.passed i).targets = [] := by
    rw [Hierarchy.targets_passed]
    rcases hi with rfl | rfl <;> rfl
  rw [hr.getElem? b i hb, Instruction.mapTargets_of_targets_eq_nil htargets, Option.some.injEq,
    Hierarchy.passed_eq_self_iff hi, Hierarchy.lazyOwner?_eq_none_iff hstorage]
  simp only [Hierarchy.resolveField_eq_some_iff_root hstorage hundeclared, and_assoc,
    exists_and_left]

/-! ### An order that reads its key -/

namespace Order

/-- The storage root with the field for the key of an object. -/
def root : ClassDef where
  name := "runtime.Storage"
  superclass := some "lang.Object"
  fields := [{ name := "storageReference", type := .reference "runtime.StorageReference"
               access := .protected }]

def order : ClassDef where
  name := "shop.Order"
  superclass := some "runtime.Storage"

/-- The access to the key through the class of the order. -/
def access : Instruction :=
  .getField "shop.Order" "storageReference" (.reference "runtime.StorageReference")

def key : MethodDef where
  name := "key"
  signature := ⟨[], some (.reference "runtime.StorageReference")⟩
  code := some [.loadThis, access, .return (some .reference)]

/-- The order among other visible classes. -/
def hierarchy (others : List ClassDef) : Hierarchy :=
  ⟨⟨(order :: others).map fun c => ⟨c, c.toBytes⟩⟩, {}⟩

theorem undeclared (others : List ClassDef) :
    (hierarchy others).Undeclared "shop.Order" "storageReference" := by
  have horder : (hierarchy others).index.get? "shop.Order" = some order := rfl
  have hsuper : (hierarchy others).superclassOf "shop.Order" = some "runtime.Storage" := by
    rw [Hierarchy.superclassOf_of_get? horder]
    rfl
  have hne : "shop.Order" ≠ "runtime.Storage" := by decide
  intro x c hx hc
  obtain rfl | hx := (Hierarchy.below_iff hne hsuper).1 hx
  · cases horder.symm.trans hc
    rfl
  · exact absurd hx Hierarchy.not_below_storageRoot

/-- The key is read directly where the storage root is not visible. -/
theorem key_kept : (hierarchy []).isStorage "shop.Order" = true ∧
    (hierarchy []).Undeclared "shop.Order" "storageReference" ∧
    ∃ w woven, weaveMethod (hierarchy []) order key = .ok w ∧ w.method.code = some woven ∧
      ∃ n : Nat, woven[n]? = some access := by
  have hstorage : (hierarchy []).isStorage "shop.Order" = true := by decide
  have hroot : (hierarchy []).resolveField "runtime.Storage" "storageReference" = none := by decide
  obtain ⟨w, hw⟩ := exists_eq_ok_of_isOk
    (show (weaveMethod (hierarchy []) order key).isOk = true by decide +kernel)
  obtain ⟨woven, f, position, block, hwoven, -, hkept⟩ := rootField_kept_iff hw rfl
  refine ⟨hstorage, undeclared [], w, woven, hw, hwoven, f 1, ?_⟩
  refine (hkept 1 access _ _ _ rfl (.inl rfl) hstorage (undeclared [])).2 ?_
  rintro ⟨-, -, r, hr, -⟩
  cases hroot.symm.trans hr

/-- It is read by an accessor where the descriptor of the root is among the classes. -/
theorem key_redirected : (hierarchy [root]).isStorage "shop.Order" = true ∧
    (hierarchy [root]).Undeclared "shop.Order" "storageReference" ∧
    (weaveMethod (hierarchy [root]) order key).map (·.method.code) =
      .ok (some [.loadThis, .invoke .special "runtime.Storage" "§get_storageReference"
        ⟨[], some (.reference "runtime.StorageReference")⟩, .return (some .reference)]) :=
  ⟨by decide, undeclared [root], by decide +kernel⟩

end Order

end StorageWeave.Weaving
