import Mathlib.Data.List.Perm.Subperm
import Mathlib.Data.Nat.Find
import StorageWeave.Weaving.Hierarchy

/-!
# Walks to superclasses

The walks of the weaver and of the machine go from a class to its superclass for a bounded number
of steps. A walk that gets somewhere gets there without repeating a class (`exists_climb_le`), so
the bounds do not matter: what is said here about the bounded walks has no bound in it.
-/

namespace StorageWeave

namespace Weaving

open Bytecode

/-- What a number of steps to superclasses leads to, where `next` gives the superclass. -/
def climb (next : String → Option String) : Nat → String → Option String
  | 0, x => some x
  | n + 1, x => (next x).bind (climb next n)

variable {next : String → Option String} {x y z : String}

theorem climb_succ_of_next {n : Nat} (h : next x = some y) :
    climb next (n + 1) x = climb next n y := by
  rw [climb, h, Option.bind_some]

theorem climb_add (m n : Nat) (x : String) :
    climb next (m + n) x = (climb next m x).bind (climb next n) := by
  induction m generalizing x with
  | zero => rw [Nat.zero_add, climb, Option.bind_some]
  | succ m ih =>
    rw [Nat.succ_add, climb, climb]
    cases next x with
    | none => rfl
    | some y => exact ih y

/-- The first arrival at `y` repeats no class: the classes on the way, and those of `seen` that are
not on it, are different members of `names`. -/
theorem add_length_le_of_first {names : List String} (hdom : ∀ z, (next z).isSome → z ∈ names)
    {n : Nat} {seen : List String} (h : climb next n x = some y)
    (hfirst : ∀ k < n, climb next k x ≠ some y) (hnodup : seen.Nodup) (hsub : seen ⊆ names)
    (hseen : ∀ z ∈ seen, ∀ k ≤ n, climb next k z ≠ some y) : n + seen.length ≤ names.length := by
  induction n generalizing x seen with
  | zero =>
    rw [Nat.zero_add]
    exact (List.subperm_of_subset hnodup hsub).length_le
  | succ n ih =>
    rcases hx : next x with _ | x'
    · rw [climb, hx] at h
      cases h
    · have hnew : x ∉ seen := fun hmem => hseen x hmem (n + 1) le_rfl h
      have hmem : x ∈ names := hdom x (by rw [hx]; rfl)
      have := ih (show climb next n x' = some y by rwa [climb_succ_of_next hx] at h)
        (fun k hk => by rw [← climb_succ_of_next hx]; exact hfirst (k + 1) (by omega))
        (List.nodup_cons.2 ⟨hnew, hnodup⟩) (List.cons_subset.2 ⟨hmem, hsub⟩) ?_
      · rw [List.length_cons] at this
        omega
      · intro z hz k hk
        rcases List.mem_cons.1 hz with rfl | hz
        · exact hfirst k (by omega)
        · exact hseen z hz k (by omega)

/-- A class that can be reached can be reached in as many steps as there are classes with a
superclass, and no later than it was. -/
theorem exists_climb_le {names : List String} (hdom : ∀ z, (next z).isSome → z ∈ names) {n : Nat}
    (h : climb next n x = some y) : ∃ m ≤ names.length, m ≤ n ∧ climb next m x = some y := by
  have hex : ∃ m, climb next m x = some y := ⟨n, h⟩
  refine ⟨Nat.find hex, ?_, Nat.find_min' hex h, Nat.find_spec hex⟩
  have := add_length_le_of_first hdom (Nat.find_spec hex) (fun k hk => Nat.find_min hex hk)
    List.nodup_nil (List.nil_subset _) (by simp)
  simpa using this

namespace ClassIndex

theorem find?_eq_none_or_mem (i : ClassIndex) (name : String) {c : ClassDef}
    (h : i.get? name = some c) : c.name = name ∧ name ∈ i.classes.map (·.definition.name) := by
  simp only [get?, find?, Option.map_eq_some_iff] at h
  obtain ⟨d, hd, rfl⟩ := h
  have hname := List.find?_some hd
  simp only [decide_eq_true_eq] at hname
  exact ⟨hname, List.mem_map.2 ⟨d, List.mem_of_find?_eq_some hd, hname⟩⟩

theorem name_of_get? {i : ClassIndex} {name : String} {c : ClassDef} (h : i.get? name = some c) :
    c.name = name :=
  (i.find?_eq_none_or_mem name h).1

/-- There are no more different names of indexed classes than classes. -/
theorem length_le_size {i : ClassIndex} {names : List String} (hnodup : names.Nodup)
    (hindexed : ∀ z ∈ names, (i.get? z).isSome) : names.length ≤ i.size := by
  have hsub : names ⊆ i.classes.map (·.definition.name) := by
    intro z hz
    obtain ⟨c, hc⟩ := Option.isSome_iff_exists.1 (hindexed z hz)
    exact (i.find?_eq_none_or_mem z hc).2
  have hle := (List.subperm_of_subset hnodup hsub).length_le
  rwa [List.length_map] at hle

end ClassIndex

namespace Hierarchy

variable {h : Hierarchy} {root name owner : String}

/-! ## Descending from a class -/

theorem reaches_iff {fuel : Nat} :
    h.reaches root fuel name = true ↔ ∃ n < fuel, climb h.superclassOf n name = some root := by
  induction fuel generalizing name with
  | zero => simp [reaches]
  | succ fuel ih =>
    rw [reaches]
    by_cases hroot : name = root
    · simp only [hroot, if_true, true_iff]
      exact ⟨0, Nat.succ_pos _, rfl⟩
    · rw [if_neg hroot]
      rcases hs : h.superclassOf name with _ | s
      · simp only [Bool.false_eq_true, false_iff]
        rintro ⟨_ | n, -, hn⟩
        · exact hroot (Option.some.inj hn)
        · rw [climb, hs] at hn
          cases hn
      · simp only [ih]
        constructor
        · rintro ⟨n, hn, hc⟩
          exact ⟨n + 1, by omega, by rw [climb_succ_of_next hs, hc]⟩
        · rintro ⟨_ | n, hn, hc⟩
          · exact absurd (Option.some.inj hc) hroot
          · exact ⟨n, by omega, by rw [← climb_succ_of_next hs, hc]⟩

/-- Only indexed classes and the contract root have a superclass. -/
theorem mem_of_superclassOf (hs : (h.superclassOf name).isSome) :
    name ∈ h.config.contractRoot :: h.index.classes.map (·.definition.name) := by
  rcases hg : h.index.get? name with _ | c
  · by_cases hc : name = h.config.contractRoot
    · simp [hc]
    · simp [superclassOf, hg, hc] at hs
  · exact List.mem_cons_of_mem _ (h.index.find?_eq_none_or_mem name hg).2

/-- **Descending is being reached** by steps to superclasses, however many. -/
theorem descendsFrom_iff :
    h.descendsFrom root name = true ↔ ∃ n, climb h.superclassOf n name = some root := by
  rw [descendsFrom, reaches_iff]
  constructor
  · rintro ⟨n, -, hn⟩
    exact ⟨n, hn⟩
  · rintro ⟨n, hn⟩
    obtain ⟨m, hm, -, hc⟩ := exists_climb_le (fun _ => mem_of_superclassOf) hn
    refine ⟨m, ?_, hc⟩
    simp only [List.length_cons, List.length_map] at hm
    simp only [walkBound, ClassIndex.size]
    omega

theorem descendsFrom_self (name : String) : h.descendsFrom name name = true :=
  descendsFrom_iff.2 ⟨0, rfl⟩

theorem descendsFrom_trans {a b c : String} (hab : h.descendsFrom b a = true)
    (hbc : h.descendsFrom c b = true) : h.descendsFrom c a = true := by
  obtain ⟨m, hm⟩ := descendsFrom_iff.1 hab
  obtain ⟨n, hn⟩ := descendsFrom_iff.1 hbc
  exact descendsFrom_iff.2 ⟨m + n, by rw [climb_add, hm, Option.bind_some, hn]⟩

theorem superclassOf_of_get? {c : ClassDef} (hg : h.index.get? name = some c) :
    h.superclassOf name = c.superclass := by
  rw [superclassOf, hg]

/-- Below the root, a class descends from it exactly if its superclass does. -/
theorem descendsFrom_superclass {s : String} (hs : h.superclassOf name = some s)
    (hne : name ≠ root) : h.descendsFrom root name = h.descendsFrom root s := by
  rw [Bool.eq_iff_iff, descendsFrom_iff, descendsFrom_iff]
  constructor
  · rintro ⟨_ | n, hn⟩
    · exact absurd (Option.some.inj hn) hne
    · exact ⟨n, by rw [← climb_succ_of_next hs, hn]⟩
  · rintro ⟨n, hn⟩
    exact ⟨n + 1, by rw [climb_succ_of_next hs, hn]⟩

end Hierarchy

end Weaving

end StorageWeave
