import Mathlib.Order.Bounds.Basic
import StorageWeave.Proofs.Cycles
import StorageWeave.Proofs.FieldOrder

/-!
# The levels of a class

The classification of a class walks to superclasses until it comes below a platform root. It
succeeds exactly if that line of classes repeats no name, and then it has a level for every class of
the line, with the eager fields of that class in their order (`classify_sorted_partition`).

The oracle walks the same superclasses, but to one root only, and sees the contract root below the
storage root where there is no class for it. Still, what it calls a storage class has a line, whose
length is the number of steps to the first platform root (`classify_storage`).
-/

namespace StorageWeave.Weaving

open Bytecode

/-! ## The line of superclasses -/

namespace Hierarchy

variable {h : Hierarchy} {c d : ClassDef} {line line' : List ClassDef}

/-- The classes from `c` up to the one below a platform root, all but `c` itself indexed. -/
inductive Line (h : Hierarchy) : ClassDef → List ClassDef → Prop
  | top {c : ClassDef} {s : String} (hs : c.superclass = some s)
      (hroot : h.config.isPlatformRoot s = true) : Line h c [c]
  | child {c d : ClassDef} {s : String} {line : List ClassDef} (hs : c.superclass = some s)
      (hroot : h.config.isPlatformRoot s = false) (hd : h.index.get? s = some d)
      (hline : Line h d line) : Line h c (c :: line)

section Superclass

variable {s : String} (hs : c.superclass = some s)

include hs

theorem line_iff_of_root (hroot : h.config.isPlatformRoot s = true) :
    h.Line c line ↔ line = [c] := by
  constructor
  · intro hl
    cases hl with
    | top => rfl
    | child hs' hroot' =>
      cases hs.symm.trans hs'
      cases hroot.symm.trans hroot'
  · rintro rfl
    exact .top hs hroot

theorem line_iff_of_parent (hroot : h.config.isPlatformRoot s = false)
    (hd : h.index.get? s = some d) : h.Line c line ↔ ∃ rest, h.Line d rest ∧ line = c :: rest := by
  constructor
  · intro hl
    cases hl with
    | top hs' hroot' =>
      cases hs.symm.trans hs'
      cases hroot.symm.trans hroot'
    | child hs' _ hd' hline =>
      cases hs.symm.trans hs'
      cases hd.symm.trans hd'
      exact ⟨_, hline, rfl⟩
  · rintro ⟨rest, hl, rfl⟩
    exact .child hs hroot hd hl

end Superclass

namespace Line

/-- A class with a line has a superclass, which is a platform root or indexed. -/
theorem exists_superclass (hl : h.Line c line) : ∃ s, c.superclass = some s ∧
    (h.config.isPlatformRoot s = false → (h.index.get? s).isSome) := by
  cases hl with
  | top hs hroot => exact ⟨_, hs, fun hroot' => by cases hroot.symm.trans hroot'⟩
  | child hs _ hd => exact ⟨_, hs, fun _ => Option.isSome_of_eq_some hd⟩

theorem exists_eq_cons (hl : h.Line c line) : ∃ rest, line = c :: rest ∧
    ∀ d ∈ rest, h.index.get? d.name = some d := by
  induction hl with
  | top => exact ⟨[], rfl, by simp⟩
  | @child c d s line _ _ hd _ ih =>
    obtain ⟨rest, rfl, hindexed⟩ := ih
    refine ⟨d :: rest, rfl, List.forall_mem_cons.2 ⟨?_, hindexed⟩⟩
    rwa [ClassIndex.name_of_get? hd]

theorem unique (hl : h.Line c line) (hl' : h.Line c line') : line = line' := by
  induction hl generalizing line' with
  | top hs hroot => exact ((line_iff_of_root hs hroot).1 hl').symm
  | child hs hroot hd _ ih =>
    obtain ⟨rest, hrest, rfl⟩ := (line_iff_of_parent hs hroot hd).1 hl'
    rw [ih hrest]

/-- A line ends with the line of each of its classes. -/
theorem exists_suffix (hl : h.Line c line) (hd : d ∈ line) :
    ∃ rest, h.Line d rest ∧ rest <:+ line := by
  induction hl with
  | @top c s hs hroot =>
    rw [List.mem_singleton.1 hd]
    exact ⟨[c], .top hs hroot, List.suffix_rfl⟩
  | @child c e s line hs hroot he hline ih =>
    rcases List.mem_cons.1 hd with rfl | hd
    · exact ⟨_, .child hs hroot he hline, List.suffix_rfl⟩
    · obtain ⟨rest, hrest, hsuffix⟩ := ih hd
      exact ⟨rest, hrest, hsuffix.trans (List.suffix_cons c line)⟩

/-- The line of an indexed class repeats no name. -/
theorem nodup (hl : h.Line c line) (hc : h.index.get? c.name = some c) :
    (line.map ClassDef.name).Nodup := by
  induction hl with
  | top => simp
  | @child c d s line hs hroot hd hline ih =>
    have hdindexed : h.index.get? d.name = some d := by rwa [ClassIndex.name_of_get? hd]
    rw [List.map_cons, List.nodup_cons]
    refine ⟨fun hmem => ?_, ih hdindexed⟩
    -- a class that comes again has the same line again, which is too short for it
    obtain ⟨e, he, hname⟩ := List.mem_map.1 hmem
    obtain ⟨rest, hrest, hsuffix⟩ := hline.exists_suffix he
    have heindexed : h.index.get? e.name = some e := by
      obtain ⟨tail, rfl, htail⟩ := hline.exists_eq_cons
      rcases List.mem_cons.1 he with rfl | he
      · exact hdindexed
      · exact htail e he
    obtain rfl : c = e := by
      rw [hname, hc] at heindexed
      exact Option.some.inj heindexed
    have hlength := hsuffix.length_le
    rw [hrest.unique (.child hs hroot hd hline), List.length_cons] at hlength
    omega

theorem length_le (hl : h.Line c line) (hnodup : (line.map ClassDef.name).Nodup) :
    line.length ≤ h.walkBound := by
  obtain ⟨rest, rfl, hindexed⟩ := hl.exists_eq_cons
  have hle : (rest.map ClassDef.name).length ≤ h.index.size := by
    refine ClassIndex.length_le_size (List.nodup_cons.1 hnodup).2 fun z hz => ?_
    obtain ⟨d, hd, rfl⟩ := List.mem_map.1 hz
    rw [hindexed d hd]
    rfl
  rw [List.length_map] at hle
  rw [List.length_cons, walkBound]
  omega

end Line

/-! ## The walk of the classification -/

/-- The walk adds the levels of the line, if it is given enough steps and meets no name again. -/
theorem eagerLevelsFrom_eq_ok_iff {bottom : String} {fuel : Nat} {visited : List String}
    {levels out : List (List FieldDef)} :
    h.eagerLevelsFrom bottom fuel visited levels c = .ok out ↔
      ∃ line, h.Line c line ∧ line.length ≤ fuel ∧ (line.map ClassDef.name).Nodup ∧
        (∀ d ∈ line, d.name ∉ visited) ∧ out = (line.map h.eagerFields).reverse ++ levels := by
  induction fuel generalizing visited levels c with
  | zero =>
    refine ⟨fun hout => (by cases hout), ?_⟩
    rintro ⟨line, hl, hlength, -⟩
    obtain ⟨rest, rfl, -⟩ := hl.exists_eq_cons
    cases hlength
  | succ fuel ih =>
    rw [eagerLevelsFrom]
    by_cases hvisited : c.name ∈ visited
    · rw [if_pos hvisited]
      refine ⟨fun hout => (by cases hout), ?_⟩
      rintro ⟨line, hl, -, -, hnew, -⟩
      obtain ⟨rest, rfl, -⟩ := hl.exists_eq_cons
      exact absurd hvisited (hnew c List.mem_cons_self)
    rw [if_neg hvisited]
    rcases hs : c.superclass with _ | s
    · refine ⟨fun hout => (by cases hout), ?_⟩
      rintro ⟨line, hl, -⟩
      obtain ⟨s, hs', -⟩ := hl.exists_superclass
      cases hs.symm.trans hs'
    cases hroot : h.config.isPlatformRoot s with
    | true => simp [hroot, line_iff_of_root hs hroot, hvisited, eq_comm]
    | false =>
      rcases hd : h.index.get? s with _ | d
      · simp only [hroot, hd, Bool.false_eq_true, if_false, reduceCtorEq, false_iff]
        rintro ⟨line, hl, -⟩
        obtain ⟨s', hs', hindexed⟩ := hl.exists_superclass
        cases hs.symm.trans hs'
        rw [hd] at hindexed
        cases hindexed hroot
      simp only [hroot, hd, Bool.false_eq_true, if_false, ih, line_iff_of_parent hs hroot hd]
      constructor
      · rintro ⟨line, hl, hlength, hnodup, hnew, rfl⟩
        simp only [List.mem_cons, not_or] at hnew
        refine ⟨c :: line, ⟨line, hl, rfl⟩, by simpa using hlength, ?_, ?_, by simp⟩
        · rw [List.map_cons, List.nodup_cons]
          refine ⟨fun hmem => ?_, hnodup⟩
          obtain ⟨e, he, hname⟩ := List.mem_map.1 hmem
          exact (hnew e he).1 hname
        · exact List.forall_mem_cons.2 ⟨hvisited, fun e he => (hnew e he).2⟩
      · rintro ⟨_, ⟨line, hl, rfl⟩, hlength, hnodup, hnew, rfl⟩
        obtain ⟨hc, hnodup⟩ := List.nodup_cons.1 hnodup
        refine ⟨line, hl, by simpa using hlength, hnodup, fun e he => ?_, by simp⟩
        rw [List.mem_cons, not_or]
        exact ⟨fun hname => hc (List.mem_map.2 ⟨e, he, hname⟩),
          hnew e (List.mem_cons_of_mem c he)⟩

theorem classify_eq_ok_iff {k : Classification} :
    h.classify c = .ok k ↔ ∃ line, h.Line c line ∧ (line.map ClassDef.name).Nodup ∧
      k = ⟨(line.map h.eagerFields).reverse, h.lazyFields c⟩ := by
  rw [classify, bind_eq_ok]
  simp only [eagerLevelsFrom_eq_ok_iff]
  constructor
  · rintro ⟨out, ⟨line, hl, -, hnodup, -, rfl⟩, hk⟩
    refine ⟨line, hl, hnodup, ?_⟩
    rw [← Except.ok.inj hk, List.append_nil]
  · rintro ⟨line, hl, hnodup, rfl⟩
    exact ⟨_, ⟨line, hl, hl.length_le hnodup, hnodup, by simp, rfl⟩, by rw [List.append_nil]; rfl⟩

/-! ## The fields of a level -/

/-- The eager fields of a class, as their only sorted list. -/
theorem lists_eager_iff {fs : List FieldDef} : FieldDef.Lists fs
    (fun f => f ∈ c.fields ∧ f.isPersistent = true ∧ h.isLazy f.type = false) ↔
      fs = h.eagerFields c := by
  have hlists : FieldDef.Lists (h.eagerFields c) _ :=
    ⟨FieldDef.sortedLT_sorted _, fun _ => mem_eagerFields⟩
  exact ⟨fun hfs => hfs.unique hlists, fun heq => heq ▸ hlists⟩

/-- The lazy fields of a class, as their only sorted list. -/
theorem lists_lazy_iff {fs : List FieldDef} : FieldDef.Lists fs
    (fun f => f ∈ c.fields ∧ f.isPersistent = true ∧ h.isLazy f.type = true) ↔
      fs = h.lazyFields c := by
  have hlists : FieldDef.Lists (h.lazyFields c) _ :=
    ⟨FieldDef.sortedLT_sorted _, fun _ => mem_lazyFields⟩
  exact ⟨fun hfs => hfs.unique hlists, fun heq => heq ▸ hlists⟩

theorem ownEager_of_classify {k : Classification} (hk : h.classify c = .ok k) :
    k.ownEager = h.eagerFields c := by
  obtain ⟨line, hl, -, rfl⟩ := classify_eq_ok_iff.1 hk
  obtain ⟨rest, rfl, -⟩ := hl.exists_eq_cons
  simp [Classification.ownEager]

/-- The eager and the lazy fields of a class are its persistent fields. -/
theorem mem_ownEager_or_mem_lazyFields {k : Classification} (hk : h.classify c = .ok k)
    {f : FieldDef} :
    f ∈ k.ownEager ∨ f ∈ k.lazyFields ↔ f ∈ c.fields ∧ f.isPersistent = true := by
  rw [ownEager_of_classify hk, lazyFields_of_classify hk, mem_eagerFields, mem_lazyFields]
  cases h.isLazy f.type <;> simp

theorem disjoint_ownEager_lazyFields {k : Classification} (hk : h.classify c = .ok k) :
    k.ownEager.Disjoint k.lazyFields := by
  intro f heager hlazy
  rw [ownEager_of_classify hk, mem_eagerFields] at heager
  rw [lazyFields_of_classify hk, mem_lazyFields] at hlazy
  cases heager.2.2.symm.trans hlazy.2.2

/-- A class has the levels of its superclass, and one more. -/
theorem exists_classify_superclass {k : Classification} (hk : h.classify c = .ok k) {s : ClassDef}
    (hs : c.superclass = some s.name) (hroot : h.config.isPlatformRoot s.name = false)
    (hindexed : h.index.get? s.name = some s) :
    ∃ k', h.classify s = .ok k' ∧ k.eagerLevels = k'.eagerLevels ++ [k.ownEager] := by
  have hown := ownEager_of_classify hk
  obtain ⟨line, hl, hnodup, rfl⟩ := classify_eq_ok_iff.1 hk
  obtain ⟨rest, hrest, rfl⟩ := (line_iff_of_parent hs hroot hindexed).1 hl
  refine ⟨_, classify_eq_ok_iff.2 ⟨rest, hrest, (List.nodup_cons.1 hnodup).2, rfl⟩, ?_⟩
  rw [hown, List.map_cons, List.reverse_cons]

end Hierarchy

/--
**Classification is a sorted partition** of the persistent fields. A class is classified exactly if
its superclasses come to a platform root without repeating a name. Then its levels list the eager
fields of the classes on the way, the class itself last, and the lazy fields are the others of the
class itself. The levels of a class are those of its superclass and its own.
-/
theorem classify_sorted_partition (h : Hierarchy) (c : ClassDef) :
    ((∃ k, h.classify c = .ok k) ↔
      ∃ line, h.Line c line ∧ (line.map ClassDef.name).Nodup) ∧
    (∀ k, h.classify c = .ok k ↔
      (∃ line, h.Line c line ∧ (line.map ClassDef.name).Nodup ∧
        List.Forall₂ (fun level d => FieldDef.Lists level fun f =>
          f ∈ d.fields ∧ f.isPersistent = true ∧ h.isLazy f.type = false)
          k.eagerLevels.reverse line) ∧
      FieldDef.Lists k.lazyFields fun f =>
        f ∈ c.fields ∧ f.isPersistent = true ∧ h.isLazy f.type = true) ∧
    ∀ k, h.classify c = .ok k →
      k.ownEager.Disjoint k.lazyFields ∧
      (∀ f, f ∈ k.ownEager ∨ f ∈ k.lazyFields ↔ f ∈ c.fields ∧ f.isPersistent = true) ∧
      ∀ s : ClassDef, c.superclass = some s.name → h.config.isPlatformRoot s.name = false →
        h.index.get? s.name = some s →
          ∃ k', h.classify s = .ok k' ∧ k.eagerLevels = k'.eagerLevels ++ [k.ownEager] := by
  refine ⟨?_, fun k => ?_, fun k hk => ⟨Hierarchy.disjoint_ownEager_lazyFields hk,
    fun f => Hierarchy.mem_ownEager_or_mem_lazyFields hk,
    fun s => Hierarchy.exists_classify_superclass hk⟩⟩
  · simp only [Hierarchy.classify_eq_ok_iff]
    constructor
    · rintro ⟨k, line, hl, hnodup, -⟩
      exact ⟨line, hl, hnodup⟩
    · rintro ⟨line, hl, hnodup⟩
      exact ⟨_, line, hl, hnodup, rfl⟩
  · obtain ⟨levels, lazyFields⟩ := k
    simp only [Hierarchy.classify_eq_ok_iff, Hierarchy.lists_eager_iff, Hierarchy.lists_lazy_iff,
      ← List.forall₂_map_right_iff (f := h.eagerFields), List.forall₂_eq_eq_eq,
      List.reverse_eq_iff, Classification.mk.injEq]
    constructor
    · rintro ⟨line, hl, hnodup, hlevels, hlazy⟩
      exact ⟨⟨line, hl, hnodup, hlevels⟩, hlazy⟩
    · rintro ⟨⟨line, hl, hnodup, hlevels⟩, hlazy⟩
      exact ⟨line, hl, hnodup, hlevels, hlazy⟩

/-! ## Storage classes -/

namespace Hierarchy

variable {h : Hierarchy} {c : ClassDef}

/-- The numbers of steps to superclasses that lead from a class to a platform root above it. -/
def stepsToRoot (h : Hierarchy) (name : String) : Set ℕ :=
  {n | 0 < n ∧ ∃ root, climb h.superclassOf n name = some root ∧
    h.config.isPlatformRoot root = true}

/-- Only a platform root has a superclass without being indexed. -/
theorem exists_get? {name : String} (hs : (h.superclassOf name).isSome)
    (hroot : h.config.isPlatformRoot name = false) : ∃ d, h.index.get? name = some d := by
  rcases hd : h.index.get? name with _ | d
  · rw [superclassOf, hd] at hs
    simp_all [Config.isPlatformRoot]
  · exact ⟨d, rfl⟩

/-- An indexed class has a line as long as its way to the first platform root. -/
theorem exists_line {n : ℕ} (hc : h.index.get? c.name = some c)
    (hn : IsLeast (h.stepsToRoot c.name) n) : ∃ line, h.Line c line ∧ line.length = n := by
  obtain ⟨⟨hpos, root, hclimb, hroot⟩, hfirst⟩ := hn
  induction n generalizing c with
  | zero => cases hpos
  | succ n ih =>
    obtain ⟨s, hs, hclimb⟩ := Option.bind_eq_some_iff.1 hclimb
    have hsuperclass : c.superclass = some s := by rwa [superclassOf_of_get? hc] at hs
    rcases n with _ | n
    · cases hclimb
      exact ⟨[c], .top hsuperclass hroot, rfl⟩
    have hbelow : h.config.isPlatformRoot s = false := by
      by_contra hs'
      have := hfirst ⟨Nat.one_pos, s, by rw [climb_succ_of_next hs, climb], by simpa using hs'⟩
      omega
    obtain ⟨d, hd⟩ : ∃ d, h.index.get? s = some d := by
      obtain ⟨t, ht, -⟩ := Option.bind_eq_some_iff.1 hclimb
      exact exists_get? (Option.isSome_of_eq_some ht) hbelow
    obtain rfl := ClassIndex.name_of_get? hd
    have hfirst' : n + 1 ∈ lowerBounds (h.stepsToRoot d.name) := by
      rintro m ⟨hm, root', hclimb', hroot'⟩
      have := hfirst ⟨Nat.succ_pos m, root', by rwa [climb_succ_of_next hs], hroot'⟩
      omega
    obtain ⟨line, hl, hlength⟩ := ih hd hfirst' (Nat.succ_pos n) hclimb
    exact ⟨c :: line, .child hsuperclass hbelow hd hl, by rw [List.length_cons, hlength]⟩

/-- A storage class other than the storage root comes to a platform root. -/
theorem exists_isLeast_stepsToRoot {name : String} (hstorage : h.isStorage name = true)
    (hroot : name ≠ h.config.storageRoot) : ∃ n, IsLeast (h.stepsToRoot name) n := by
  obtain ⟨n, hn⟩ := descendsFrom_iff.1 hstorage
  have hpos : 0 < n := by
    rcases n with _ | n
    · exact absurd (Option.some.inj hn) hroot
    · exact Nat.succ_pos n
  have hmem : n ∈ h.stepsToRoot name := ⟨hpos, _, hn, by simp [Config.isPlatformRoot]⟩
  exact ⟨_, Nat.sInf_mem ⟨n, hmem⟩, fun m hm => Nat.sInf_le hm⟩

end Hierarchy

/--
**A storage class is always classified**, whatever the oracle was asked before it said so. The
number of its levels is that of the steps to the first platform root above it.
-/
theorem classify_storage {h : Hierarchy} {c : ClassDef} (hc : h.index.get? c.name = some c)
    (hroot : c.name ≠ h.config.storageRoot) (earlier : List Question)
    (hstorage : (do earlier.forM (·.ask h); (Oracle.remembering h).isStorage c.name).run' {} =
      .ok true) :
    ∃ k, h.classify c = .ok k ∧ IsLeast (h.stepsToRoot c.name) k.eagerLevels.length := by
  have hanswer : Follows h (do earlier.forM (·.ask h); (Oracle.remembering h).isStorage c.name)
      (.ok (h.isStorage c.name)) :=
    (Sound.questions earlier).bind fun _ _ =>
      (Sound.isStorage c.name).imp fun _ ha => congrArg Except.ok ha.symm
  obtain ⟨n, hn⟩ := Hierarchy.exists_isLeast_stepsToRoot
    (Except.ok.inj (hanswer.run' hstorage)) hroot
  obtain ⟨line, hl, rfl⟩ := Hierarchy.exists_line hc hn
  refine ⟨_, Hierarchy.classify_eq_ok_iff.2 ⟨line, hl, hl.nodup hc, rfl⟩, ?_⟩
  rwa [List.length_reverse, List.length_map]

namespace Orchard

def tree : ClassDef where
  name := "orchard.Tree"
  superclass := some "orchard.Plant"
  fields := [⟨"age", .primitive .int, .private⟩, ⟨"fruit", .reference "orchard.Fruit", .private⟩]

def plant : ClassDef where
  name := "orchard.Plant"
  superclass := some "runtime.Contract"
  fields := [⟨"height", .primitive .float, .protected⟩]

/-- The contract root is seen, and comes to the storage root through another class. -/
def contract : ClassDef where
  name := "runtime.Contract"
  superclass := some "runtime.Ledger"

def ledger : ClassDef where
  name := "runtime.Ledger"
  superclass := some "runtime.Storage"

def hierarchy : Hierarchy where
  index := ⟨[tree, plant, contract, ledger].map fun c => ⟨c, c.toBytes⟩⟩
  config := {}

/-- Questions about the contract root and about the plants, before the one about the tree. -/
def questions : List Question :=
  [.descent .storage "runtime.Contract", .descent .contract "orchard.Tree",
    .descent .storage "orchard.Plant"]

/-- The levels of a tree end below the contract root. -/
theorem tree_classified : hierarchy.index.get? tree.name = some tree ∧
    tree.name ≠ hierarchy.config.storageRoot ∧
    (do questions.forM (·.ask hierarchy); (Oracle.remembering hierarchy).isStorage tree.name).run'
      {} = .ok true ∧
    ∃ k, hierarchy.classify tree = .ok k ∧
      IsLeast (hierarchy.stepsToRoot tree.name) k.eagerLevels.length := by
  have hanswer : (do
      questions.forM (·.ask hierarchy)
      (Oracle.remembering hierarchy).isStorage tree.name).run' {} = .ok true := by
    decide
  exact ⟨by decide, by decide, hanswer, classify_storage (by decide) (by decide) questions hanswer⟩

end Orchard

end StorageWeave.Weaving
