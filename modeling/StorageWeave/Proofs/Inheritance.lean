import StorageWeave.Proofs.Verdicts

/-!
# Inherited annotations

A method has an annotation at a class if some chain of classes, each a parent of the one before,
leads to a declaration that has it, and no class on the way declares the method so that the search
stops (`Hierarchy.Carries`). Chains are ordered as a depth-first search goes over them: where two
of them part, the superclass comes before the interfaces and these in their order
(`Hierarchy.Earlier`).

Where no class is its own ancestor the remembering oracle finds the annotation of the first such
chain, and none if there is no chain (`inherited_iff_carries`), whatever it was asked before: the
answers that it keeps at the classes on its way are right for every path that comes to them.
-/

namespace StorageWeave.Weaving

open Bytecode

namespace Hierarchy

variable {h : Hierarchy} {kind : String} {ref : MethodRef} {chain chain' : List String}
  {a : Annotation} {x y z : String}

/-! ## Chains -/

/-- The parents of a class in the order of a search. -/
def parents (h : Hierarchy) (x : String) : List String :=
  (h.index.get? x).elim [] fun c => c.superclass.toList ++ c.interfaces

theorem parents_of_get? {c : ClassDef} (hc : h.index.get? x = some c) :
    h.parents x = c.superclass.toList ++ c.interfaces := by
  rw [parents, hc, Option.elim_some]

theorem mem_parents_iff : y ∈ h.parents x ↔ h.Parent x y := by
  unfold parents Parent
  cases h.index.get? x with
  | none => simp
  | some c => simp

/-- A chain of classes from the class of a method to one that declares it with an annotation,
through classes that leave it to their parents. Constructors have a chain of one class only. -/
structure Carries (h : Hierarchy) (kind : String) (ref : MethodRef) (chain : List String)
    (a : Annotation) : Prop where
  head : chain.head? = some ref.owner
  linked : chain.IsChain h.Parent
  passes : ∀ x ∈ chain.dropLast, h.PassesOn kind { ref with owner := x }
  marks : ∃ x, chain.getLast? = some x ∧ h.Marks kind { ref with owner := x } a
  alone : ref.name = constructorName → chain.length = 1

theorem carries_singleton (ha : h.Marks kind ref a) : h.Carries kind ref [ref.owner] a where
  head := rfl
  linked := .singleton _
  passes := by simp
  marks := ⟨ref.owner, rfl, ha⟩
  alone _ := rfl

theorem Carries.exists_eq_cons (hc : h.Carries kind ref chain a) :
    ∃ xs, chain = ref.owner :: xs := by
  cases chain with
  | nil => cases hc.head
  | cons x xs =>
    cases hc.head
    exact ⟨xs, rfl⟩

theorem Carries.cons (hc : h.Carries kind { ref with owner := y } chain a)
    (hpasses : h.PassesOn kind ref) (hname : ref.name ≠ constructorName)
    (hy : h.Parent ref.owner y) : h.Carries kind ref (ref.owner :: chain) a := by
  obtain ⟨ys, rfl⟩ := hc.exists_eq_cons
  refine ⟨rfl, .cons_cons hy hc.linked, ?_, ?_, fun e => absurd e hname⟩
  · rw [List.dropLast_cons_cons]
    exact List.forall_mem_cons.2 ⟨hpasses, hc.passes⟩
  · rw [List.getLast?_cons_cons]
    exact hc.marks

/-- A chain is one class, or goes on from a parent. -/
theorem Carries.cases (hc : h.Carries kind ref chain a) :
    (chain = [ref.owner] ∧ h.Marks kind ref a) ∨
    ∃ y ys, chain = ref.owner :: y :: ys ∧ h.PassesOn kind ref ∧ ref.name ≠ constructorName ∧
      h.Parent ref.owner y ∧ h.Carries kind { ref with owner := y } (y :: ys) a := by
  obtain ⟨hhead, hlinked, hpasses, hmarks, halone⟩ := hc
  rcases chain with _ | ⟨x, _ | ⟨y, ys⟩⟩
  · cases hhead
  · cases hhead
    obtain ⟨x, hx, hmarks⟩ := hmarks
    cases hx
    exact .inl ⟨rfl, hmarks⟩
  · cases hhead
    have hname : ref.name ≠ constructorName := by
      intro hname
      have := halone hname
      simp at this
    rw [List.isChain_cons_cons] at hlinked
    rw [List.dropLast_cons_cons, List.forall_mem_cons] at hpasses
    rw [List.getLast?_cons_cons] at hmarks
    exact .inr ⟨y, ys, rfl, hpasses.1, hname, hlinked.1, rfl, hlinked.2, hpasses.2, hmarks,
      fun e => absurd e hname⟩

/-! ## The order of a search -/

/-- Of two parents of a class one is searched before the other. -/
def Sooner (h : Hierarchy) (x y z : String) : Prop :=
  (h.parents x).idxOf y < (h.parents x).idxOf z

/-- The order in which a depth-first search goes over chains. -/
inductive Earlier (h : Hierarchy) : List String → List String → Prop where
  | stop {x y : String} {ys : List String} : Earlier h [x] (x :: y :: ys)
  | part {x y z : String} {ys zs : List String} (hyz : h.Sooner x y z) :
      Earlier h (x :: y :: ys) (x :: z :: zs)
  | follow {x : String} {ys zs : List String} (hyz : Earlier h ys zs) :
      Earlier h (x :: ys) (x :: zs)

theorem Earlier.asymm (hc : h.Earlier chain chain') : ¬ h.Earlier chain' chain := by
  induction hc with
  | stop =>
    rintro (_ | _ | hzy)
    cases hzy
  | part hyz =>
    rintro (_ | hzy | hzy)
    · exact lt_asymm hyz hzy
    · cases hzy <;> exact lt_irrefl _ hyz
  | follow hyz ih =>
    rintro (_ | hzy | hzy)
    · cases hyz
    · cases hyz <;> exact lt_irrefl _ hzy
    · exact ih hzy

/-- A chain that carries an annotation, before all others. -/
def CarriesFirst (h : Hierarchy) (kind : String) (ref : MethodRef) (chain : List String)
    (a : Annotation) : Prop :=
  h.Carries kind ref chain a ∧
    ∀ chain' a', h.Carries kind ref chain' a' → chain' = chain ∨ h.Earlier chain chain'

/-! ## First chains -/

/-- A class that declares the method with the annotation is a first chain. -/
theorem Marks.carriesFirst (ha : h.Marks kind ref a) : h.CarriesFirst kind ref [ref.owner] a := by
  refine ⟨carries_singleton ha, fun chain' a' hc => ?_⟩
  obtain ⟨rfl, -⟩ | ⟨y, ys, rfl, -⟩ := hc.cases
  · exact .inl rfl
  · exact .inr .stop

/-- Chains from a class that leaves the annotation to its parents go on from one of them. -/
theorem PassesOn.exists_parent (hpasses : h.PassesOn kind ref) (hc : h.Carries kind ref chain a) :
    ∃ y ys, chain = ref.owner :: y :: ys ∧ y ∈ h.parents ref.owner ∧
      h.Carries kind { ref with owner := y } (y :: ys) a := by
  obtain ⟨-, hmarks⟩ | ⟨y, ys, hchain, -, -, hy, hc⟩ := hc.cases
  · exact absurd hmarks (hpasses.not_marks a)
  · exact ⟨y, ys, hchain, mem_parents_iff.2 hy, hc⟩

theorem sooner_of_parents {before after : List String} (hx : h.parents x = before ++ y :: after)
    (hy : y ∉ before) (hz : z ∉ before) (hne : z ≠ y) : h.Sooner x y z := by
  rw [Sooner, hx, List.idxOf_append_of_notMem hy, List.idxOf_append_of_notMem hz,
    List.idxOf_cons_self, List.idxOf_cons_ne _ hne.symm]
  omega

/-- The first chain of the first parent that has one is the first chain of the class. -/
theorem CarriesFirst.cons {before after : List String}
    (hfirst : h.CarriesFirst kind { ref with owner := y } chain a)
    (hparents : h.parents ref.owner = before ++ y :: after)
    (hbefore : ∀ z ∈ before, ∀ chain a, ¬ h.Carries kind { ref with owner := z } chain a)
    (hpasses : h.PassesOn kind ref) (hname : ref.name ≠ constructorName) :
    h.CarriesFirst kind ref (ref.owner :: chain) a := by
  obtain ⟨hcarries, hfirst⟩ := hfirst
  have hy : y ∈ h.parents ref.owner := by simp [hparents]
  refine ⟨hcarries.cons hpasses hname (mem_parents_iff.1 hy), fun chain' a' hc' => ?_⟩
  obtain ⟨z, zs, rfl, hz, hc'⟩ := hpasses.exists_parent hc'
  by_cases hzy : z = y
  · subst hzy
    obtain heq | hearlier := hfirst _ a' hc'
    · exact .inl (congrArg _ heq)
    · exact .inr (.follow hearlier)
  · obtain ⟨ys, rfl⟩ := hcarries.exists_eq_cons
    exact .inr (.part (sooner_of_parents hparents (fun hmem => hbefore y hmem _ _ hcarries)
      (fun hmem => hbefore z hmem _ _ hc') hzy))

/-- A look-up that ends without an annotation has no chain, and one that finds an annotation has it
from the first chain. -/
theorem carries_of_annotationFrom {n : Nat} {r : Option Annotation}
    (hr : h.annotationFrom kind n ref = .ok r) :
    (r = none → ∀ chain a, ¬ h.Carries kind ref chain a) ∧
      ∀ a, r = some a → ∃ chain, h.CarriesFirst kind ref chain a := by
  induction n generalizing ref r with
  | zero => cases hr
  | succ n ih =>
    rw [annotationFrom] at hr
    obtain ⟨a, hmarks, ha⟩ | ⟨hmarks, hpasses, hnone⟩ | ⟨hpasses, hname, c, hc, hparents⟩ :=
      h.annotationAt_spec kind ref
    · rw [ha] at hr
      cases hr
      refine ⟨by simp, fun a ha => ?_⟩
      cases ha
      exact ⟨[ref.owner], hmarks.carriesFirst⟩
    · rw [hnone] at hr
      cases hr
      refine ⟨fun _ chain a hc => ?_, by simp⟩
      obtain ⟨-, hmark⟩ | ⟨y, ys, -, hpasses', hname, -⟩ := hc.cases
      · exact hmarks a hmark
      · exact hname (hpasses hpasses')
    · rw [hparents, ← parents_of_get? hc] at hr
      obtain ⟨rfl, hall⟩ | ⟨b, before, y, after, rfl, hsplit, hbefore, hy⟩ := firstSomeM_eq_ok hr
      · refine ⟨fun _ chain a hc => ?_, by simp⟩
        obtain ⟨y, ys, -, hy, hc⟩ := hpasses.exists_parent hc
        exact (ih (hall y hy)).1 rfl _ _ hc
      · refine ⟨by simp, fun a ha => ?_⟩
        cases ha
        obtain ⟨chain, hfirst⟩ := (ih hy).2 b rfl
        exact ⟨_, hfirst.cons hsplit (fun z hz => (ih (hbefore z hz)).1 rfl) hpasses hname⟩

/-- A look-up that ends finds an annotation exactly if there is a chain. -/
theorem exists_carries_iff {n : Nat} {r : Option Annotation}
    (hr : h.annotationFrom kind n ref = .ok r) :
    (∃ chain a, h.Carries kind ref chain a) ↔ r.isSome := by
  obtain ⟨hnone, hsome⟩ := carries_of_annotationFrom hr
  cases r with
  | none => simpa using hnone rfl
  | some a =>
    obtain ⟨chain, hfirst⟩ := hsome a rfl
    simpa using ⟨chain, a, hfirst.1⟩

theorem Marks.unique {a' : Annotation} (ha : h.Marks kind ref a) (ha' : h.Marks kind ref a') :
    a = a' := by
  obtain ⟨c, d, hc, hd, ha⟩ := ha
  obtain ⟨c', d', hc', hd', ha'⟩ := ha'
  cases hc.symm.trans hc'
  cases hd.symm.trans hd'
  exact Option.some.inj (ha.symm.trans ha')

/-- There is only one first chain, and its last class has only one annotation of the kind. -/
theorem CarriesFirst.unique {a' : Annotation} (hc : h.CarriesFirst kind ref chain a)
    (hc' : h.CarriesFirst kind ref chain' a') : a = a' := by
  have hchain : chain' = chain := by
    obtain heq | hlt := hc.2 chain' a' hc'.1
    · exact heq
    obtain heq | hgt := hc'.2 chain a hc.1
    · exact heq.symm
    · exact absurd hgt hlt.asymm
  subst hchain
  obtain ⟨x, hx, hmarks⟩ := hc.1.marks
  obtain ⟨x', hx', hmarks'⟩ := hc'.1.marks
  cases hx.symm.trans hx'
  exact hmarks.unique hmarks'

end Hierarchy

/-! ## Questions -/

/-- What an oracle is asked. -/
inductive Question where
  | descent (d : Task.Descent) (name : String)
  | annotated (kind : String) (ref : MethodRef)

/-- Asks the remembering oracle, for the answers that it keeps. -/
def Question.ask (h : Hierarchy) : Question → Remembering Unit
  | descent d name => discard (d.ask (.remembering h) name)
  | annotated kind ref => discard <| Oracle.annotation (.remembering h) kind ref

namespace Delivers

variable {h : Hierarchy}

/-- A look-up of the hierarchy that ends gives its answer also to the remembering oracle. -/
theorem inherited {kind : String} {ref : MethodRef} {r : Option Annotation}
    (hr : h.annotation kind ref = .ok r) :
    Delivers h (Memo.inherited h kind ref) (· = r) := by
  intro memo hmemo
  obtain ⟨hrun, hnext⟩ := (Task.answers_annotationFrom hr).run hmemo
  rw [Task.run_annotationFrom kind h.pathBound ref memo, ← Memo.inherited_eq hmemo] at hrun
  rw [Task.run_annotationFrom kind h.pathBound ref memo, ← Memo.inherited_eq hmemo] at hnext
  rcases hfound : (Memo.inherited h kind ref).run memo with e | ⟨answer, memo'⟩
  · rw [hfound] at hrun
    cases hrun
  · rw [hfound] at hrun
    cases hrun
    exact ⟨_, _, rfl, hnext _ hfound, rfl⟩

theorem question (hac : h.Acyclic) (q : Question) : Delivers h (q.ask h) fun _ => True := by
  cases q with
  | descent d name => exact (descent h d name).bind fun _ _ => pure trivial
  | annotated kind ref =>
    obtain ⟨r, hr⟩ := hac.exists_annotation kind ref
    exact (inherited hr).bind fun _ _ => pure trivial

theorem forM {α : Type} {f : α → Remembering Unit} (hf : ∀ a, Delivers h (f a) fun _ => True)
    (as : List α) : Delivers h (as.forM f) fun _ => True := by
  induction as with
  | nil => exact pure trivial
  | cons a as ih => exact (hf a).bind fun _ _ => ih

end Delivers

/-- **Inheriting is path search**, whatever was asked before. -/
theorem inherited_iff_carries {h : Hierarchy} (hac : h.Acyclic) (earlier : List Question)
    (kind : String) (ref : MethodRef) :
    ∃ answer memo,
      (do earlier.forM (·.ask h); Oracle.annotation (.remembering h) kind ref).run {} =
        .ok (answer, memo) ∧
      (answer.isSome ↔ ∃ chain a, h.Carries kind ref chain a) ∧
      ∀ a, answer = some a ↔ ∃ chain, h.CarriesFirst kind ref chain a := by
  obtain ⟨r, hr⟩ := hac.exists_annotation kind ref
  have hasked := (Delivers.forM (.question hac) earlier).bind fun _ _ => .inherited hr
  obtain ⟨answer, memo, hrun, -, rfl⟩ := hasked {} (Memo.consistent_empty h)
  obtain ⟨hnone, hsome⟩ := Hierarchy.carries_of_annotationFrom hr
  refine ⟨answer, memo, hrun, (Hierarchy.exists_carries_iff hr).symm, fun a => ⟨hsome a, ?_⟩⟩
  rintro ⟨chain, hfirst⟩
  rcases hanswer : answer with _ | a'
  · exact absurd hfirst.1 (hnone hanswer chain a)
  · obtain ⟨chain', hfirst'⟩ := hsome a' hanswer
    rw [hfirst.unique hfirst']

/-! ### Two ways to one interface -/

namespace Fair

/-- A payment, as the classes of the fair declare it. -/
def pay (access : Bytecode.Access) (annotations : List Annotation) : MethodDef :=
  { name := "pay", signature := .void, access, annotations }

/-- A stall inherits from a booth that hides its payments, and through two interfaces from a third;
the second one has an annotation of its own. -/
def classes : List ClassDef :=
  [{ name := "fair.Stall", superclass := some "fair.Booth"
     interfaces := ["fair.Seller", "fair.Buyer"], methods := [pay .public []] },
   { name := "fair.Booth", superclass := some "runtime.Contract", interfaces := ["fair.Trader"]
     methods := [pay .private []] },
   { name := "fair.Seller", interfaces := ["fair.Trader"] },
   { name := "fair.Buyer", interfaces := ["fair.Trader"]
     methods := [pay .public [⟨"runtime.Entry", some "fair.Guest"⟩]] },
   { name := "fair.Trader", methods := [pay .public [⟨"runtime.Entry", some "fair.Guild"⟩]] }]

def hierarchy : Hierarchy := ⟨⟨classes.map fun c => ⟨c, c.toBytes⟩⟩, {}⟩

/-- The payment at a class of the fair. -/
def payAt (owner : String) : MethodRef := ⟨owner, "pay", .void⟩

/-- Questions about classes above the stall, and about its own descent. -/
def questions : List Question :=
  [.descent .contract "fair.Stall", .annotated "runtime.Entry" (payAt "fair.Booth"),
    .annotated "runtime.Payable" (payAt "fair.Stall"),
    .annotated "runtime.Entry" (payAt "fair.Buyer")]

theorem acyclic : hierarchy.Acyclic :=
  .of_rank (fun x => if x = "fair.Stall" then 3 else if x = "fair.Trader" then 1 else
    if x = "runtime.Contract" then 0 else 2) (by decide)

/-- The first interface of the stall leads to its annotation. -/
theorem stall_carriesFirst : hierarchy.Acyclic ∧ ∃ chain, hierarchy.CarriesFirst "runtime.Entry"
    (payAt "fair.Stall") chain ⟨"runtime.Entry", some "fair.Guild"⟩ := by
  obtain ⟨answer, memo, hrun, -, hfirst⟩ :=
    inherited_iff_carries acyclic questions "runtime.Entry" (payAt "fair.Stall")
  have hanswer : (StateT.run (do
      questions.forM (·.ask hierarchy)
      Oracle.annotation (.remembering hierarchy) "runtime.Entry" (payAt "fair.Stall")) {}).map
        Prod.fst = .ok (some ⟨"runtime.Entry", some "fair.Guild"⟩) := by
    decide +kernel
  rw [hrun] at hanswer
  exact ⟨acyclic, (hfirst _).1 (Except.ok.inj hanswer)⟩

end Fair

end StorageWeave.Weaving
