import StorageWeave.Proofs.Inheritance

/-!
# Look-ups around cycles

A look-up of an annotation goes on from a class to its parents, one after the other until one of
them has the annotation (`Hierarchy.Enters`). It remembers an answer only when it has it, so nothing
stops it at a class that it is still looking at: the look-up ends exactly if its steps do not come
back to such a class (`lookUp_ends_iff`). Classes may lie on a cycle that a look-up does not go
around, when a declaration stops it or an annotation is found before.
-/

namespace StorageWeave.Weaving

open Bytecode
open Relation (ReflTransGen TransGen)

namespace Hierarchy

variable {h : Hierarchy} {kind name : String} {signature : Signature} {x y z : String}

/-! ## The steps of a look-up -/

/-- The look-up of a method at a class goes on to a parent: the class leaves the annotation to its
parents, and those that are searched sooner do not have it. -/
structure Enters (h : Hierarchy) (kind name : String) (signature : Signature) (x y : String) :
    Prop where
  passes : h.PassesOn kind ⟨x, name, signature⟩
  inherited : name ≠ constructorName
  parent : h.Parent x y
  sooner : ∀ z, h.Sooner x z y → ∀ chain a, ¬ h.Carries kind ⟨z, name, signature⟩ chain a

theorem mem_of_sooner {before after : List String} (hx : h.parents x = before ++ y :: after)
    (hz : h.Sooner x z y) : z ∈ before := by
  by_contra hmem
  rw [Sooner, hx, List.idxOf_append_of_notMem hmem] at hz
  have hy : (before ++ y :: after).idxOf y ≤ before.length := by
    by_cases hy : y ∈ before
    · rw [List.idxOf_append_of_mem hy]
      exact List.idxOf_le_length
    · rw [List.idxOf_append_of_notMem hy, List.idxOf_cons_self, Nat.add_zero]
  omega

/-- A look-up that fails has gone on to a parent where it fails. -/
theorem exists_enters_of_error {n : Nat} {e : WeaveError}
    (herr : h.annotationFrom kind (n + 1) ⟨x, name, signature⟩ = .error e) :
    (h.index.get? x).isSome ∧ ∃ y, h.Enters kind name signature x y ∧
      ∃ e', h.annotationFrom kind n ⟨y, name, signature⟩ = .error e' := by
  obtain ⟨hpasses, hname, c, before, y, after, hc, hsplit, hbefore, hy⟩ :=
    annotationAt_eq_error herr
  have hparents := (parents_of_get? hc).trans hsplit
  refine ⟨Option.isSome_of_eq_some hc, y, ⟨hpasses, hname, ?_, fun z hz => ?_⟩, e, hy⟩
  · exact ⟨c, hc, by simp [hsplit]⟩
  · exact (carries_of_annotationFrom (hbefore z (mem_of_sooner hparents hz))).1 rfl

/-- Where a look-up ends, it ends on shorter paths at the parents that it goes on to. -/
theorem Enters.exists_ok {n : Nat} {r : Option Annotation}
    (hxy : h.Enters kind name signature x y)
    (hr : h.annotationFrom kind n ⟨x, name, signature⟩ = .ok r) :
    ∃ m < n, ∃ r', h.annotationFrom kind m ⟨y, name, signature⟩ = .ok r' := by
  obtain ⟨hpasses, hname, hparent, hsooner⟩ := hxy
  cases n with
  | zero => cases hr
  | succ n =>
    refine ⟨n, Nat.lt_succ_self n, ?_⟩
    rw [annotationFrom] at hr
    obtain ⟨a, hmarks, -⟩ | ⟨-, hstop, -⟩ | ⟨-, -, c, hc, hparents⟩ :=
      h.annotationAt_spec kind ⟨x, name, signature⟩
    · exact absurd hmarks (hpasses.not_marks a)
    · exact absurd (hstop hpasses) hname
    rw [hparents, ← parents_of_get? hc] at hr
    obtain ⟨-, hall⟩ | ⟨b, before, z, after, -, hsplit, hbefore, hz⟩ := firstSomeM_eq_ok hr
    · exact ⟨none, hall y (mem_parents_iff.2 hparent)⟩
    by_cases hmem : y ∈ before
    · exact ⟨none, hbefore y hmem⟩
    by_cases hyz : y = z
    · exact ⟨some b, hyz ▸ hz⟩
    -- the annotation would have been found before
    obtain ⟨chain, hcarries, -⟩ := (carries_of_annotationFrom hz).2 b rfl
    have hnew : z ∉ before := by
      intro hmem
      cases hz.symm.trans (hbefore z hmem)
    exact absurd hcarries (hsooner z (sooner_of_parents hsplit hnew hmem hyz) chain b)

/-- Each step needs one class less. -/
theorem exists_ok_of_transGen {n : Nat} {r : Option Annotation}
    (hxy : TransGen (h.Enters kind name signature) x y)
    (hr : h.annotationFrom kind n ⟨x, name, signature⟩ = .ok r) :
    ∃ m < n, ∃ r', h.annotationFrom kind m ⟨y, name, signature⟩ = .ok r' := by
  induction hxy with
  | single hxy => exact hxy.exists_ok hr
  | tail _ hyz ih =>
    obtain ⟨m, hm, r', hr'⟩ := ih
    obtain ⟨k, hk, hend⟩ := hyz.exists_ok hr'
    exact ⟨k, hk.trans hm, hend⟩

/-- A look-up that ends does not come back to a class that it is still looking at. -/
theorem not_transGen_enters {n : Nat} {r : Option Annotation}
    (hr : h.annotationFrom kind n ⟨x, name, signature⟩ = .ok r) :
    ¬ TransGen (h.Enters kind name signature) x x := by
  intro hcycle
  induction n using Nat.strong_induction_on generalizing r with
  | h n ih =>
    obtain ⟨m, hm, r', hr'⟩ := exists_ok_of_transGen hcycle hr
    exact ih m hm hr'

/-- **A look-up of the hierarchy ends** exactly if its steps do not come back. -/
theorem exists_annotation_iff (kind : String) (ref : MethodRef) :
    (∃ a, h.annotation kind ref = .ok a) ↔
      ∀ z, ReflTransGen (h.Enters kind ref.name ref.signature) ref.owner z →
        ¬ TransGen (h.Enters kind ref.name ref.signature) z z := by
  constructor
  · rintro ⟨a, ha⟩ z hz
    obtain rfl | hz := Relation.reflTransGen_iff_eq_or_transGen.1 hz
    · exact not_transGen_enters ha
    · obtain ⟨m, -, r, hr⟩ := exists_ok_of_transGen hz ha
      exact not_transGen_enters hr
  · intro hno
    exact exists_annotation_of_steps exists_enters_of_error hno

end Hierarchy

/-! ## Look-ups without a bound -/

/-- Having the results of a computation that does not fail. -/
def someOfOk : Correspondence (Except WeaveError) Option where
  Rel x y := ∀ a, x = .ok a → y = some a
  pure _ _ ha := congrArg some (Except.ok.inj ha)
  bind {α β} {x y f g} hxy hfg b hb := by
    obtain ⟨a, ha, hb⟩ := bind_eq_ok.1 hb
    rw [hxy a ha]
    exact hfg a b hb

namespace Memo

variable {h : Hierarchy} {kind : String} {ref : MethodRef} {memo : Memo}
  {r : Option Annotation × Memo}

/-- What is found on short paths is found without a bound. -/
theorem lookUp_of_annotationFrom {n : Nat}
    (hr : (annotationFrom h kind n ref).run memo = .ok r) : lookUp h kind ref memo = some r := by
  induction n generalizing ref memo r with
  | zero => cases hr
  | succ n ih =>
    rw [lookUp]
    exact consult_rel someOfOk (fun ref memo r => ih) h kind ref memo r hr

/-- **The remembering oracle** has the results of the look-ups that end. -/
theorem inherited_eq_ok_iff :
    (inherited h kind ref).run memo = .ok r ↔ lookUp h kind ref memo = some r := by
  change inherited h kind ref memo = .ok r ↔ _
  unfold inherited
  split
  · next r' hr' =>
    rw [lookUp_of_annotationFrom hr', Except.ok.injEq, Option.some.injEq]
  · cases lookUp h kind ref memo with
    | none => simp
    | some r' => simp

/-- From a consistent memo a look-up ends if it ends in the hierarchy. -/
theorem Consistent.exists_lookUp_iff (hmemo : memo.Consistent h) (kind : String)
    (ref : MethodRef) :
    (∃ r, lookUp h kind ref memo = some r) ↔ ∃ a, h.annotation kind ref = .ok a := by
  constructor
  · rintro ⟨r, hr⟩
    obtain ⟨-, n, hn⟩ := Sound.lookUp hmemo hr
    exact ⟨r.1, Hierarchy.annotation_of_annotationFrom hn⟩
  · rintro ⟨a, ha⟩
    obtain ⟨answer, memo', hrun, -⟩ := Delivers.inherited ha memo hmemo
    exact ⟨(answer, memo'), inherited_eq_ok_iff.1 hrun⟩

end Memo

namespace Sound

variable {h : Hierarchy}

theorem question (q : Question) : Sound h (q.ask h) fun _ => True := by
  cases q with
  | descent d name =>
    cases d with
    | storage => exact (isStorage name).bind fun _ _ => pure trivial
    | contract => exact (isContract name).bind fun _ _ => pure trivial
  | annotated kind ref => exact (inherited kind ref).bind fun _ _ => pure trivial

theorem questions (qs : List Question) : Sound h (qs.forM (·.ask h)) fun _ => True := by
  induction qs with
  | nil => exact pure trivial
  | cons q qs ih => exact (question q).bind fun _ _ => ih

end Sound

/-- **A look-up ends** exactly if it does not come back to a class that it is still looking at,
whatever was asked before. -/
theorem lookUp_ends_iff {h : Hierarchy} {earlier : List Question} {memo : Memo}
    (hearlier : (earlier.forM (·.ask h)).run {} = .ok ((), memo)) (kind : String)
    (ref : MethodRef) :
    ((∃ r, Memo.lookUp h kind ref memo = some r) ↔
      ∀ z, ReflTransGen (h.Enters kind ref.name ref.signature) ref.owner z →
        ¬ TransGen (h.Enters kind ref.name ref.signature) z z) ∧
    ((∀ z, h.Inherits ref.owner z → ¬ TransGen h.Parent z z) →
      ∃ r, Memo.lookUp h kind ref memo = some r) ∧
    ∀ r, Oracle.annotation (.remembering h) kind ref memo = .ok r ↔
      Memo.lookUp h kind ref memo = some r := by
  obtain ⟨hmemo, -⟩ := Sound.questions earlier {} () memo (Memo.consistent_empty h) hearlier
  have hends := (hmemo.exists_lookUp_iff kind ref).trans (Hierarchy.exists_annotation_iff kind ref)
  refine ⟨hends, fun hno => hends.2 fun z hz hcycle => ?_, fun r => Memo.inherited_eq_ok_iff⟩
  have hparent : h.Enters kind ref.name ref.signature ≤ h.Parent := fun _ _ => (·.parent)
  exact hno z (ReflTransGen.mono hparent _ _ hz) (TransGen.mono hparent _ _ hcycle)

/-! ### Two classes that extend each other -/

namespace Coop

/-- The egg comes first where a method that it declares is looked up. -/
def classes : List ClassDef :=
  [{ name := "farm.Chicken", superclass := some "farm.Egg" },
   { name := "farm.Egg", superclass := some "farm.Chicken"
     methods := [{ name := "crack", signature := .void
                   annotations := [⟨"runtime.Entry", none⟩] }] }]

def hierarchy : Hierarchy := ⟨⟨classes.map fun c => ⟨c, c.toBytes⟩⟩, {}⟩

/-- A method without parameters of the chicken. -/
def method (name : String) : MethodRef := ⟨"farm.Chicken", name, .void⟩

def earlier : List Question := [.descent .storage "farm.Chicken"]

/-- What is remembered of the earlier question. -/
def memo : Memo := { storage := (Table.set {} "farm.Egg" false).set "farm.Chicken" false }

/-- A look-up that is answered by the egg does not go around the cycle. -/
theorem crack_ends : (earlier.forM (·.ask hierarchy)).run {} = .ok ((), memo) ∧
    ∀ z, ReflTransGen (hierarchy.Enters "runtime.Entry" "crack" .void) "farm.Chicken" z →
      ¬ TransGen (hierarchy.Enters "runtime.Entry" "crack" .void) z z := by
  have hearlier : (earlier.forM (·.ask hierarchy)).run {} = .ok ((), memo) := by
    decide +kernel
  obtain ⟨hends, -, horacle⟩ := lookUp_ends_iff hearlier "runtime.Entry" (method "crack")
  obtain ⟨r, hr⟩ : ∃ r, Oracle.annotation (.remembering hierarchy) "runtime.Entry" (method "crack")
      memo = .ok r :=
    exists_eq_ok_of_isOk (by decide +kernel)
  exact ⟨hearlier, hends.1 ⟨r, (horacle r).1 hr⟩⟩

/-- A look-up that neither class answers goes around for ever. -/
theorem hatch_endless : Memo.lookUp hierarchy "runtime.Entry" (method "hatch") {} = none := by
  rw [Option.eq_none_iff_forall_ne_some]
  intro r hr
  obtain ⟨a, ha⟩ := ((Memo.consistent_empty hierarchy).exists_lookUp_iff _ _).1 ⟨r, hr⟩
  have herr : hierarchy.annotation "runtime.Entry" (method "hatch") =
      .error (.endlessLookup "farm.Egg" "hatch") := by
    decide +kernel
  rw [ha] at herr
  cases herr

end Coop

end StorageWeave.Weaving
