import StorageWeave.Proofs.Failures
import StorageWeave.Proofs.Relocation
import StorageWeave.Proofs.Searching

/-!
# Branches in and out of the code

Weaving moves the instructions of a method apart and its branches with them. The woven code is valid
exactly if the code of the method is (`Relocates.validate_iff`), so the check at the end of weaving
is one of the input: it refuses no method with valid code, and lets none pass with a branch out of
its code, wherever that goes (`weaveMethod_branches`).

`passes` is the weaving of code without this check. What it makes is relocated code
(`relocates_passes`), and where it fails for where control goes, a target could not be moved or the
search for a superclass call has no end (`refuses_of_passes`).
-/

namespace StorageWeave

open Bytecode Machine

namespace Weaving

/-! ## Errors about control -/

/-- Whether an error is about where control goes: a branch out of the code, a target that cannot be
moved, or a search for the superclass call that has no end. -/
def WeaveError.isOfControl : WeaveError → Bool
  | .invalidCode _ _ _ => true
  | .targetOverflow _ _ => true
  | .endlessSearch _ _ => true
  | _ => false

theorem WeaveError.isOfControl_of_isOfConstructor {e : WeaveError}
    (he : e.isOfConstructor = true) : e.isOfControl = false := by
  cases e with
  | malformedConstructor | unsupportedControlFlow => rfl
  | _ => cases he

theorem WeaveError.isOfControl_of_isOfClass {e : WeaveError} (he : e.isOfClass = false) :
    e.isOfControl = false := by
  cases e with
  | invalidCode | targetOverflow | endlessSearch => cases he
  | _ => rfl

/-- A computation fails for other reasons than where control goes. -/
abbrev FailsElsewhere {α : Type} (x : Except WeaveError α) : Prop :=
  FailsWith (fun e => e.isOfControl = false) x

theorem Injection.Problem.grows_of_search_eq_none {p : Problem} (h : p.search p.start = none) :
    p.Grows := by
  by_contra hgrows
  obtain ⟨n, r, -, hends⟩ := exists_ends (encloses_below hgrows) p.within_start
  cases h.symm.trans (search_eq_some_iff.2 ⟨n, hends⟩)

namespace MethodWeaver

variable (h : Hierarchy) (c : ClassDef) (m : MethodDef) (role : Role)

theorem lookUp_failsElsewhere (kind : String) (ref : MethodRef) :
    FailsElsewhere (h.annotation kind ref) :=
  fun _ he => WeaveError.isOfControl_of_isOfClass (Hierarchy.isOfClass_of_annotation_error he)

theorem role_failsElsewhere (ref : MethodRef) :
    FailsElsewhere ((Oracle.exact h).role h.config ref) := by
  refine .bind (lookUp_failsElsewhere h _ _) fun _ => .ite (.ok _) ?_
  exact .bind (lookUp_failsElsewhere h _ _) fun _ => .ite (.ok _) (.ok _)

theorem checkEntry_failsElsewhere : FailsElsewhere (checkEntry (.exact h) c m role) := by
  refine .ite (.ok _) (.ite (.error rfl) (.ite (.error rfl) (.ite ?_ (.ok _))))
  exact .bind (.ok _) fun _ => .ite (.error rfl) (.ok _)

theorem accessorOwner_failsElsewhere (owner name : String) (type : FieldType) :
    FailsElsewhere (accessorOwner h (.exact h) c owner name type) := by
  refine .ite (.ok _) (.bind (.ok _) fun _ => .ite (.ok _) ?_)
  split
  · exact .ite (.ok _) (.error rfl)
  · exact .ok _

theorem redirect_failsElsewhere (i : Instruction) :
    FailsElsewhere (redirect h (.exact h) c i) := by
  unfold redirect
  split
  · refine .bind (accessorOwner_failsElsewhere h c _ _ _) fun declaring => ?_
    cases declaring <;> exact .ok _
  · refine .bind (accessorOwner_failsElsewhere h c _ _ _) fun declaring => ?_
    cases declaring <;> exact .ok _
  · exact .ok _

theorem forwarded?_failsElsewhere (i : Instruction) :
    FailsElsewhere (forwarded? h (.exact h) c m i) := by
  unfold forwarded?
  split
  · refine .bind (role_failsElsewhere h _) fun _ => .ite ?_ (.ok _)
    exact .ite (.error rfl) (.ok _)
  · exact .ok _

variable {h c m role} {e : WeaveError} {code body : Code}

/-- The superclass call of a constructor is searched without end in a body. -/
structure SearchesEndlessly (c : ClassDef) (m : MethodDef) (body : Code) : Prop where
  constructor : m.isConstructor = true
  grows : ∃ s, c.superclass = some s ∧ body[0]? = some .loadThis ∧
    (⟨c.name, m.name, body.toArray, s, m.firstFreeSlot.toUInt16⟩ : Injection.Problem).Grows

/-- What the passes over the code of a method fail with: an error elsewhere, a target that a load or
the prologue cannot move, or a search for the superclass call without an end. -/
inductive Refuses (h : Hierarchy) (c : ClassDef) (m : MethodDef) (role : Role) (code : Code) :
    WeaveError → Prop
  | elsewhere {e : WeaveError} : e.isOfControl = false → Refuses h c m role code e
  | load {redirected : Code} {calls : List (Option Instruction)} :
      code.mapM (redirect h (.exact h) c) = .ok redirected →
      redirected.mapM (forwarded? h (.exact h) c m) = .ok calls →
      forwardCalls? redirected calls = none →
      Refuses h c m role code (.targetOverflow c.name m.name)
  | prologue {redirected body : Code} {position : Nat} {expected : Option String} :
      code.mapM (redirect h (.exact h) c) = .ok redirected →
      forward h (.exact h) c m redirected = .ok body →
      (prologuePosition c m m.firstFreeSlot.toUInt16 body : Except WeaveError Nat) =
        .ok position →
      Code.insert? body position (prologueCode h m.firstFreeSlot.toUInt16 expected
        (amountType? m role)) false = none →
      Refuses h c m role code (.targetOverflow c.name m.name)
  | search {redirected body : Code} :
      role.isEntry = true →
      code.mapM (redirect h (.exact h) c) = .ok redirected →
      forward h (.exact h) c m redirected = .ok body →
      SearchesEndlessly c m body →
      Refuses h c m role code (.endlessSearch c.name m.name)

theorem prologuePosition_eq_error
    (he : (prologuePosition c m m.firstFreeSlot.toUInt16 body : Except WeaveError Nat) =
      .error e) :
    e.isOfControl = false ∨ e = .endlessSearch c.name m.name ∧ SearchesEndlessly c m body := by
  unfold prologuePosition at he
  split at he
  · next hconstructor =>
    split at he
    · cases he
      exact .inl rfl
    · next s hs =>
      rw [ofExcept_eq] at he
      refine (Injection.Problem.find_eq_error he).imp WeaveError.isOfControl_of_isOfConstructor ?_
      rintro ⟨he, hfirst, hnone⟩
      exact ⟨he, hconstructor, s, hs, by simpa using hfirst,
        Injection.Problem.grows_of_search_eq_none hnone⟩
  · cases he

theorem refuses_of_injectPrologue {redirected : Code} (hentry : role.isEntry = true)
    (hredirected : code.mapM (redirect h (.exact h) c) = .ok redirected)
    (hbody : forward h (.exact h) c m redirected = .ok body)
    (he : injectPrologue h (.exact h) c m role body = .error e) : Refuses h c m role code e := by
  obtain he | ⟨slot, hslot, he⟩ := bind_eq_error.1 he
  · unfold callerSlot at he
    split at he <;> cases he
    exact .elsewhere rfl
  obtain ⟨-, rfl⟩ := callerSlot_eq_ok hslot
  obtain he | ⟨position, hposition, he⟩ := bind_eq_error.1 he
  · obtain he | ⟨rfl, hsearches⟩ := prologuePosition_eq_error he
    · exact .elsewhere he
    · exact .search hentry hredirected hbody hsearches
  obtain he | ⟨expected, -, he⟩ := bind_eq_error.1 he
  · obtain he | ⟨_, -, he⟩ := bind_eq_error.1 he
    · exact .elsewhere (lookUp_failsElsewhere h _ _ e he)
    · cases he
  dsimp only at he
  split at he
  · cases he
  · next hinsert =>
    cases he
    exact .prologue hredirected hbody hposition hinsert

/-- **What the passes fail with**, and where. -/
theorem refuses_of_passes (he : passes h c m role code = .error e) : Refuses h c m role code e := by
  obtain he | ⟨redirected, hredirected, he⟩ := bind_eq_error.1 he
  · exact .elsewhere (FailsWith.mapM (redirect_failsElsewhere h c) code e he)
  obtain he | ⟨body, hbody, he⟩ := bind_eq_error.1 he
  · obtain he | ⟨calls, hcalls, he⟩ := bind_eq_error.1 he
    · exact .elsewhere (FailsWith.mapM (forwarded?_failsElsewhere h c m) redirected e he)
    split at he
    · cases he
    · next hnone =>
      cases he
      exact .load hredirected hcalls hnone
  split at he
  · next hentry =>
    obtain he | ⟨⟨woven, prologue⟩, -, he⟩ := bind_eq_error.1 he
    · exact refuses_of_injectPrologue hentry hredirected hbody he
    · cases he
  · cases he

end MethodWeaver

/-! ## The check -/

namespace Hierarchy.Relocates

variable {h : Hierarchy} {code block woven : Code} {f : Nat → Nat} {position : Nat}

/-- The instructions of the code stand in the relocated one. -/
theorem lt_length (hr : h.Relocates code f position block woven) {b : Nat} (hb : b < code.length) :
    f b < woven.length :=
  (List.getElem?_eq_some_iff.1 (hr.getElem? b _ (List.getElem?_eq_getElem hb))).1

/-- A branch is one of the code, or its instruction comes from the weaver and has none. -/
theorem exists_of_mem_targets (hr : h.Relocates code f position block woven)
    (hblock : ∀ i ∈ block, i.targets = []) {i : Instruction} (hi : i ∈ woven) {t : Target}
    (ht : t ∈ i.targets) :
    ∃ i₀ ∈ code, ∃ t₀ ∈ i₀.targets, t.toNat = Code.landing h.handsOn code f t₀.toNat := by
  obtain ⟨n, hn⟩ := List.mem_iff_getElem?.1 hi
  have hlt : n < woven.length := (List.getElem?_eq_some_iff.1 hn).1
  by_cases hexists : ∃ b < code.length, f b = n
  · obtain ⟨b, hb, rfl⟩ := hexists
    have hi₀ := List.getElem?_eq_getElem hb
    rw [hr.getElem? b _ hi₀, Option.some.injEq] at hn
    rw [← hn, Instruction.targets_mapTargets, targets_passed] at ht
    obtain ⟨t₀, ht₀, rfl⟩ := List.mem_map.1 ht
    have hmem := List.mem_of_getElem? hi₀
    exact ⟨_, hmem, t₀, ht₀, Code.toNat_toUInt64 (hr.fits _ hmem t₀ ht₀)⟩
  · have hplain : i.targets = [] := by
      obtain ⟨b, i', hb, hi', hload⟩ | ⟨hle, hlt'⟩ :=
        (hr.outside n hlt).1 fun b hb hfb => hexists ⟨b, hb, hfb⟩
      · have hthis := (hr.load b i' hb hi').2
        rw [hload, Nat.add_sub_cancel, hn] at hthis
        rw [Option.some.inj hthis]
        rfl
      · have hget := hr.placed.getElem? (show n - position < block.length by omega)
        rw [Nat.add_sub_cancel' hle, hn] at hget
        exact hblock i (List.mem_of_getElem? hget.symm)
    rw [hplain] at ht
    cases ht

/-- **Relocated code is valid** exactly if the code is. -/
theorem validate_iff (hr : h.Relocates code f position block woven)
    (hblock : ∀ i ∈ block, i.targets = []) :
    Code.validate woven = .ok () ↔ Code.validate code = .ok () := by
  constructor
  · intro hvalid
    exact Code.validate_of_targets (hr.targets_lt hvalid)
  · intro hvalid
    refine Code.validate_of_targets fun i hi t ht => ?_
    obtain ⟨i₀, hi₀, t₀, ht₀, ht⟩ := hr.exists_of_mem_targets hblock hi ht
    have hlt := hr.lt_length (Code.targets_of_validate hvalid i₀ hi₀ t₀ ht₀)
    rw [ht, Code.landing]
    split <;> omega

end Hierarchy.Relocates

open MethodWeaver

variable {h : Hierarchy} {c : ClassDef} {m : MethodDef} {code : Code}

/-- **A method is refused** elsewhere, by the check of its branches, or in the passes over its
code. -/
theorem MethodWeaver.weave_eq_error {e : WeaveError} (he : weave h (.exact h) c m = .error e) :
    e.isOfControl = false ∨ ∃ role code,
      (Oracle.exact h).role h.config ⟨c.name, m.name, m.signature⟩ = .ok role ∧
        m.code = some code ∧
        ((∃ cause, e = .invalidCode c.name m.name cause ∧ Code.validate code ≠ .ok ()) ∨
          passes h c m role code = .error e) := by
  obtain he | ⟨role, hrole, he⟩ := bind_eq_error.1 he
  · exact .inl (role_failsElsewhere h _ e he)
  obtain he | ⟨⟨⟩, -, he⟩ := bind_eq_error.1 he
  · exact .inl (checkEntry_failsElsewhere h c m role e he)
  rcases hcode : m.code with _ | code
  · simp only [hcode] at he
    cases he
  simp only [hcode] at he
  refine .inr ⟨role, code, hrole, rfl, ?_⟩
  obtain he | ⟨r, -, he⟩ := bind_eq_error.1 he
  · rw [weaveCode_eq_passes] at he
    obtain he | ⟨r, hr, he⟩ := bind_eq_error.1 he
    · exact .inr he
    · obtain ⟨f, position, block, hrelocates, hblock⟩ := relocates_passes hr
      obtain he | ⟨_, -, he⟩ := bind_eq_error.1 he
      · unfold checkCode at he
        split at he
        · cases he
        · next cause hinvalid =>
          cases he
          refine .inl ⟨cause, rfl, fun hvalid => ?_⟩
          rw [(hrelocates.validate_iff hblock).2 hvalid] at hinvalid
          cases hinvalid
      · cases he
  · cases he

theorem MethodWeaver.validate_of_weave {w : WovenMethod} (hcode : m.code = some code)
    (hw : weave h (.exact h) c m = .ok w) : Code.validate code = .ok () := by
  obtain ⟨role, code', -, -, -, hwoven⟩ := weave_eq_ok hw
  rw [hcode] at hwoven
  cases hwoven with
  | some hpassed =>
    obtain ⟨prologue, hpasses, hvalid⟩ := hpassed
    obtain ⟨f, position, block, hrelocates, hblock⟩ := relocates_passes hpasses
    exact (hrelocates.validate_iff hblock).1 hvalid

/--
**The branches of a method decide the check.** A method with valid code is never refused because of
invalid code, and one with a branch out of its code is never woven.
-/
theorem weaveMethod_branches (hcode : m.code = some code) :
    (Code.validate code = .ok () → ∀ className method cause,
      weaveMethod h c m ≠ .error (.invalidCode className method cause)) ∧
    ((∃ i ∈ code, ∃ t ∈ i.targets, code.length ≤ t.toNat) →
      ∀ w, weaveMethod h c m ≠ .ok w) := by
  constructor
  · intro hvalid className method cause he
    obtain ⟨e', he', halike⟩ := exists_of_weaveMethod_eq_error he
    obtain rfl := halike.eq (.inl rfl)
    obtain hother | ⟨role, code', -, hcode', ⟨_, -, hinvalid⟩ | hpasses⟩ := weave_eq_error he'
    · cases hother
    · cases hcode.symm.trans hcode'
      exact hinvalid hvalid
    · cases refuses_of_passes hpasses with
      | elsewhere hother => cases hother
  · rintro ⟨i, hi, t, ht, hout⟩ w hw
    have hvalid := validate_of_weave hcode (weaveMethod_exact hw)
    exact Nat.not_lt.2 hout (Code.targets_of_validate hvalid i hi t ht)

namespace Stall

/-- A method that leaves its code by the longest branch. -/
def stray : MethodDef where
  name := "stray"
  signature := .void
  code := some [.goto 0xFFFFFFFFFFFFFFFF, .return none]

/-- The constructor with branches around its calls passes the check, and the stray method does
not. -/
theorem stray_not_woven :
    (Code.validate openCode = .ok () ∧ ∀ className method cause,
      weaveMethod hierarchy stall construct ≠ .error (.invalidCode className method cause)) ∧
    ∀ w, weaveMethod hierarchy stall stray ≠ .ok w :=
  ⟨⟨rfl, (weaveMethod_branches rfl).1 rfl⟩,
    (weaveMethod_branches rfl).2 ⟨_, List.mem_cons_self, _, List.mem_cons_self, by decide⟩⟩

end Stall

end Weaving

end StorageWeave
