import StorageWeave.Proofs.Searching

/-!
# Runs to a return

A run of the machine of positions and heights that comes to a return or a throw cannot stay where
the search goes, for the search allows neither. So it makes the superclass call that the search has
found, with nothing left on the stack (`exists_callsSuper`).

The first time that it comes to that call may not be a nested one, that leaves something on the
stack. For then the search has gone on behind the call at a greater height, and goes along with the
rest of the run at that height, up to the return (`not_reachable_raised`).
-/

namespace StorageWeave

open Bytecode Weaving

namespace Weaving.Injection

/-- A run, visit by visit, that is completed by a return or a throw. -/
inductive Completes (code : Array Instruction) : List Visit → Prop
  | exit {v : Visit} {i : Instruction} : Executes code v i →
      ((∃ kind, i = .return kind) ∨ i = .throw) → Completes code [v]
  | move {v w : Visit} {run : List Visit} : Moves code v w → Completes code (w :: run) →
      Completes code (v :: w :: run)

namespace Problem

variable {p : Problem} {v w : Visit} {run : List Visit}

theorem Fits.allows (h : p.Fits v) {i : Instruction} (hi : p.code[v.position]? = some i) :
    p.Allows i := by
  obtain ⟨j, hj, hallows, -⟩ := h
  cases hj.unique hi
  exact hallows

theorem Fits.not_exit (h : p.Fits v) {i : Instruction} (hi : Executes p.code v i) :
    ¬ ((∃ kind, i = .return kind) ∨ i = .throw) := by
  have hallows := (h.allows hi.present).2
  rintro (⟨kind, rfl⟩ | rfl) <;> exact hallows trivial

/-- A move from a visit of the search goes on with the search, or is the superclass call. -/
theorem Fits.callsSuper_or_leads (h : p.Fits v) (hmove : Moves p.code v w) :
    p.CallsSuper v ∨ p.Leads v w := by
  obtain ⟨i, hi, hcontinues, hheight⟩ := hmove
  obtain ⟨j, hj, hallows, hcall⟩ := h
  cases hi.unique hj.present
  rcases Nat.eq_zero_or_pos (v.after i) with hempty | hpos
  · exact .inl ⟨i, hi, hallows, hempty, hcall hempty⟩
  · exact .inr ⟨i, hi, hallows, hpos, hcontinues, hheight⟩

/-- **A completed run makes the superclass call** with nothing left on the stack, and until then it
makes visits of the search. -/
theorem exists_callsSuper (hfits : ∀ v, p.Reachable v → p.Fits v) (hv : p.Reachable v)
    (h : Completes p.code (v :: run)) :
    ∃ before u after, v :: run = before ++ u :: after ∧ p.Reachable u ∧ p.CallsSuper u ∧
      Completes p.code (u :: after) ∧ ∀ w ∈ before, p.Reachable w ∧ ∃ w', p.Leads w w' := by
  induction run generalizing v with
  | nil =>
    cases h with
    | exit hi hexit => exact absurd hexit ((hfits v hv).not_exit hi)
  | cons w run ih =>
    cases h with
    | move hmove hrest =>
      rcases (hfits v hv).callsSuper_or_leads hmove with hcall | hleads
      · exact ⟨[], v, w :: run, rfl, hv, hcall, .move hmove hrest, by simp⟩
      · obtain ⟨before, u, after, heq, hu, hcall, hcompletes, hbefore⟩ := ih (hv.next hleads) hrest
        refine ⟨v :: before, u, after, by rw [heq, List.cons_append], hu, hcall, hcompletes, ?_⟩
        intro x hx
        rcases List.mem_cons.1 hx with rfl | hx
        · exact ⟨hv, w, hleads⟩
        · exact hbefore x hx

/-- The search does not come to the beginning of a completed run at a greater height: it would go
along with the run to its return. -/
theorem not_reachable_raised (hfits : ∀ v, p.Reachable v → p.Fits v)
    (h : Completes p.code (v :: run)) {d : Nat} (hd : 0 < d) : ¬ p.Reachable (v.raised d) := by
  induction run generalizing v with
  | nil =>
    intro hv
    cases h with
    | exit hi hexit => exact (hfits _ hv).not_exit (hi.raised d) hexit
  | cons w run ih =>
    intro hv
    cases h with
    | move hmove hrest =>
      exact ih hrest (hv.next (hmove.leads_raised (fun _ hi => (hfits _ hv).allows hi) hd))

/-- Behind a superclass call that empties the stack, a run goes on with nothing on it. -/
theorem CallsSuper.exists_next (h : p.CallsSuper v) (hrun : Completes p.code (v :: run)) :
    ∃ rest, Completes p.code (⟨v.position + 1, 0⟩ :: rest) := by
  obtain ⟨i, hi, hallows, hempty, hcall⟩ := h
  obtain ⟨signature, rfl⟩ := eq_of_isConstructorCallOf hcall
  cases hrun with
  | exit hj hexit =>
    cases hi.unique hj.present
    rcases hexit with ⟨kind, hexit⟩ | hexit <;> cases hexit
  | @move _ w rest hmove hrest =>
    obtain ⟨j, hj, hcontinues, hheight⟩ := hmove
    cases hi.unique hj.present
    have hposition : w.position = v.position + 1 := hcontinues
    obtain rfl : w = ⟨v.position + 1, 0⟩ :=
      congrArg₂ Visit.mk hposition (hheight.trans hempty)
    exact ⟨rest, hrest⟩

/-- From a nested superclass call the search goes on behind it, with something on the stack. -/
theorem exists_reachable_behind (hv : p.Reachable v) (hleads : ∃ w, p.Leads v w)
    {i : Instruction} (hi : p.code[v.position]? = some i)
    (hcall : i.isConstructorCallOf p.superclass = true) :
    ∃ height, 0 < height ∧ p.Reachable ⟨v.position + 1, height⟩ := by
  obtain ⟨w, j, hj, hallows, hpos, hcontinues, hheight⟩ := hleads
  cases hj.unique hi
  obtain ⟨signature, rfl⟩ := eq_of_isConstructorCallOf hcall
  exact ⟨v.after _, hpos, hv.next ⟨_, hj, hallows, hpos, rfl, rfl⟩⟩

/--
**The position found is sound for complete runs.** Every run from the first instruction and the
empty stack to a return or throw executes the instruction before the position. The first time that
it does, this is the superclass call with nothing left on the stack, and up to then the run has
executed no instruction that writes the slot of the caller, and no switch, return or throw.
-/
theorem complete_run_constructs {position : Nat} (hfind : p.find = .ok position)
    (hrun : Completes p.code (⟨0, 0⟩ :: run)) :
    ∃ before v after i, ⟨0, 0⟩ :: run = before ++ v :: after ∧ v.position + 1 = position ∧
      (∀ u ∈ before, u.position + 1 ≠ position) ∧
      Executes p.code v i ∧ i.isConstructorCallOf p.superclass = true ∧ v.after i = 0 ∧
      ∀ u ∈ before ++ [v], ∀ j, p.code[u.position]? = some j →
        p.callerSlot ∉ j.storedSlots ∧ ¬ j.IsSwitchOrExit := by
  obtain ⟨hreceiver, -, hfits, call, rfl, hcalls⟩ := accepts_of_find hfind
  -- the receiver is loaded first
  obtain ⟨rest, rfl, hrest⟩ : ∃ rest, run = ⟨1, 1⟩ :: rest ∧
      Completes p.code (⟨1, 1⟩ :: rest) := by
    cases hrun with
    | exit hi hexit =>
      cases hi.unique hreceiver
      rcases hexit with ⟨kind, hexit⟩ | hexit <;> cases hexit
    | @move _ w rest hmove hrest =>
      obtain ⟨i, hi, hcontinues, hheight⟩ := hmove
      cases hi.unique hreceiver
      have hposition : w.position = 1 := hcontinues
      have hone : w.height = 1 := hheight
      obtain rfl : w = ⟨1, 1⟩ := congrArg₂ Visit.mk hposition hone
      exact ⟨rest, rfl, hrest⟩
  obtain ⟨before, u, after, heq, hu, hcall, hcompletes, hbefore⟩ :=
    exists_callsSuper hfits .refl hrest
  have hposition : u.position = call := (hcalls _).1 ⟨u.height, hu, hcall⟩
  obtain ⟨behind, hbehind⟩ := hcall.exists_next hcompletes
  obtain ⟨i, hi, hallows, hempty, hconstructs⟩ := hcall
  refine ⟨⟨0, 0⟩ :: before, u, after, i, by rw [heq, List.cons_append], by rw [hposition], ?_, hi,
    hconstructs, hempty, ?_⟩
  · intro x hx hsame
    have hx' : x.position = u.position := by omega
    rcases List.mem_cons.1 hx with rfl | hx
    · rw [show (0 : Nat) = u.position from hx', hi.present] at hreceiver
      cases hreceiver
      cases hconstructs
    · obtain ⟨hreachable, hleads⟩ := hbefore x hx
      obtain ⟨height, hpos, habove⟩ :=
        exists_reachable_behind hreachable hleads (hx' ▸ hi.present) hconstructs
      rw [hx'] at habove
      refine not_reachable_raised hfits hbehind hpos ?_
      simpa [Visit.raised] using habove
  · intro x hx j hj
    rw [List.cons_append, List.mem_cons, List.mem_append, List.mem_singleton] at hx
    rcases hx with rfl | hx | rfl
    · cases hreceiver.symm.trans hj
      exact ⟨by simp [Instruction.storedSlots], id⟩
    · exact (hfits x (hbefore x hx).1).allows hj
    · exact (hfits x hu).allows hj

end Problem

namespace Countdown

/-- A constructor that counts down to zero and then makes an object for its superclass call. -/
def constructor : Problem where
  className := "a.Child"
  method := constructorName
  code := #[.loadThis, .load .int 1, .branchIf .eq 5, .increment 1 (-1), .goto 1, .new "a.Base",
    .dup, .invoke .special "a.Base" constructorName .void,
    .invoke .special "a.Base" constructorName ⟨[.reference "a.Base"], none⟩, .return none]
  superclass := "a.Base"
  callerSlot := 2

/-- The visits of a run that counts from one, after its first one. -/
def run : List Visit :=
  [⟨1, 1⟩, ⟨2, 2⟩, ⟨3, 1⟩, ⟨4, 1⟩, ⟨1, 1⟩, ⟨2, 2⟩, ⟨5, 1⟩, ⟨6, 2⟩, ⟨7, 3⟩, ⟨8, 2⟩, ⟨9, 0⟩]

theorem completes_run : Completes constructor.code (⟨0, 0⟩ :: run) := by
  have hmove {v w : Visit} (i : Instruction) (hi : constructor.code[v.position]? = some i)
      (hpops : i.stackEffect.pops ≤ v.height) (hcontinues : i.Continues v.position w.position)
      (hheight : w.height = v.after i) : Moves constructor.code v w :=
    ⟨i, ⟨hi, hpops⟩, hcontinues, hheight⟩
  refine .move (hmove _ rfl (by decide) rfl rfl) ?_
  refine .move (hmove _ rfl (by decide) rfl rfl) ?_
  refine .move (hmove _ rfl (by decide) (.inr rfl) rfl) ?_
  refine .move (hmove _ rfl (by decide) rfl rfl) ?_
  refine .move (hmove _ rfl (by decide) rfl rfl) ?_
  refine .move (hmove _ rfl (by decide) rfl rfl) ?_
  refine .move (hmove _ rfl (by decide) (.inl rfl) rfl) ?_
  refine .move (hmove _ rfl (by decide) rfl rfl) ?_
  refine .move (hmove _ rfl (by decide) rfl rfl) ?_
  refine .move (hmove _ rfl (by decide) rfl rfl) ?_
  refine .move (hmove _ rfl (by decide) rfl rfl) ?_
  exact .exit ⟨rfl, by decide⟩ (.inl ⟨none, rfl⟩)

/-- The run makes the nested call first, and then constructs the superclass with an empty stack. -/
theorem run_constructs : constructor.find = .ok 9 ∧ Completes constructor.code (⟨0, 0⟩ :: run) ∧
    ∃ before v after i, ⟨0, 0⟩ :: run = before ++ v :: after ∧ v.position + 1 = 9 ∧
      (∀ u ∈ before, u.position + 1 ≠ 9) ∧ Executes constructor.code v i ∧
      i.isConstructorCallOf "a.Base" = true ∧ v.after i = 0 ∧
      ∀ u ∈ before ++ [v], ∀ j, constructor.code[u.position]? = some j →
        2 ∉ j.storedSlots ∧ ¬ j.IsSwitchOrExit := by
  have hfind : constructor.find = .ok 9 :=
    Problem.find_of_searchWithin 12 rfl (by decide +kernel)
  exact ⟨hfind, completes_run, Problem.complete_run_constructs hfind completes_run⟩

end Countdown

end Weaving.Injection

end StorageWeave
