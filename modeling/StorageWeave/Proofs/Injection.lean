import StorageWeave.Proofs.Frames
import StorageWeave.Weaving.Injection

/-!
# What the search for the superclass call finds

A search that ends has made every visit that control can come to: its visits are closed under the
successors of the instructions (`Search.Closed`). So if a position is found, then control comes to
it only from the one superclass call before it, and until then meets no instruction that writes the
slot of the caller or leaves the method (`Problem.find_spec`).
-/

namespace StorageWeave

open Bytecode Weaving

namespace Weaving.Injection

/-- A set has a visit after one was added exactly if it had it or it is that one. -/
theorem VisitSet.contains_insert_iff {s : VisitSet} {v w : Visit}
    (bound : v.position < s.heights.size) :
    (s.insert v).contains w = true ↔ v = w ∨ s.contains w = true := by
  rw [contains_insert s v w bound]
  simp

namespace Problem

variable {p : Problem}

/-- The visits that the search is to make. -/
inductive Reaches (p : Problem) : Visit → Prop
  | start : p.Reaches ⟨1, 1⟩
  | next {v w : Visit} {visits : List Visit} : p.Reaches v →
      p.visit v = .ok (.continue visits) → w ∈ visits → p.Reaches w

/-- A position that the search comes to, at some height. -/
def Passes (p : Problem) (b : Nat) : Prop := ∃ height, p.Reaches ⟨b, height⟩

/-- What a visit without an error says about its instruction. -/
theorem visit_eq_ok {v : Visit} {o : Outcome} (h : p.visit v = .ok o) :
    ∃ i, p.code[v.position]? = some i ∧ p.callerSlot ∉ i.storedSlots ∧ isUnsupported i = false ∧
      ((o = .call ∧ i.isConstructorCallOf p.superclass = true) ∨
        ∃ height, o = .continue (successors i v.position height)) := by
  unfold visit at h
  rcases hi : p.code[v.position]? with _ | i
  · rw [hi] at h
    cases h
  rw [hi] at h
  dsimp only at h
  by_cases hslot : p.callerSlot ∈ i.storedSlots
  · rw [if_pos hslot] at h
    cases h
  rw [if_neg hslot] at h
  by_cases hcontrol : isUnsupported i = true
  · rw [if_pos hcontrol] at h
    cases h
  rw [if_neg hcontrol] at h
  by_cases hpops : v.height < i.stackEffect.pops
  · rw [if_pos hpops] at h
    cases h
  rw [if_neg hpops] at h
  refine ⟨i, rfl, hslot, by simpa using hcontrol, ?_⟩
  split at h
  · split at h
    · next hcall => exact .inl ⟨(Except.ok.inj h).symm, hcall⟩
    · cases h
  · exact .inr ⟨_, (Except.ok.inj h).symm⟩

/-- The successors of an instruction that control does not leave the method by. -/
theorem mem_successors {i : Instruction} {b b' height : Nat} (hi : isUnsupported i = false)
    (h : i.Continues b b') : ⟨b', height⟩ ∈ successors i b height := by
  unfold isUnsupported at hi
  unfold Instruction.Continues at h
  unfold successors
  cases hc : i.control <;> simp_all

theorem control_ne_exit {i : Instruction} (hi : isUnsupported i = false) : i.control ≠ .exit := by
  intro h
  simp [isUnsupported, h] at hi

/-! ## The state of the search -/

/-- What a step of the search does: it drops a visit made before, or makes a new one. -/
theorem step_cases {s s' : Search} (h : p.step s = .ok (some s')) :
    ∃ v rest, s.pending = v :: rest ∧
      ((s.visited.contains v = true ∧ s' = { s with pending := rest }) ∨
        s.visited.contains v = false ∧
          ((p.visit v = .ok .call ∧ s' = ⟨rest, s.visited.insert v,
            if v.position ∈ s.calls then s.calls else v.position :: s.calls⟩) ∨
          ∃ visits, p.visit v = .ok (.continue visits) ∧
            s' = ⟨visits ++ rest, s.visited.insert v, s.calls⟩)) := by
  unfold step at h
  rcases hpending : s.pending with _ | ⟨v, rest⟩
  · rw [hpending] at h
    cases h
  rw [hpending] at h
  dsimp only at h
  refine ⟨v, rest, rfl, ?_⟩
  split at h
  · next hknown => exact .inl ⟨hknown, (Option.some.inj (Except.ok.inj h)).symm⟩
  · next hnew =>
    refine .inr ⟨by simpa using hnew, ?_⟩
    rcases hvisit : p.visit v with e | _ | visits
    · rw [hvisit] at h
      cases h
    · rw [hvisit] at h
      exact .inl ⟨rfl, (Option.some.inj (Except.ok.inj h)).symm⟩
    · rw [hvisit] at h
      exact .inr ⟨visits, rfl, (Option.some.inj (Except.ok.inj h)).symm⟩

end Problem

/-- A visit was made or is still to make. -/
def Search.Knows (s : Search) (v : Visit) : Prop := s.visited.contains v = true ∨ v ∈ s.pending

namespace Problem

variable {p : Problem}

/-- The successors of the visits made are known. -/
structure Closed (p : Problem) (s : Search) : Prop where
  size : s.visited.heights.size = p.code.size
  start : s.Knows ⟨1, 1⟩
  calls : ∀ b ∈ s.calls, ∃ height, p.visit ⟨b, height⟩ = .ok .call
  visited : ∀ v, s.visited.contains v = true →
    (p.visit v = .ok .call ∧ v.position ∈ s.calls) ∨
      ∃ visits, p.visit v = .ok (.continue visits) ∧ ∀ w ∈ visits, s.Knows w

theorem closed_start (p : Problem) : p.Closed p.start where
  size := by simp [start, VisitSet.empty]
  start := .inr List.mem_cons_self
  calls := by simp [start]
  visited := by simp [start]

theorem lt_of_visit {v : Visit} {o : Outcome} (h : p.visit v = .ok o) :
    v.position < p.code.size := by
  obtain ⟨i, hi, -⟩ := visit_eq_ok h
  exact (Array.getElem?_eq_some_iff.1 hi).1

/-- A step forgets no visit. -/
theorem knows_step {s s' : Search} (hs : s.visited.heights.size = p.code.size)
    (h : p.step s = .ok (some s')) {v : Visit} (hv : s.Knows v) : s'.Knows v := by
  obtain ⟨u, rest, hpending, hcases⟩ := step_cases h
  rw [Search.Knows, hpending, List.mem_cons] at hv
  rcases hcases with ⟨hknown, rfl⟩ | ⟨-, ⟨hvisit, rfl⟩ | ⟨visits, hvisit, rfl⟩⟩
  · rcases hv with hv | rfl | hv
    · exact .inl hv
    · exact .inl hknown
    · exact .inr hv
  · have hinsert := VisitSet.contains_insert_iff (w := v) (hs ▸ lt_of_visit hvisit)
    rcases hv with hv | rfl | hv
    · exact .inl (hinsert.2 (.inr hv))
    · exact .inl (hinsert.2 (.inl rfl))
    · exact .inr hv
  · have hinsert := VisitSet.contains_insert_iff (w := v) (hs ▸ lt_of_visit hvisit)
    rcases hv with hv | rfl | hv
    · exact .inl (hinsert.2 (.inr hv))
    · exact .inl (hinsert.2 (.inl rfl))
    · exact .inr (List.mem_append_right visits hv)

theorem Closed.step {s s' : Search} (hs : p.Closed s) (h : p.step s = .ok (some s')) :
    p.Closed s' := by
  have hknows {v : Visit} : s.Knows v → s'.Knows v := knows_step hs.size h
  have hold (calls : ∀ b ∈ s.calls, b ∈ s'.calls) (v : Visit)
      (hv : s.visited.contains v = true) :
      (p.visit v = .ok .call ∧ v.position ∈ s'.calls) ∨
        ∃ visits, p.visit v = .ok (.continue visits) ∧ ∀ w ∈ visits, s'.Knows w := by
    rcases hs.visited v hv with ⟨hcall, hmem⟩ | ⟨visits, hvisit, hvisits⟩
    · exact .inl ⟨hcall, calls _ hmem⟩
    · exact .inr ⟨visits, hvisit, fun w hw => hknows (hvisits w hw)⟩
  obtain ⟨u, rest, hpending, hcases⟩ := step_cases h
  rcases hcases with ⟨hknown, rfl⟩ | ⟨-, ⟨hvisit, rfl⟩ | ⟨visits, hvisit, rfl⟩⟩
  · exact ⟨hs.size, hknows hs.start, hs.calls, hold fun _ => id⟩
  · refine ⟨by simpa using hs.size, hknows hs.start, fun b hb => ?_, fun v hv => ?_⟩
    · simp only at hb
      split at hb
      · exact hs.calls b hb
      · rcases List.mem_cons.1 hb with rfl | hb
        · exact ⟨u.height, hvisit⟩
        · exact hs.calls b hb
    · rcases (VisitSet.contains_insert_iff (hs.size ▸ lt_of_visit hvisit)).1 hv with rfl | hv
      · refine .inl ⟨hvisit, ?_⟩
        simp only
        split
        · next hmem => exact hmem
        · exact List.mem_cons_self
      · refine hold (fun b hb => ?_) v hv
        simp only
        split
        · exact hb
        · exact List.mem_cons_of_mem _ hb
  · refine ⟨by simpa using hs.size, hknows hs.start, hs.calls, fun v hv => ?_⟩
    rcases (VisitSet.contains_insert_iff (hs.size ▸ lt_of_visit hvisit)).1 hv with rfl | hv
    · exact .inr ⟨visits, hvisit, fun w hw => .inr (List.mem_append_left rest hw)⟩
    · exact hold (fun _ => id) v hv

theorem pending_of_step {s : Search} (h : p.step s = .ok none) : s.pending = [] := by
  unfold Problem.step at h
  rcases hpending : s.pending with _ | ⟨v, rest⟩
  · rfl
  · rw [hpending] at h
    dsimp only at h
    split at h
    · cases h
    · rcases hvisit : p.visit v with e | _ | visits <;> rw [hvisit] at h <;> cases h

/-! ## Searches that end -/

/--
The search ends after a number of steps, with a result. Before each step the visits still to make
may be put in another order, if `order` relates the two.
-/
inductive Ends (p : Problem) (order : List Visit → List Visit → Prop) :
    Search → Nat → Except WeaveError (List Nat) → Prop
  | done {s : Search} : s.pending = [] → Ends p order s 1 (.ok s.calls)
  | fail {s : Search} {pending : List Visit} {e : WeaveError} : order s.pending pending →
      p.step { s with pending } = .error e → Ends p order s 1 (.error e)
  | next {s s' : Search} {pending : List Visit} {n : Nat} {r : Except WeaveError (List Nat)} :
      order s.pending pending → p.step { s with pending } = .ok (some s') →
      Ends p order s' n r → Ends p order s (n + 1) r

/-- The search has a result exactly if it ends, with its visits in the order they have. -/
theorem search_eq_some_iff {s : Search} {r : Except WeaveError (List Nat)} :
    p.search s = some r ↔ ∃ n, p.Ends (· = ·) s n r := by
  constructor
  · refine search.partial_correctness p (fun s r => ∃ n, p.Ends (· = ·) s n r) ?_ s r
    intro search ih s r hr
    split at hr
    · next e he =>
      cases hr
      exact ⟨1, .fail rfl he⟩
    · next hnone =>
      cases hr
      exact ⟨1, .done (pending_of_step hnone)⟩
    · next s' hs' =>
      obtain ⟨n, hn⟩ := ih _ _ hr
      exact ⟨n + 1, .next rfl hs' hn⟩
  · rintro ⟨n, hn⟩
    induction hn with
    | @done s hpending =>
      have hstep : p.step s = .ok none := by simp only [step, hpending]
      rw [search, hstep]
    | fail horder hstep =>
      subst horder
      rw [search, hstep]
    | next horder hstep _ ih =>
      subst horder
      rw [search, hstep]
      exact ih

/-- Searches with a number of steps at most, so that the result can be computed. -/
def searchWithin (p : Problem) : Nat → Search → Option (Except WeaveError (List Nat))
  | 0, _ => none
  | steps + 1, s =>
    match p.step s with
    | .error e => some (.error e)
    | .ok none => some (.ok s.calls)
    | .ok (some s) => searchWithin p steps s

theorem search_of_searchWithin {steps : Nat} {s : Search} {r : Except WeaveError (List Nat)}
    (h : p.searchWithin steps s = some r) : p.search s = some r := by
  induction steps generalizing s with
  | zero => cases h
  | succ steps ih =>
    rw [searchWithin] at h
    rw [search]
    rcases hstep : p.step s with e | _ | next
    · simpa only [hstep] using h
    · simpa only [hstep] using h
    · rw [hstep] at h
      exact ih h

/-- Which visits are known does not depend on their order. -/
theorem Closed.reorder {s : Search} {pending : List Visit} (hs : p.Closed s)
    (horder : s.pending.Perm pending) : p.Closed { s with pending } := by
  have hknows {v : Visit} (hv : s.Knows v) : ({ s with pending } : Search).Knows v :=
    hv.imp_right horder.mem_iff.1
  refine ⟨hs.size, hknows hs.start, hs.calls, fun v hv => ?_⟩
  rcases hs.visited v hv with hcall | ⟨visits, hvisit, hvisits⟩
  · exact .inl hcall
  · exact .inr ⟨visits, hvisit, fun w hw => hknows (hvisits w hw)⟩

/-- A search that ends without an error has no visits left to make, whatever their order was. -/
theorem Closed.ends {s : Search} {n : Nat} {r : Except WeaveError (List Nat)} {calls : List Nat}
    (hs : p.Closed s) (h : p.Ends List.Perm s n r) (hr : r = .ok calls) :
    ∃ s', p.Closed s' ∧ s'.pending = [] ∧ s'.calls = calls := by
  induction h with
  | done hpending => exact ⟨_, hs, hpending, Except.ok.inj hr⟩
  | fail => cases hr
  | next horder hstep _ ih => exact ih ((hs.reorder horder).step hstep) hr

theorem Ends.mono {order order' : List Visit → List Visit → Prop}
    (horder : ∀ l l', order l l' → order' l l') {s : Search} {n : Nat}
    {r : Except WeaveError (List Nat)} (h : p.Ends order s n r) : p.Ends order' s n r := by
  induction h with
  | done hpending => exact .done hpending
  | fail hpending hstep => exact .fail (horder _ _ hpending) hstep
  | next hpending hstep _ ih => exact .next (horder _ _ hpending) hstep ih

theorem Closed.search {s : Search} {calls : List Nat} (hs : p.Closed s)
    (h : p.search s = some (.ok calls)) :
    ∃ s', p.Closed s' ∧ s'.pending = [] ∧ s'.calls = calls := by
  obtain ⟨n, hn⟩ := search_eq_some_iff.1 h
  exact hs.ends (hn.mono fun l l' hl => hl ▸ List.Perm.refl l) rfl

/-- Then every visit that the search is to make was made. -/
theorem Closed.contains_of_reaches {s : Search} (hs : p.Closed s) (hpending : s.pending = [])
    {v : Visit} (hv : p.Reaches v) : s.visited.contains v = true := by
  have hknows {w : Visit} (hw : s.Knows w) : s.visited.contains w = true := by
    rcases hw with hw | hw
    · exact hw
    · rw [hpending] at hw
      cases hw
  induction hv with
  | start => exact hknows hs.start
  | next _ hvisit hw ih =>
    rcases hs.visited _ ih with ⟨hcall, -⟩ | ⟨visits, hvisit', hvisits⟩
    · rw [hvisit] at hcall
      cases hcall
    · rw [hvisit] at hvisit'
      cases hvisit'
      exact hknows (hvisits _ hw)

/-! ## The position found -/

theorem choose_eq_ok {calls : List Nat} {position : Nat} (h : p.choose calls = .ok position) :
    ∃ call, calls = [call] ∧ position = call + 1 := by
  unfold choose at h
  split at h
  · cases h
  · next call hsorted =>
    refine ⟨call, ?_, (Except.ok.inj h).symm⟩
    have hperm := List.mergeSort_perm calls (· ≤ ·)
    rw [hsorted] at hperm
    exact List.singleton_perm.1 hperm |>.symm
  · cases h

theorem find_eq_ok {position : Nat} (h : p.find = .ok position) :
    p.code[0]? = some .loadThis ∧
      ∃ calls, p.search p.start = some (.ok calls) ∧ p.choose calls = .ok position := by
  unfold find at h
  split at h
  · next hfirst =>
    refine ⟨hfirst, ?_⟩
    rcases hsearch : p.search p.start with _ | (e | calls)
    · rw [hsearch] at h
      cases h
    · rw [hsearch] at h
      cases h
    · rw [hsearch] at h
      exact ⟨calls, rfl, h⟩
  · cases h

/-- The position behind the one call that is found within a number of steps. -/
theorem find_of_searchWithin (steps : Nat) {call : Nat} (hreceiver : p.code[0]? = some .loadThis)
    (hsearch : p.searchWithin steps p.start = some (.ok [call])) : p.find = .ok (call + 1) := by
  have hload : p.code[0]? = some (.load .reference 0) := hreceiver
  have hchoose : p.choose [call] = .ok (call + 1) := by
    rw [choose, List.mergeSort_singleton]
  simp only [find, hload, search_of_searchWithin hsearch, Option.getD_some]
  exact hchoose

/-- A call of a constructor of a class. -/
theorem eq_of_isConstructorCallOf {i : Instruction} {className : String}
    (h : i.isConstructorCallOf className = true) :
    ∃ signature, i = .invoke .special className constructorName signature := by
  unfold Instruction.isConstructorCallOf at h
  split at h
  · next owner name signature =>
    obtain ⟨rfl, rfl⟩ : owner = className ∧ name = constructorName := by simpa using h
    exact ⟨signature, rfl⟩
  · cases h

/--
**The position found** stands after a superclass call. The first instruction loads the receiver.
From there on control comes only to instructions that keep the slot of the caller and do not leave
the method, and from all but the superclass call it comes to such instructions again.
-/
theorem find_spec {position : Nat} (h : p.find = .ok position) :
    ∃ call signature, position = call + 1 ∧ p.code[0]? = some .loadThis ∧
      p.code[call]? = some (.invoke .special p.superclass constructorName signature) ∧
      p.Passes 1 ∧ ∀ b, p.Passes b → ∃ i, p.code[b]? = some i ∧ p.callerSlot ∉ i.storedSlots ∧
        i.control ≠ .exit ∧ (b ≠ call → ∀ b', i.Continues b b' → p.Passes b') := by
  obtain ⟨hfirst, calls, hsearch, hchoose⟩ := find_eq_ok h
  obtain ⟨call, rfl, rfl⟩ := choose_eq_ok hchoose
  obtain ⟨s, hs, hpending, hcalls⟩ := p.closed_start.search hsearch
  obtain ⟨height, hcall⟩ := hs.calls call (by simp [hcalls])
  obtain ⟨i, hi, -, -, hconstructs⟩ := visit_eq_ok hcall
  obtain ⟨signature, rfl⟩ : ∃ signature, i = .invoke .special _ constructorName signature := by
    rcases hconstructs with ⟨-, hconstructs⟩ | ⟨_, hcontinue⟩
    · exact eq_of_isConstructorCallOf hconstructs
    · cases hcontinue
  refine ⟨call, signature, rfl, hfirst, hi, ⟨1, .start⟩, ?_⟩
  rintro b ⟨height, hb⟩
  rcases hs.visited _ (hs.contains_of_reaches hpending hb) with ⟨hvisit, hmem⟩ | hvisit
  · obtain ⟨i, hi, hslot, hcontrol, -⟩ := visit_eq_ok hvisit
    refine ⟨i, hi, hslot, control_ne_exit hcontrol, fun hne => absurd ?_ hne⟩
    simpa [hcalls] using hmem
  · obtain ⟨visits, hvisit, -⟩ := hvisit
    obtain ⟨i, hi, hslot, hcontrol, houtcome⟩ := visit_eq_ok hvisit
    obtain ⟨hcall, -⟩ | ⟨height', hvisits⟩ := houtcome
    · cases hcall
    · cases hvisits
      refine ⟨i, hi, hslot, control_ne_exit hcontrol, fun _ b' hb' => ⟨height', ?_⟩⟩
      exact .next hb hvisit (mem_successors hcontrol hb')

end Problem

end Weaving.Injection

end StorageWeave
