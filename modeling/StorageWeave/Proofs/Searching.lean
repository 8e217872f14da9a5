import Mathlib.Data.Set.Finite.Lattice
import StorageWeave.Proofs.Heights

/-!
# What the search accepts, and when it ends

A search that ends has made exactly the visits that can be reached, in whatever order it took them.
So it finds a position exactly if these are finitely many, none of them is an error, and the calls
that empty the stack all stand in one place (`Problem.find_iff_accepts`).

Where no loop lets the stack grow, every step makes one of finitely many visits or drops one
(`remaining_step_lt`), and the search ends. A loop that lets the stack grow is followed for ever,
unless the search comes to an error (`Problem.search_ends_iff`), and there is always an order of the
visits in which it comes to none (`Problem.acc_stepsTo_iff`).
-/

namespace StorageWeave

open Bytecode Weaving
open Relation (ReflTransGen)

namespace Weaving.Injection

/-- A set of visits is finite. -/
theorem VisitSet.finite (s : VisitSet) : {v | s.contains v = true}.Finite := by
  have hrow (b : Nat) : (Set.image (Visit.mk b) (Set.Iio ((s.heights[b]?).getD 0))).Finite :=
    (Set.finite_Iio _).image _
  refine ((Set.finite_Iio s.heights.size).biUnion fun b _ => hrow b).subset fun v hv => ?_
  have hbit : ((s.heights[v.position]?).getD 0).testBit v.height = true := hv
  have hheight : v.height < (s.heights[v.position]?).getD 0 :=
    Nat.lt_of_lt_of_le Nat.lt_two_pow_self (Nat.ge_two_pow_of_testBit hbit)
  have hposition : v.position < s.heights.size := by
    by_contra hle
    rw [Array.getElem?_eq_none (by omega)] at hheight
    cases hheight
  exact Set.mem_biUnion (show v.position ∈ Set.Iio s.heights.size from hposition)
    ⟨v.height, hheight, rfl⟩

namespace Problem

variable {p : Problem} {v w : Visit} {i : Instruction} {o : Outcome} {visits : List Visit}

/-! ## Visits -/

theorem isUnsupported_iff : isUnsupported i = true ↔ i.IsSwitchOrExit := by
  cases i with
  | switch _ _ | «return» _ | throw => exact iff_of_true rfl trivial
  | _ => exact iff_of_false Bool.false_ne_true id

theorem mem_successors_iff {b height : Nat} (hi : ¬ i.IsSwitchOrExit) :
    w ∈ successors i b height ↔ i.Continues b w.position ∧ w.height = height := by
  have hcontrol : isUnsupported i = false := by
    rwa [← isUnsupported_iff, Bool.not_eq_true] at hi
  obtain ⟨b', height'⟩ := w
  unfold isUnsupported at hcontrol
  unfold successors Instruction.Continues
  cases hc : i.control <;> simp_all [or_and_right]

theorem length_successors_le (i : Instruction) (b height : Nat) :
    (successors i b height).length ≤ 2 := by
  unfold successors
  split <;> simp

/-- A visit to an instruction that is executed and allowed. -/
theorem visit_eq (hi : Executes p.code v i) (hallows : p.Allows i) :
    p.visit v =
      if v.after i = 0 then
        if i.isConstructorCallOf p.superclass then .ok .call
        else .error (p.malformed (.receiverConsumed v.position))
      else .ok (.continue (successors i v.position (v.after i))) := by
  have hcontrol : ¬ isUnsupported i = true := fun h => hallows.2 (isUnsupported_iff.1 h)
  simp only [visit, hi.present, if_neg hallows.1, if_neg hcontrol,
    if_neg (Nat.not_lt.2 hi.operands), Visit.after]
  rfl

/-- Only an instruction that is executed and allowed is visited without an error. -/
theorem exists_executes_of_visit (h : p.visit v = .ok o) :
    ∃ i, Executes p.code v i ∧ p.Allows i := by
  obtain ⟨i, hi, hslot, hcontrol, -⟩ := visit_eq_ok h
  refine ⟨i, ⟨hi, ?_⟩, hslot, fun hexit => ?_⟩
  · by_contra hpops
    simp only [visit, hi, if_neg hslot, hcontrol, Bool.false_eq_true, if_false,
      if_pos (Nat.not_le.1 hpops)] at h
    cases h
  · rw [isUnsupported_iff.2 hexit] at hcontrol
    cases hcontrol

theorem visit_eq_call_iff : p.visit v = .ok .call ↔ p.CallsSuper v := by
  constructor
  · intro h
    obtain ⟨i, hi, hallows⟩ := exists_executes_of_visit h
    rw [visit_eq hi hallows] at h
    split at h
    · next hempty =>
      split at h
      · next hcall => exact ⟨i, hi, hallows, hempty, hcall⟩
      · cases h
    · cases h
  · rintro ⟨i, hi, hallows, hempty, hcall⟩
    rw [visit_eq hi hallows, if_pos hempty, if_pos hcall]

/-- The visits after another one are those that the search goes on to. -/
theorem mem_visits_iff (h : p.visit v = .ok (.continue visits)) : w ∈ visits ↔ p.Leads v w := by
  obtain ⟨i, hi, hallows⟩ := exists_executes_of_visit h
  rw [visit_eq hi hallows] at h
  split at h
  · split at h <;> cases h
  next hempty =>
  cases h
  rw [mem_successors_iff hallows.2]
  constructor
  · rintro ⟨hcontinues, hheight⟩
    exact ⟨i, hi, hallows, Nat.pos_of_ne_zero hempty, hcontinues, hheight⟩
  · rintro ⟨j, hj, -, -, hcontinues, hheight⟩
    cases hi.unique hj.present
    exact ⟨hcontinues, hheight⟩

theorem exists_visit_iff : (∃ o, p.visit v = .ok o) ↔ p.Fits v := by
  constructor
  · rintro ⟨o, h⟩
    obtain ⟨i, hi, hallows⟩ := exists_executes_of_visit h
    refine ⟨i, hi, hallows, fun hempty => ?_⟩
    rw [visit_eq hi hallows, if_pos hempty] at h
    split at h
    · next hcall => exact hcall
    · cases h
  · rintro ⟨i, hi, hallows, hcall⟩
    rw [visit_eq hi hallows]
    split
    · next hempty => exact ⟨.call, by rw [if_pos (hcall hempty)]⟩
    · exact ⟨_, rfl⟩

theorem Leads.not_callsSuper (h : p.Leads v w) : ¬ p.CallsSuper v := by
  rintro ⟨i, hi, -, hempty, -⟩
  obtain ⟨j, hj, -, hpos, -⟩ := h
  cases hi.unique hj.present
  omega

/-! ## The state of the search -/

/-- All that the search knows can be reached. -/
structure Within (p : Problem) (s : Search) : Prop where
  size : s.visited.heights.size = p.code.size
  pending : ∀ v ∈ s.pending, p.Reachable v
  calls : ∀ b ∈ s.calls, ∃ height, p.Reachable ⟨b, height⟩ ∧ p.CallsSuper ⟨b, height⟩
  nodup : s.calls.Nodup

theorem within_start (p : Problem) : p.Within p.start where
  size := by simp [start, VisitSet.empty]
  pending := by
    intro v hv
    obtain rfl : v = ⟨1, 1⟩ := by simpa [start] using hv
    exact .refl
  calls := by simp [start]
  nodup := List.nodup_nil

theorem Within.step {s s' : Search} (hs : p.Within s) (h : p.step s = .ok (some s')) :
    p.Within s' := by
  obtain ⟨v, rest, hpending, hcases⟩ := step_cases h
  have hv : p.Reachable v := hs.pending v (by simp [hpending])
  have hrest : ∀ w ∈ rest, p.Reachable w := fun w hw => hs.pending w (by simp [hpending, hw])
  rcases hcases with ⟨-, rfl⟩ | ⟨-, ⟨hvisit, rfl⟩ | ⟨visits, hvisit, rfl⟩⟩
  · exact ⟨hs.size, hrest, hs.calls, hs.nodup⟩
  · refine ⟨by simpa using hs.size, hrest, fun b hb => ?_, ?_⟩
    · simp only at hb
      split at hb
      · exact hs.calls b hb
      · rcases List.mem_cons.1 hb with rfl | hb
        · exact ⟨v.height, hv, visit_eq_call_iff.1 hvisit⟩
        · exact hs.calls b hb
    · simp only
      split
      · exact hs.nodup
      · next hnew => exact List.nodup_cons.2 ⟨hnew, hs.nodup⟩
  · refine ⟨by simpa using hs.size, fun w hw => ?_, hs.calls, hs.nodup⟩
    rcases List.mem_append.1 hw with hw | hw
    · exact hv.next ((mem_visits_iff hvisit).1 hw)
    · exact hrest w hw

theorem Within.reorder {s : Search} {pending : List Visit} (hs : p.Within s)
    (horder : s.pending.Perm pending) : p.Within { s with pending } :=
  ⟨hs.size, fun v hv => hs.pending v (horder.mem_iff.2 hv), hs.calls, hs.nodup⟩

theorem Leads.fits (h : p.Leads v w) : p.Fits v := by
  obtain ⟨i, hi, hallows, hpos, -⟩ := h
  exact ⟨i, hi, hallows, fun hempty => absurd hempty hpos.ne'⟩

/-- A search that has only errors left knows all that can be reached. -/
theorem Closed.knows_of_reachable {s : Search} (hs : p.Closed s)
    (hpending : ∀ w ∈ s.pending, ¬ p.Fits w) (hv : p.Reachable v) : s.Knows v := by
  induction hv with
  | refl => exact hs.start
  | tail _ hleads ih =>
    have hmade := ih.resolve_right fun hu => hpending _ hu hleads.fits
    rcases hs.visited _ hmade with ⟨hcall, -⟩ | ⟨visits, hvisit, hvisits⟩
    · exact absurd (visit_eq_call_iff.1 hcall) hleads.not_callsSuper
    · exact hvisits _ ((mem_visits_iff hvisit).2 hleads)

theorem Closed.contains_of_reachable {s : Search} (hs : p.Closed s) (hpending : s.pending = [])
    (hv : p.Reachable v) : s.visited.contains v = true := by
  refine (hs.knows_of_reachable (fun w hw => ?_) hv).resolve_right fun hv => ?_
  · rw [hpending] at hw
    cases hw
  · rw [hpending] at hv
    cases hv

/-- What a search that ends without an error has found out, and the calls that it returns. -/
structure Settles (p : Problem) (calls : List Nat) : Prop where
  finite : {v | p.Reachable v}.Finite
  fits : ∀ v, p.Reachable v → p.Fits v
  mem_calls : ∀ b, b ∈ calls ↔ ∃ height, p.Reachable ⟨b, height⟩ ∧ p.CallsSuper ⟨b, height⟩
  nodup : calls.Nodup

theorem settles_of_pending {s : Search} (hclosed : p.Closed s) (hwithin : p.Within s)
    (hpending : s.pending = []) : p.Settles s.calls where
  finite := s.visited.finite.subset fun _ hv => hclosed.contains_of_reachable hpending hv
  fits v hv := by
    rcases hclosed.visited v (hclosed.contains_of_reachable hpending hv) with
      ⟨hcall, -⟩ | ⟨visits, hvisit, -⟩
    · exact exists_visit_iff.1 ⟨_, hcall⟩
    · exact exists_visit_iff.1 ⟨_, hvisit⟩
  mem_calls b := by
    refine ⟨hwithin.calls b, fun ⟨height, hreachable, hcall⟩ => ?_⟩
    rcases hclosed.visited _ (hclosed.contains_of_reachable hpending hreachable) with
      ⟨-, hmem⟩ | ⟨visits, hvisit, -⟩
    · exact hmem
    · rw [visit_eq_call_iff.2 hcall] at hvisit
      cases hvisit
  nodup := hwithin.nodup

theorem step_eq_error {s : Search} {e : WeaveError} (h : p.step s = .error e) :
    ∃ v ∈ s.pending, p.visit v = .error e := by
  unfold Problem.step at h
  rcases hpending : s.pending with _ | ⟨v, rest⟩
  · rw [hpending] at h
    cases h
  rw [hpending] at h
  dsimp only at h
  split at h
  · cases h
  · rcases hvisit : p.visit v with e' | _ | visits <;> rw [hvisit] at h <;> cases h
    exact ⟨v, List.mem_cons_self, hvisit⟩

/-- **What the end of a search says**, whatever the order of the visits was. -/
theorem settles_or_of_ends {s : Search} {n : Nat} {r : Except WeaveError (List Nat)}
    (hclosed : p.Closed s) (hwithin : p.Within s) (h : p.Ends List.Perm s n r) :
    (∃ calls, r = .ok calls ∧ p.Settles calls) ∨
      ∃ e v, r = .error e ∧ p.Reachable v ∧ p.visit v = .error e := by
  induction h with
  | done hpending => exact .inl ⟨_, rfl, settles_of_pending hclosed hwithin hpending⟩
  | fail horder hstep =>
    obtain ⟨v, hv, hvisit⟩ := step_eq_error hstep
    exact .inr ⟨_, v, rfl, (hwithin.reorder horder).pending v hv, hvisit⟩
  | next horder hstep _ ih =>
    exact ih ((hclosed.reorder horder).step hstep) ((hwithin.reorder horder).step hstep)

/-! ## Searches over finitely many visits -/

/-- A bound on the steps that are left: two for every visit not made, and one for every visit still
to make. -/
def remaining (box : Finset Visit) (s : Search) : Nat :=
  2 * (box.filter fun v => s.visited.contains v = false).card + s.pending.length

/-- A set of visits that the search does not leave. -/
def Encloses (p : Problem) (box : Finset Visit) : Prop :=
  ∀ v, p.Reachable v → v.position < p.code.size → v ∈ box

variable {box : Finset Visit} {s s' : Search}

theorem card_unvisited_insert_lt (hs : p.Within s) (hv : v ∈ box)
    (hnew : s.visited.contains v = false) (hposition : v.position < p.code.size) :
    (box.filter fun w => (s.visited.insert v).contains w = false).card <
      (box.filter fun w => s.visited.contains w = false).card := by
  have hinsert (w : Visit) : (s.visited.insert v).contains w = (decide (v = w) || _) :=
    VisitSet.contains_insert s.visited v w (hs.size ▸ hposition)
  refine Finset.card_lt_card ⟨fun w hw => ?_, fun hsubset => ?_⟩
  · obtain ⟨hw, hnew'⟩ := Finset.mem_filter.1 hw
    rw [hinsert, Bool.or_eq_false_iff] at hnew'
    exact Finset.mem_filter.2 ⟨hw, hnew'.2⟩
  · have hmem := (Finset.mem_filter.1 (hsubset (Finset.mem_filter.2 ⟨hv, hnew⟩))).2
    simp [hinsert] at hmem

/-- Every step of the search leaves less to do. -/
theorem remaining_step_lt (hbox : p.Encloses box) (hs : p.Within s)
    (h : p.step s = .ok (some s')) : remaining box s' < remaining box s := by
  obtain ⟨v, rest, hpending, hcases⟩ := step_cases h
  have hv : p.Reachable v := hs.pending v (by simp [hpending])
  have hless {o : Outcome} (hvisit : p.visit v = .ok o) (hnew : s.visited.contains v = false) :=
    card_unvisited_insert_lt hs (hbox v hv (lt_of_visit hvisit)) hnew (lt_of_visit hvisit)
  unfold remaining
  rw [hpending, List.length_cons]
  rcases hcases with ⟨-, rfl⟩ | ⟨hnew, ⟨hvisit, rfl⟩ | ⟨visits, hvisit, rfl⟩⟩
  · exact Nat.lt_succ_self _
  · have := hless hvisit hnew
    dsimp only
    omega
  · have := hless hvisit hnew
    have hlength : visits.length ≤ 2 := by
      obtain ⟨i, hi, hallows⟩ := exists_executes_of_visit hvisit
      rw [visit_eq hi hallows] at hvisit
      split at hvisit
      · split at hvisit <;> cases hvisit
      · cases hvisit
        exact length_successors_le _ _ _
    simp only [List.length_append]
    omega

/-- The search ends within the steps that are left. -/
theorem exists_ends (hbox : p.Encloses box) (hs : p.Within s) :
    ∃ n r, n ≤ remaining box s + 1 ∧ p.Ends (· = ·) s n r := by
  induction hk : remaining box s using Nat.strongRecOn generalizing s with
  | ind k ih =>
    rcases hstep : p.step s with e | _ | s'
    · exact ⟨1, _, by omega, .fail rfl hstep⟩
    · exact ⟨1, _, by omega, .done (pending_of_step hstep)⟩
    · have hlt := remaining_step_lt hbox hs hstep
      obtain ⟨n, r, hn, hends⟩ := ih _ (hk ▸ hlt) (hs.step hstep) rfl
      exact ⟨n + 1, r, by omega, .next rfl hstep hends⟩

/-- A step of the search with the visits still to make in any order. -/
def StepsTo (p : Problem) (s s' : Search) : Prop :=
  ∃ pending, s.pending.Perm pending ∧ p.step { s with pending } = .ok (some s')

/-- No order of the visits keeps the search from coming to an end. -/
theorem acc_stepsTo (hbox : p.Encloses box) (hs : p.Within s) :
    Acc (fun s' s => p.StepsTo s s') s := by
  induction hk : remaining box s using Nat.strongRecOn generalizing s with
  | ind k ih =>
    refine ⟨s, fun s' ⟨pending, horder, hstep⟩ => ?_⟩
    have hsame : remaining box { s with pending } = remaining box s := by
      simp only [remaining, horder.length_eq]
    have hlt := remaining_step_lt hbox (hs.reorder horder) hstep
    exact ih _ (hk ▸ hsame ▸ hlt) ((hs.reorder horder).step hstep) rfl

/-- The visits in the code, up to the height that the search does not go beyond. -/
def below (p : Problem) : Finset Visit :=
  (Finset.range p.code.size ×ˢ Finset.Icc 1 p.tallest).image fun x => ⟨x.1, x.2⟩

theorem encloses_below (hgrows : ¬ p.Grows) : p.Encloses p.below := by
  intro v hv hposition
  refine Finset.mem_image.2 ⟨(v.position, v.height), Finset.mem_product.2 ⟨?_, ?_⟩, rfl⟩
  · exact Finset.mem_range.2 hposition
  · exact Finset.mem_Icc.2 ⟨hv.height_pos, height_le_tallest hgrows hv⟩

theorem remaining_start_le (p : Problem) :
    remaining p.below p.start ≤ 2 * (p.code.size * p.tallest) + 1 := by
  have hcard : p.below.card ≤ p.code.size * p.tallest := by
    refine Finset.card_image_le.trans (le_of_eq ?_)
    rw [Finset.card_product, Finset.card_range, Nat.card_Icc, Nat.add_sub_cancel]
  have hfilter := Finset.card_filter_le p.below fun v => p.start.visited.contains v = false
  simp only [remaining, start, List.length_singleton] at hfilter ⊢
  omega

/-! ## What is accepted -/

/--
The code of a constructor is accepted, with a position for its prologue: it begins by loading the
receiver, finitely many visits can be reached from there, none of them is an error, and the position
stands after the only place where the superclass is constructed with nothing left on the stack.
-/
structure Accepts (p : Problem) (position : Nat) : Prop where
  receiver : p.code[0]? = some (.load .reference 0)
  finite : {v | p.Reachable v}.Finite
  fits : ∀ v, p.Reachable v → p.Fits v
  call : ∃ call, position = call + 1 ∧
    ∀ b, (∃ height, p.Reachable ⟨b, height⟩ ∧ p.CallsSuper ⟨b, height⟩) ↔ b = call

/-- What a search answers that ends, if it takes its visits in any order. -/
inductive Answers (p : Problem) : Except WeaveError Nat → Prop
  | malformed : p.code[0]? ≠ some (.load .reference 0) →
      p.Answers (.error (p.malformed .noReceiver))
  | search {n : Nat} {r : Except WeaveError (List Nat)} : p.code[0]? = some (.load .reference 0) →
      p.Ends List.Perm p.start n r → p.Answers (r >>= p.choose)

theorem choose_eq_ok_iff {calls : List Nat} {position : Nat} (hnodup : calls.Nodup) :
    p.choose calls = .ok position ↔ ∃ call, position = call + 1 ∧ ∀ b, b ∈ calls ↔ b = call := by
  constructor
  · intro h
    obtain ⟨call, rfl, rfl⟩ := choose_eq_ok h
    exact ⟨call, rfl, by simp⟩
  · rintro ⟨call, rfl, hcalls⟩
    have hperm : calls.Perm [call] :=
      (List.perm_ext_iff_of_nodup hnodup (List.nodup_singleton call)).2 (by simpa using hcalls)
    rw [List.perm_singleton.1 hperm, choose]
    simp

/-- A search that ends answers with a position exactly if the code is accepted with it. -/
theorem accepts_iff_of_ends {position n : Nat} {r : Except WeaveError (List Nat)}
    (hreceiver : p.code[0]? = some (.load .reference 0)) (h : p.Ends List.Perm p.start n r) :
    r >>= p.choose = .ok position ↔ p.Accepts position := by
  obtain ⟨calls, rfl, hsettles⟩ | ⟨e, v, rfl, hv, hvisit⟩ :=
    settles_or_of_ends p.closed_start p.within_start h
  · have hmem : (∃ call, position = call + 1 ∧ ∀ b, b ∈ calls ↔ b = call) ↔
        p.Accepts position := by
      simp only [hsettles.mem_calls]
      exact ⟨fun hcall => ⟨hreceiver, hsettles.finite, hsettles.fits, hcall⟩, fun h => h.call⟩
    exact (choose_eq_ok_iff hsettles.nodup).trans hmem
  · refine ⟨fun h => (by cases h), fun h => ?_⟩
    obtain ⟨o, ho⟩ := exists_visit_iff.2 (h.fits v hv)
    rw [hvisit] at ho
    cases ho

theorem find_eq {r : Except WeaveError (List Nat)}
    (hreceiver : p.code[0]? = some (.load .reference 0)) (h : p.search p.start = some r) :
    p.find = r >>= p.choose := by
  simp only [find, hreceiver, h, Option.getD_some]

theorem Ends.anyhow {s : Search} {n : Nat} {r : Except WeaveError (List Nat)}
    (h : p.Ends (· = ·) s n r) : p.Ends List.Perm s n r :=
  h.mono fun l _ hl => hl ▸ .refl l

theorem accepts_of_find {position : Nat} (h : p.find = .ok position) : p.Accepts position := by
  obtain ⟨hreceiver, calls, hsearch, hchoose⟩ := find_eq_ok h
  obtain ⟨n, hends⟩ := search_eq_some_iff.1 hsearch
  exact (accepts_iff_of_ends hreceiver hends.anyhow).1 hchoose

theorem Accepts.find {position : Nat} (h : p.Accepts position) : p.find = .ok position := by
  have hgrows := finite_reachable_iff.1 h.finite
  obtain ⟨n, r, -, hends⟩ := exists_ends (encloses_below hgrows) p.within_start
  rw [find_eq h.receiver (search_eq_some_iff.2 ⟨n, hends⟩)]
  exact (accepts_iff_of_ends h.receiver hends.anyhow).2 h

/--
**The search accepts exactly the constructors it should.** It finds a position exactly if the code
is accepted with it. That does not depend on the order in which it takes its visits: whatever the
order, it answers with a position only if the code is accepted with it, and it comes to an end if
finitely many visits can be reached.
-/
theorem find_iff_accepts (p : Problem) (position : Nat) :
    (p.find = .ok position ↔ p.Accepts position) ∧
      (∀ r, p.Answers r → (r = .ok position ↔ p.Accepts position)) ∧
      ({v | p.Reachable v}.Finite → Acc (fun s' s => p.StepsTo s s') p.start) := by
  refine ⟨⟨accepts_of_find, Accepts.find⟩, fun r hr => ?_, fun hfinite => ?_⟩
  · cases hr with
    | malformed hreceiver => exact ⟨fun h => (by cases h), fun h => absurd h.receiver hreceiver⟩
    | search hreceiver hends => exact accepts_iff_of_ends hreceiver hends
  · exact acc_stepsTo (encloses_below (finite_reachable_iff.1 hfinite)) p.within_start

/-! ## When the search ends -/

/-- A search that ends has met an error, or no loop lets the stack grow. -/
theorem exists_error_or_of_ends {n : Nat} {r : Except WeaveError (List Nat)}
    (h : p.Ends (· = ·) p.start n r) :
    ¬ p.Grows ∨ ∃ e v, r = .error e ∧ p.Reachable v ∧ p.visit v = .error e := by
  refine (settles_or_of_ends p.closed_start p.within_start h.anyhow).imp_left ?_
  rintro ⟨calls, -, hsettles⟩
  exact finite_reachable_iff.1 hsettles.finite

theorem exists_step_of_fits {rest : List Visit} (hpending : s.pending = v :: rest)
    (hv : p.Fits v) : ∃ s', p.step s = .ok (some s') := by
  obtain ⟨o, ho⟩ := exists_visit_iff.2 hv
  unfold Problem.step
  rw [hpending]
  dsimp only
  split
  · exact ⟨_, rfl⟩
  · rw [ho]
    cases o <;> exact ⟨_, rfl⟩

/-- A search that comes to an end in every order can put off all errors. -/
theorem exists_only_errors (hs : p.Closed s) (h : Acc (fun s' s => p.StepsTo s s') s) :
    ∃ s', p.Closed s' ∧ ∀ v ∈ s'.pending, ¬ p.Fits v := by
  induction h with
  | intro s _ ih =>
    by_cases hfits : ∃ v ∈ s.pending, p.Fits v
    · obtain ⟨v, hmem, hv⟩ := hfits
      have horder := List.perm_cons_erase hmem
      obtain ⟨s', hstep⟩ := exists_step_of_fits (s := ⟨v :: s.pending.erase v, _, _⟩) rfl hv
      exact ih s' ⟨_, horder, hstep⟩ ((hs.reorder horder).step hstep)
    · exact ⟨s, hs, fun v hv hv' => hfits ⟨v, hv, hv'⟩⟩

/-- **A loop that lets the stack grow** keeps the search from its end in some order. -/
theorem acc_stepsTo_iff : Acc (fun s' s => p.StepsTo s s') p.start ↔ ¬ p.Grows := by
  constructor
  · intro h
    obtain ⟨s, hs, hpending⟩ := exists_only_errors p.closed_start h
    refine finite_reachable_iff.1 ?_
    refine (s.visited.finite.union (List.finite_toSet s.pending)).subset fun v hv => ?_
    exact hs.knows_of_reachable hpending hv
  · intro h
    exact acc_stepsTo (encloses_below h) p.within_start

/--
**The search ends** exactly if no loop lets the stack grow or it comes to an error. In the first
case the number of its steps is bounded by the length of the code and the slots that the code
pushes, and only in that case does it end whatever the order of its visits.
-/
theorem search_ends_iff (p : Problem) :
    ((∃ r, p.search p.start = some r) ↔
        ¬ p.Grows ∨ ∃ n e, p.Ends (· = ·) p.start n (.error e)) ∧
      (¬ p.Grows → ∃ n r, n ≤ 2 * (p.code.size * p.tallest) + 2 ∧
        p.Ends (· = ·) p.start n r) ∧
      (Acc (fun s' s => p.StepsTo s s') p.start ↔ ¬ p.Grows) := by
  have hbounded (hgrows : ¬ p.Grows) : ∃ n r, n ≤ 2 * (p.code.size * p.tallest) + 2 ∧
      p.Ends (· = ·) p.start n r := by
    obtain ⟨n, r, hn, hends⟩ := exists_ends (encloses_below hgrows) p.within_start
    exact ⟨n, r, hn.trans (Nat.succ_le_succ p.remaining_start_le), hends⟩
  refine ⟨⟨?_, ?_⟩, hbounded, acc_stepsTo_iff⟩
  · rintro ⟨r, hr⟩
    obtain ⟨n, hends⟩ := search_eq_some_iff.1 hr
    obtain hgrows | ⟨e, v, rfl, -⟩ := exists_error_or_of_ends hends
    · exact .inl hgrows
    · exact .inr ⟨n, e, hends⟩
  · rintro (hgrows | ⟨n, e, hends⟩)
    · obtain ⟨n, r, -, hends⟩ := hbounded hgrows
      exact ⟨r, search_eq_some_iff.2 ⟨n, hends⟩⟩
    · exact ⟨_, search_eq_some_iff.2 ⟨n, hends⟩⟩

/-- A loop that lets the stack grow and meets no error is followed for ever. -/
theorem search_eq_none (hgrows : p.Grows) (hfits : ∀ v, p.Reachable v → p.Fits v) :
    p.search p.start = none := by
  rcases hsearch : p.search p.start with _ | r
  · rfl
  · obtain ⟨n, hends⟩ := search_eq_some_iff.1 hsearch
    obtain hbounded | ⟨e, v, -, hv, hvisit⟩ := exists_error_or_of_ends hends
    · exact absurd hgrows hbounded
    · obtain ⟨o, ho⟩ := exists_visit_iff.2 (hfits v hv)
      rw [hvisit] at ho
      cases ho

end Problem

namespace Tower

/-- A constructor that loads its receiver again and again. -/
def constructor : Problem where
  className := "a.Tower"
  method := constructorName
  code := #[.loadThis, .loadThis, .goto 1]
  superclass := "a.Base"
  callerSlot := 1

section Code

variable {p : Problem} (hcode : p.code = constructor.code)

include hcode

theorem leads_one (height : Nat) : p.Leads ⟨1, height⟩ ⟨2, height + 1⟩ :=
  ⟨.loadThis, ⟨by rw [hcode]; rfl, Nat.zero_le _⟩, ⟨List.not_mem_nil, id⟩, Nat.succ_pos _, rfl, rfl⟩

theorem leads_two {height : Nat} (h : 0 < height) : p.Leads ⟨2, height⟩ ⟨1, height⟩ :=
  ⟨.goto 1, ⟨by rw [hcode]; rfl, Nat.zero_le _⟩, ⟨List.not_mem_nil, id⟩, h, rfl, rfl⟩

theorem position_of_reachable {v : Visit} (h : p.Reachable v) :
    v.position = 1 ∨ v.position = 2 := by
  induction h with
  | refl => exact .inl rfl
  | @tail u w _ hleads ih =>
    obtain ⟨i, hi, -, -, hcontinues, -⟩ := hleads
    rcases ih with hu | hu
    · rw [hu] at hcontinues
      cases hi.unique (show p.code[u.position]? = some .loadThis by rw [hcode, hu]; rfl)
      exact .inr hcontinues
    · rw [hu] at hcontinues
      cases hi.unique (show p.code[u.position]? = some (.goto 1) by rw [hcode, hu]; rfl)
      exact .inl hcontinues

theorem fits_of_reachable {v : Visit} (h : p.Reachable v) : p.Fits v := by
  have hheight := h.height_pos
  obtain ⟨b, height⟩ := v
  rcases position_of_reachable hcode h with rfl | rfl
  · exact (leads_one hcode height).fits
  · exact (leads_two hcode hheight).fits

theorem grows : p.Grows :=
  ⟨⟨1, 1⟩, ⟨1, 2⟩, .refl,
    (ReflTransGen.single (leads_one hcode 1)).tail (leads_two hcode (by decide)), rfl, by decide⟩

/-- The search for a superclass call does not end in this code. -/
theorem search_eq_none : p.search p.start = none :=
  Problem.search_eq_none (grows hcode) fun _ => fits_of_reachable hcode

theorem find_eq_error : p.find = .error (.endlessSearch p.className p.method) := by
  unfold Problem.find
  rw [search_eq_none hcode, hcode]
  rfl

end Code

/-- The search for its superclass call does not end. -/
theorem search_endless : constructor.search constructor.start = none ∧
    constructor.find = .error (.endlessSearch "a.Tower" constructorName) :=
  ⟨search_eq_none rfl, find_eq_error rfl⟩

end Tower

end Weaving.Injection

end StorageWeave
