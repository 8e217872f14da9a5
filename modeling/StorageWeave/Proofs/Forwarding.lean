import StorageWeave.Proofs.Calls

/-!
# Calls of entries, one after the other

The pass over calls replaces all calls of entries at once and moves every target by the number of
calls before it. The same code comes from walking through the code and treating one call after the
other (`MethodWeaver.forwardFrom?`): the call is replaced in its place and the load of the receiver
spliced in before it, and a branch to the call goes to the load. Targets then move one step for
every call before them, and they leave the range of targets along the way exactly if they do so in
the end (`MethodWeaver.forwardCalls?_eq_forwardFrom?`).
-/

namespace StorageWeave

open Bytecode Machine Weaving

namespace Bytecode

namespace Instruction

theorem mapTargets_congr {σ τ : Target → Target} {i : Instruction}
    (h : ∀ t ∈ i.targets, σ t = τ t) : i.mapTargets σ = i.mapTargets τ := by
  cases i <;> simp_all [mapTargets, targets]

theorem mapTargets_mapTargets (σ τ : Target → Target) (i : Instruction) :
    (i.mapTargets σ).mapTargets τ = i.mapTargets fun t => τ (σ t) := by
  cases i <;> simp [mapTargets]

/-- Moving targets leaves an instruction without targets as it is. -/
theorem mapTargets_of_targets_eq_nil {i : Instruction} (hi : i.targets = [])
    (τ : Target → Target) : i.mapTargets τ = i := by
  cases i <;> simp_all [mapTargets, targets]

end Instruction

namespace Code

variable {code code' : Code} {d d₁ d₂ : Target → Nat}

/-- Every target of the code can move on by its distance. -/
def Movable (code : Code) (distance : Target → Nat) : Prop :=
  ∀ i ∈ code, ∀ t ∈ i.targets, t.toNat + distance t < targetBound

/-- The code with every target moved on by its distance. -/
def moved (distance : Target → Nat) (code : Code) : Code :=
  code.map (Instruction.mapTargets fun t => t + (distance t).toUInt64)

theorem moveTargets?_eq_some_iff :
    code.moveTargets? d = some code' ↔ code.Movable d ∧ code.moved d = code' := by
  simp [moveTargets?, Movable, moved]

theorem movable_append {a b : Code} : Movable (a ++ b) d ↔ a.Movable d ∧ b.Movable d := by
  simp only [Movable, List.forall_mem_append]

/-- An instruction without targets can always move. -/
theorem movable_cons {i : Instruction} (hi : i.targets = []) :
    Movable (i :: code) d ↔ code.Movable d := by
  simp [Movable, hi]

theorem moved_append (a b : Code) : moved d (a ++ b) = moved d a ++ moved d b :=
  List.map_append

theorem moved_cons {i : Instruction} (hi : i.targets = []) :
    moved d (i :: code) = i :: moved d code := by
  rw [moved, List.map_cons, Instruction.mapTargets_of_targets_eq_nil hi]
  rfl

@[simp] theorem length_moved : (moved d code).length = code.length :=
  List.length_map _

theorem moved_eq_self (h : ∀ t, d t = 0) : moved d code = code := by
  refine (List.map_congr_left fun i _ => ?_).trans (List.map_id code)
  refine (Instruction.mapTargets_congr fun t _ => ?_).trans i.mapTargets_id
  rw [h]
  exact UInt64.add_zero t

theorem add_toUInt64_add (t : Target) (m n : Nat) :
    t + m.toUInt64 + n.toUInt64 = t + (m + n).toUInt64 := by
  rw [UInt64.add_assoc]
  exact congrArg (t + ·) (UInt64.ofNat_add m n).symm

/-- Targets can move on twice exactly if they can move all the way. -/
theorem movable_moved_iff (hle : ∀ t, d₁ t ≤ d t)
    (hd : ∀ t, t.toNat + d₁ t < targetBound → d₁ t + d₂ (t + (d₁ t).toUInt64) = d t) :
    code.Movable d₁ ∧ (code.moved d₁).Movable d₂ ↔ code.Movable d := by
  have hstep {t : Target} (ht : t.toNat + d₁ t < targetBound) :
      (t + (d₁ t).toUInt64).toNat + d₂ (t + (d₁ t).toUInt64) = t.toNat + d t := by
    rw [toNat_add_toUInt64 ht, Nat.add_assoc, hd t ht]
  constructor
  · rintro ⟨h₁, h₂⟩ i hi t ht
    rw [← hstep (h₁ i hi t ht)]
    refine h₂ _ (List.mem_map_of_mem hi) _ ?_
    rw [Instruction.targets_mapTargets]
    exact List.mem_map_of_mem ht
  · intro h
    have h₁ : code.Movable d₁ := fun i hi t ht =>
      Nat.lt_of_le_of_lt (Nat.add_le_add_left (hle t) _) (h i hi t ht)
    refine ⟨h₁, fun i' hi' t' ht' => ?_⟩
    obtain ⟨i, hi, rfl⟩ := List.mem_map.1 hi'
    rw [Instruction.targets_mapTargets] at ht'
    obtain ⟨t, ht, rfl⟩ := List.mem_map.1 ht'
    rw [hstep (h₁ i hi t ht)]
    exact h i hi t ht

theorem moved_moved (h : code.Movable d₁)
    (hd : ∀ t, t.toNat + d₁ t < targetBound → d₁ t + d₂ (t + (d₁ t).toUInt64) = d t) :
    (code.moved d₁).moved d₂ = code.moved d := by
  unfold moved
  rw [List.map_map]
  refine List.map_congr_left fun i hi => ?_
  rw [Function.comp_apply, Instruction.mapTargets_mapTargets]
  refine Instruction.mapTargets_congr fun t ht => ?_
  rw [add_toUInt64_add, hd t (h i hi t ht)]

/-- Targets can move around a spliced load and on exactly if they can move all the way. -/
theorem movable_around_iff {a b : Code} {i call : Instruction} (hi : i.targets = [])
    (hcall : call.targets = []) (hle : ∀ t, d₁ t ≤ d t)
    (hd : ∀ t, t.toNat + d₁ t < targetBound → d₁ t + d₂ (t + (d₁ t).toUInt64) = d t) :
    (a ++ b).Movable d₁ ∧ Movable (a.moved d₁ ++ [.loadThis, call] ++ b.moved d₁) d₂ ↔
      Movable (a ++ i :: b) d := by
  have hload : Instruction.loadThis.targets = [] := rfl
  have hmoved : Movable (a.moved d₁ ++ [.loadThis, call] ++ b.moved d₁) d₂ ↔
      (moved d₁ (a ++ b)).Movable d₂ := by
    rw [List.append_assoc, List.cons_append, List.cons_append, List.nil_append, moved_append,
      movable_append, movable_append, movable_cons hload, movable_cons hcall]
  rw [hmoved, movable_moved_iff hle hd, movable_append, movable_append, movable_cons hi]

theorem spliceDistance_redirect (position : Nat) (t : Target) :
    spliceDistance position 1 true t = if position < t.toNat then 1 else 0 := by
  simp [spliceDistance]

end Code

end Bytecode

namespace Weaving.MethodWeaver

/--
Hands the receiver on in one call after the other, from a position on. `calls` holds the call that
takes the place of each of the remaining instructions, if there is one.
-/
def forwardFrom? : Code → Nat → List (Option Instruction) → Option Code
  | code, _, [] => some code
  | code, position, none :: calls => forwardFrom? code (position + 1) calls
  | code, position, some call :: calls => do
    let code ← Code.replace? code position call
    let code ← Code.insert? code position [.loadThis] true
    forwardFrom? code (position + 2) calls

/-- How far a target moves when the calls from a position on are still to be treated. -/
def distanceFrom (position : Nat) (calls : List (Option Instruction)) (t : Target) : Nat :=
  (calls.take (t.toNat - position)).countP Option.isSome

variable {pre code out : Code} {calls : List (Option Instruction)} {call : Instruction}
  {position : Nat}

theorem distanceFrom_none :
    distanceFrom position (none :: calls) = distanceFrom (position + 1) calls := by
  funext t
  unfold distanceFrom
  obtain hle | hlt := Nat.lt_or_ge position t.toNat
  · obtain ⟨n, hn⟩ := Nat.exists_eq_add_of_lt hle
    rw [show t.toNat - position = n + 1 by omega, show t.toNat - (position + 1) = n by omega]
    simp
  · rw [Nat.sub_eq_zero_of_le hlt, Nat.sub_eq_zero_of_le (by omega)]
    rfl

theorem distanceFrom_some (t : Target) :
    distanceFrom position (some call :: calls) t =
      if position < t.toNat then distanceFrom (position + 1) calls t + 1 else 0 := by
  unfold distanceFrom
  split
  · next hlt =>
    rw [show t.toNat - position = t.toNat - (position + 1) + 1 by omega]
    simp
  · next hle =>
    rw [Nat.sub_eq_zero_of_le (Nat.not_lt.1 hle)]
    rfl

theorem spliceDistance_le_distanceFrom (t : Target) :
    Code.spliceDistance position 1 true t ≤ distanceFrom position (some call :: calls) t := by
  rw [distanceFrom_some, Code.spliceDistance_redirect]
  split <;> omega

/-- A call moves a target behind it by one, and the others move it on from there. -/
theorem spliceDistance_add_distanceFrom (t : Target)
    (ht : t.toNat + Code.spliceDistance position 1 true t < Code.targetBound) :
    Code.spliceDistance position 1 true t + distanceFrom (position + 2) calls
        (t + (Code.spliceDistance position 1 true t).toUInt64) =
      distanceFrom position (some call :: calls) t := by
  rw [distanceFrom_some, distanceFrom, toNat_add_toUInt64 ht, Code.spliceDistance_redirect]
  unfold distanceFrom
  split
  · next hlt =>
    rw [show t.toNat + 1 - (position + 2) = t.toNat - (position + 1) by omega, Nat.add_comm]
  · next hle =>
    rw [Nat.sub_eq_zero_of_le (by omega)]
    rfl

/-- What is left to do once a call has been replaced and the load put in before it. -/
theorem forwardFrom?_some {i : Instruction} {rest : Code} (hcall : call.targets = []) :
    forwardFrom? (pre ++ i :: rest) pre.length (some call :: calls) = some out ↔
      (pre ++ rest).Movable (Code.spliceDistance pre.length 1 true) ∧
      forwardFrom? (pre.moved (Code.spliceDistance pre.length 1 true) ++ [.loadThis, call] ++
        Code.moved (Code.spliceDistance pre.length 1 true) rest) (pre.length + 2) calls =
          some out := by
  have hreplace : Code.replace? (pre ++ i :: rest) pre.length call =
      some (pre ++ call :: rest) := by
    simp [Code.replace?]
  have hmovable : Code.Movable (pre ++ call :: rest) (Code.spliceDistance pre.length 1 true) ↔
      (pre ++ rest).Movable (Code.spliceDistance pre.length 1 true) := by
    simp only [Code.movable_append, Code.movable_cons hcall]
  have hinsert (code' : Code) :
      Code.insert? (pre ++ call :: rest) pre.length [.loadThis] true = some code' ↔
        (pre ++ rest).Movable (Code.spliceDistance pre.length 1 true) ∧
        pre.moved (Code.spliceDistance pre.length 1 true) ++ [.loadThis, call] ++
          Code.moved (Code.spliceDistance pre.length 1 true) rest = code' := by
    simp [Code.insert?, Option.bind_eq_some_iff, Code.moveTargets?_eq_some_iff, hmovable,
      Code.moved_append, Code.moved_cons hcall]
  rw [forwardFrom?, hreplace]
  simp only [Option.bind_eq_bind, Option.bind_some, Option.bind_eq_some_iff, hinsert]
  simp only [and_assoc, exists_and_left, exists_eq_left']

/-- What walking on through the code comes to. -/
theorem forwardFrom?_eq_some_iff (hlength : calls.length = code.length)
    (hcalls : ∀ i call, (i, some call) ∈ code.zip calls → i.targets = [] ∧ call.targets = []) :
    forwardFrom? (pre ++ code) pre.length calls = some out ↔
      (pre ++ code).Movable (distanceFrom pre.length calls) ∧
      pre.moved (distanceFrom pre.length calls) ++
        ((code.moved (distanceFrom pre.length calls)).zipWith forwardedBlock calls).flatten =
          out := by
  induction calls generalizing pre code with
  | nil =>
    obtain rfl := List.length_eq_zero_iff.1 hlength.symm
    have hzero (t : Target) : distanceFrom pre.length [] t = 0 := by simp [distanceFrom]
    have hmovable : pre.Movable (distanceFrom pre.length []) := by
      intro i _ t _
      rw [hzero]
      exact t.toNat_lt
    simp [forwardFrom?, hmovable, Code.moved_eq_self hzero]
  | cons r calls ih =>
    obtain ⟨i, rest, rfl⟩ := List.exists_cons_of_length_eq_add_one hlength.symm
    replace hlength : calls.length = rest.length := Nat.succ.inj hlength
    cases r with
    | none =>
      have hih := @ih (pre ++ [i]) rest hlength fun i call hmem => hcalls i call (by simp [hmem])
      rw [List.append_assoc, List.length_append] at hih
      rw [distanceFrom_none, forwardFrom?]
      refine hih.trans (and_congr_right' ?_)
      simp [Code.moved, forwardedBlock]
    | some call =>
      obtain ⟨hi, hcall⟩ := hcalls i call (by simp)
      have hih := @ih (pre.moved (Code.spliceDistance pre.length 1 true) ++ [.loadThis, call])
        (Code.moved (Code.spliceDistance pre.length 1 true) rest) (by simp [hlength]) (by
          intro i' call' hmem
          rw [Code.moved, List.zip_map_left] at hmem
          obtain ⟨⟨i, r⟩, hmem, heq⟩ := List.mem_map.1 hmem
          cases heq
          obtain ⟨hi, hcall⟩ := hcalls i call' (by simp [hmem])
          simp [hi, hcall])
      rw [show (pre.moved (Code.spliceDistance pre.length 1 true) ++ [.loadThis, call]).length =
        pre.length + 2 by simp] at hih
      have hle := @spliceDistance_le_distanceFrom calls call pre.length
      have hd := @spliceDistance_add_distanceFrom calls call pre.length
      rw [forwardFrom?_some hcall, ← Code.movable_around_iff hi hcall hle hd, and_assoc]
      refine and_congr_right fun hmovable => hih.trans (and_congr_right fun _ => ?_)
      obtain ⟨hpre, hrest⟩ := Code.movable_append.1 hmovable
      rw [Code.moved_append, Code.moved_moved hpre hd, Code.moved_cons rfl, Code.moved_cons hcall,
        Code.moved_moved hrest hd, Code.moved_cons hi]
      simp [Code.moved, forwardedBlock]

theorem forwardCalls?_eq_some_iff : forwardCalls? code calls = some out ↔
    code.Movable (forwardDistance (callsBefore calls)) ∧
      ((code.moved (forwardDistance (callsBefore calls))).zipWith forwardedBlock calls).flatten =
        out := by
  simp [forwardCalls?, Option.bind_eq_some_iff, Code.moveTargets?_eq_some_iff]

/-- **One pass does what treating one call after the other does.** -/
theorem forwardCalls?_eq_forwardFrom? (hlength : calls.length = code.length)
    (hcalls : ∀ i call, (i, some call) ∈ code.zip calls → i.targets = [] ∧ call.targets = []) :
    forwardCalls? code calls = forwardFrom? code 0 calls := by
  have hdistance : distanceFrom 0 calls = forwardDistance (callsBefore calls) := by
    funext t
    exact (forwardDistance_callsBefore calls t).symm
  refine Option.ext fun out => ?_
  have hfrom := @forwardFrom?_eq_some_iff [] code out calls hlength hcalls
  rw [List.nil_append, List.length_nil, hdistance] at hfrom
  exact forwardCalls?_eq_some_iff.trans hfrom.symm

variable {h : Hierarchy} {c : ClassDef} {m : MethodDef}

/-- What the pass over calls comes to. -/
theorem forward_eq_ok_iff_forwardCalls? : forward h (.exact h) c m code = .ok out ↔
    ∃ calls, code.mapM (forwarded? h (.exact h) c m) = .ok calls ∧
      forwardCalls? code calls = some out := by
  refine bind_eq_ok.trans (exists_congr fun calls => and_congr_right fun _ => ?_)
  split
  · next hsome => simp [hsome, pure, Except.pure]
  · next hnone => simp [hnone, throw, throwThe, MonadExceptOf.throw]

/-- Neither a call of an entry nor the call in its place has targets. -/
theorem targets_of_forwarded? {i : Instruction}
    (hi : forwarded? h (.exact h) c m i = .ok (some call)) :
    i.targets = [] ∧ call.targets = [] := by
  obtain ⟨hnone, -⟩ | ⟨_, _, _, _, role, rfl, -, hcall⟩ := forwarded?_eq_ok hi
  · cases hnone
  · split at hcall
    · cases hcall
      exact ⟨rfl, rfl⟩
    · cases hcall

/-- **The pass over calls** comes to what treating one call after the other comes to. -/
theorem forward_eq_ok_iff : forward h (.exact h) c m code = .ok out ↔
    ∃ calls, code.mapM (forwarded? h (.exact h) c m) = .ok calls ∧
      forwardFrom? code 0 calls = some out := by
  refine forward_eq_ok_iff_forwardCalls?.trans
    (exists_congr fun calls => and_congr_right fun hcalls => ?_)
  obtain ⟨hlength, hforwarded⟩ := List.forall₂_iff_zip.1 (forall₂_of_mapM hcalls)
  rw [forwardCalls?_eq_forwardFrom? hlength.symm fun i call hmem =>
    targets_of_forwarded? (hforwarded hmem)]

end Weaving.MethodWeaver

end StorageWeave
