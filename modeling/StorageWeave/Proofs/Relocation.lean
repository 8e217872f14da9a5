import Mathlib.Order.Monotone.Basic
import StorageWeave.Proofs.Failures
import StorageWeave.Proofs.Forwarding
import StorageWeave.Proofs.Injection
import StorageWeave.Proofs.SecondPass

/-!
# Where the instructions of a method go

Weaving keeps the instructions of a method in their order. `Hierarchy.Relocates h code f position
block woven` says that `woven` holds them at the positions `f`, each with its access redirected, its
signature widened if it calls an entry then, and its targets moved along; that the only other
instructions are a load of the receiver before each call of an entry and one block at a position;
and that no branch goes into the block. The pass over calls gives such code without a block
(`MethodWeaver.relocates_forward`), and a prologue can be spliced into such code, as it never comes
between a call and its load (`Hierarchy.Relocates.splice`).
-/

namespace StorageWeave

open Bytecode Machine

namespace Bytecode

namespace Code

theorem toNat_toUInt64 {n : Nat} (h : n < targetBound) : n.toUInt64.toNat = n := by
  unfold targetBound at h
  rw [Nat.toUInt64_eq, UInt64.toNat_ofNat']
  omega

theorem eq_toUInt64 {t : Target} {n : Nat} (h : t.toNat = n) : t = n.toUInt64 := by
  rw [← h]
  exact UInt64.ofNat_toNat.symm

variable {marked : Instruction → Bool} {place : Instruction → Instruction} {code : Code}

theorem firstInvalid?_eq_none {length position : Nat}
    (h : firstInvalid? length position code = none) :
    ∀ i ∈ code, ∀ t ∈ i.targets, t.toNat < length := by
  induction code generalizing position with
  | nil => simp
  | cons i code ih =>
    rw [firstInvalid?] at h
    split at h
    · cases h
    · next hfind =>
      refine List.forall_mem_cons.2 ⟨fun t ht => ?_, ih h⟩
      simpa using List.find?_eq_none.1 hfind t ht

/-- The branches of valid code stay in it. -/
theorem targets_of_validate (h : validate code = .ok ()) :
    ∀ i ∈ code, ∀ t ∈ i.targets, t.toNat < code.length := by
  unfold validate at h
  split at h
  · cases h
  · next hnone => exact firstInvalid?_eq_none hnone

theorem firstInvalid?_of_targets {length : Nat} (position : Nat)
    (h : ∀ i ∈ code, ∀ t ∈ i.targets, t.toNat < length) :
    firstInvalid? length position code = none := by
  induction code generalizing position with
  | nil => rfl
  | cons i code ih =>
    obtain ⟨hi, hcode⟩ := List.forall_mem_cons.1 h
    have hfind : i.targets.find? (fun t => decide (length ≤ t.toNat)) = none :=
      List.find?_eq_none.2 fun t ht => by simpa using hi t ht
    simp only [firstInvalid?, hfind]
    exact ih _ hcode

/-- Code whose branches stay in it is valid. -/
theorem validate_of_targets (h : ∀ i ∈ code, ∀ t ∈ i.targets, t.toNat < code.length) :
    validate code = .ok () := by
  rw [validate, firstInvalid?_of_targets 0 h]

theorem strictMono_spliced (position length : Nat) : StrictMono (spliced position length) := by
  intro b b' hlt
  unfold spliced
  split <;> split <;> omega

theorem le_spliced (position length b : Nat) : b ≤ spliced position length b := by
  unfold spliced
  split <;> omega

/-- Instructions stay next to each other if the block does not come between them. -/
theorem spliced_sub_one {position length b : Nat} (hpos : 0 < b) (hne : b ≠ position) :
    spliced position length (b - 1) = spliced position length b - 1 := by
  obtain ⟨b, rfl⟩ := Nat.exists_eq_add_one.2 hpos
  rw [spliced_succ hne]
  rfl

/-- Spliced code consists of the instructions of the code and the block. -/
theorem exists_spliced_eq {position length n : Nat}
    (h : ¬ (position ≤ n ∧ n < position + length)) : ∃ b, spliced position length b = n := by
  obtain hlt | hle := Nat.lt_or_ge n position
  · exact ⟨n, if_pos hlt⟩
  · refine ⟨n - length, ?_⟩
    rw [spliced, if_neg (by omega)]
    omega

/-! ## Loads before marked instructions -/

/-- Code with every instruction replaced, and the receiver loaded before the marked ones. -/
def withLoads (marked : Instruction → Bool) (place : Instruction → Instruction) (code : Code) :
    Code :=
  code.flatMap fun i => (if marked i then [.loadThis] else []) ++ [place i]

/-- Where the instruction of a position stands behind the loads up to it. -/
def behindLoads (marked : Instruction → Bool) (code : Code) (b : Nat) : Nat :=
  b + (code.take (b + 1)).countP marked

/--
Where a branch to a position goes when the instructions stand at the positions `f`: to the
instruction, or to the load before it if it is marked.
-/
def landing (marked : Instruction → Bool) (code : Code) (f : Nat → Nat) (t : Nat) : Nat :=
  if (code[t]?).any marked then f t - 1 else f t

theorem withLoads_cons (i : Instruction) :
    withLoads marked place (i :: code) =
      (if marked i then [.loadThis] else []) ++ place i :: withLoads marked place code := by
  simp [withLoads]

theorem behindLoads_cons_zero (i : Instruction) :
    behindLoads marked (i :: code) 0 = if marked i then 1 else 0 := by
  simp [behindLoads, List.countP_cons]

theorem behindLoads_cons_succ (i : Instruction) (b : Nat) :
    behindLoads marked (i :: code) (b + 1) =
      behindLoads marked code b + if marked i then 2 else 1 := by
  simp only [behindLoads, List.take_succ_cons, List.countP_cons]
  split <;> omega

theorem behindLoads_eq (marked : Instruction → Bool) (code : Code) (b : Nat) :
    behindLoads marked code b =
      b + (code.take b).countP marked + if (code[b]?).any marked then 1 else 0 := by
  rw [behindLoads, List.take_add_one, List.countP_append]
  cases code[b]? <;> simp [List.countP_cons, Nat.add_assoc]

theorem strictMono_behindLoads (marked : Instruction → Bool) (code : Code) :
    StrictMono (behindLoads marked code) := by
  refine strictMono_nat_of_lt_succ fun b => ?_
  rw [behindLoads_eq marked code (b + 1), behindLoads]
  omega

theorem behindLoads_pos {b : Nat} (h : (code[b]?).any marked = true) :
    0 < behindLoads marked code b := by
  rw [behindLoads_eq, if_pos h]
  omega

/-- There is room for a load before a marked instruction. -/
theorem behindLoads_add_one_lt {b b' : Nat} (hlt : b < b') (h : (code[b']?).any marked = true) :
    behindLoads marked code b + 1 < behindLoads marked code b' := by
  obtain ⟨b', rfl⟩ := Nat.exists_eq_add_one.2 (Nat.zero_lt_of_lt hlt)
  have hmono := (strictMono_behindLoads marked code).monotone (Nat.le_of_lt_succ hlt)
  have hlast : behindLoads marked code (b' + 1) = behindLoads marked code b' + 2 := by
    rw [behindLoads_eq, if_pos h, behindLoads]
    omega
  omega

/-- A target moves on by the marked instructions before it. -/
theorem landing_behindLoads (marked : Instruction → Bool) (code : Code) (t : Nat) :
    landing marked code (behindLoads marked code) t = t + (code.take t).countP marked := by
  rw [landing, behindLoads_eq]
  split <;> omega

theorem getElem?_withLoads (b : Nat) :
    (withLoads marked place code)[behindLoads marked code b]? = (code[b]?).map place := by
  induction code generalizing b with
  | nil => simp [withLoads]
  | cons i code ih =>
    cases b with
    | zero =>
      rw [withLoads_cons, behindLoads_cons_zero]
      cases marked i <;> simp
    | succ b =>
      rw [withLoads_cons, behindLoads_cons_succ, List.getElem?_cons_succ, ← ih b]
      cases marked i <;> simp

/-- The load before a marked instruction. -/
theorem getElem?_load {b : Nat} (h : (code[b]?).any marked = true) :
    (withLoads marked place code)[behindLoads marked code b - 1]? = some .loadThis := by
  induction code generalizing b with
  | nil => simp at h
  | cons i code ih =>
    cases b with
    | zero =>
      obtain hi : marked i = true := by simpa using h
      simp [withLoads_cons, behindLoads_cons_zero, hi]
    | succ b =>
      have hb : (code[b]?).any marked = true := by simpa using h
      obtain ⟨n, hn⟩ := Nat.exists_eq_add_one.2 (behindLoads_pos hb)
      have hload := ih hb
      rw [withLoads_cons, behindLoads_cons_succ]
      rw [hn] at hload ⊢
      cases marked i <;> simpa using hload

/-- Behind the loads there are the instructions and the loads. -/
theorem exists_of_lt_withLoads {n : Nat} (h : n < (withLoads marked place code).length) :
    (∃ b < code.length, behindLoads marked code b = n) ∨
      ∃ b, (code[b]?).any marked = true ∧ behindLoads marked code b = n + 1 := by
  induction code generalizing n with
  | nil => simp [withLoads] at h
  | cons i code ih =>
    obtain hlt | heq | hgt := Nat.lt_trichotomy n (behindLoads marked (i :: code) 0)
    · have hi : marked i = true := by
        by_contra hi
        simp [behindLoads_cons_zero, hi] at hlt
      rw [behindLoads_cons_zero, if_pos hi] at hlt
      refine .inr ⟨0, by simpa using hi, ?_⟩
      rw [behindLoads_cons_zero, if_pos hi]
      omega
    · exact .inl ⟨0, by simp, heq.symm⟩
    · -- behind the first instruction, one place for it and one for its load come off
      obtain ⟨n, rfl⟩ : ∃ m, n = m + if marked i then 2 else 1 := by
        rw [behindLoads_cons_zero] at hgt
        exact ⟨n - if marked i then 2 else 1, by split at hgt <;> simp_all <;> omega⟩
      have hn : n < (withLoads marked place code).length := by
        rw [withLoads_cons] at h
        cases hi : marked i <;> simp [hi] at h <;> omega
      refine (ih hn).imp ?_ ?_
      · rintro ⟨b, hb, rfl⟩
        exact ⟨b + 1, by simpa using hb, behindLoads_cons_succ i b⟩
      · rintro ⟨b, hb, hn⟩
        exact ⟨b + 1, by simpa using hb, by rw [behindLoads_cons_succ]; omega⟩

end Code

end Bytecode

namespace Weaving

/-! ## What becomes of an instruction -/

namespace Hierarchy

variable (h : Hierarchy)

/-- The class whose accessors stand for an access to a persistent lazy field of a storage class. -/
def lazyOwner? (owner name : String) (type : FieldType) : Option String :=
  if h.isLazy type ∧ h.isStorage owner then
    ((h.resolveField owner name).filter fun r => r.field.isPersistent).map ResolvedField.declaring
  else none

/-- The instruction, or the call of the accessor that stands for it. -/
def redirected (i : Instruction) : Instruction :=
  match i with
  | .getField owner name type =>
    match h.lazyOwner? owner name type with
    | some declaring => .invoke .special declaring (Names.getter name) ⟨[], some type⟩
    | none => i
  | .putField owner name type =>
    match h.lazyOwner? owner name type with
    | some declaring => .invoke .special declaring (Names.setter name) ⟨[type], none⟩
    | none => i
  | _ => i

/-- Whether an instruction is a call of a method with the role of an entry. -/
def callsEntry : Instruction → Bool
  | .invoke _ owner name signature =>
    match (Oracle.exact h).role h.config ⟨owner, name, signature⟩ with
    | .ok role => role.isEntry
    | .error _ => false
  | _ => false

/-- The instruction, with one more parameter for the caller if it calls an entry. -/
def widened (i : Instruction) : Instruction :=
  match i with
  | .invoke kind owner name signature =>
    if h.callsEntry i then .invoke kind owner name (h.config.widen signature) else i
  | _ => i

/-- Whether an instruction calls an entry once its access is redirected. -/
def handsOn (i : Instruction) : Bool := h.callsEntry (h.redirected i)

/-- An instruction as the passes over accesses and calls leave it. -/
def passed (i : Instruction) : Instruction := h.widened (h.redirected i)

variable {h}

theorem targets_redirected (i : Instruction) : (h.redirected i).targets = i.targets := by
  cases i with
  | getField owner name type | putField owner name type =>
    simp only [redirected]
    split <;> rfl
  | _ => rfl

theorem targets_widened (i : Instruction) : (h.widened i).targets = i.targets := by
  cases i with
  | invoke kind owner name signature =>
    simp only [widened]
    split <;> rfl
  | _ => rfl

theorem targets_passed (i : Instruction) : (h.passed i).targets = i.targets := by
  rw [passed, targets_widened, targets_redirected]

end Hierarchy

namespace MethodWeaver

variable {h : Hierarchy} {c : ClassDef} {m : MethodDef} {i i' : Instruction}

theorem accessorOwner_eq {owner name : String} {type : FieldType} {x : Option String}
    (hx : accessorOwner h (.exact h) c owner name type = .ok x) :
    x = h.lazyOwner? owner name type := by
  obtain ⟨rfl, hnone⟩ | ⟨hlazy, hstorage, r, hr, rfl⟩ := accessorOwner_eq_ok hx
  · unfold Hierarchy.lazyOwner?
    split
    · next hcond => simp_all
    · rfl
  · cases hpersistent : r.field.isPersistent <;>
      simp [Hierarchy.lazyOwner?, hlazy, hstorage, hr, hpersistent]

theorem redirect_eq (hi : redirect h (.exact h) c i = .ok i') : i' = h.redirected i := by
  obtain ⟨rfl, hkept⟩ | ⟨owner, name, type, declaring, hx, hi⟩ := redirect_eq_ok hi
  · cases i' with
    | getField owner name type =>
      have := accessorOwner_eq (hkept owner name type (.inl rfl))
      simp only [Hierarchy.redirected, ← this]
    | putField owner name type =>
      have := accessorOwner_eq (hkept owner name type (.inr rfl))
      simp only [Hierarchy.redirected, ← this]
    | _ => rfl
  · have := accessorOwner_eq hx
    obtain ⟨rfl, rfl⟩ | ⟨rfl, rfl⟩ := hi <;> simp only [Hierarchy.redirected, ← this]

theorem forwarded?_eq {r : Option Instruction} (hr : forwarded? h (.exact h) c m i = .ok r) :
    r = if h.callsEntry i then some (h.widened i) else none := by
  obtain ⟨rfl, hplain⟩ | ⟨kind, owner, name, signature, role, rfl, hrole, rfl⟩ :=
    forwarded?_eq_ok hr
  · have : h.callsEntry i = false := by
      cases i with
      | invoke kind owner name signature => exact absurd rfl (hplain kind owner name signature)
      | _ => rfl
    simp [this]
  · cases hentry : role.isEntry <;> simp [Hierarchy.widened, Hierarchy.callsEntry, hrole, hentry]

theorem eq_map_of_mapM {α β : Type} {f : α → Except WeaveError β} {g : α → β} {as : List α}
    {bs : List β} (hf : as.mapM f = .ok bs) (hg : ∀ {a b}, f a = .ok b → b = g a) :
    bs = as.map g := by
  have hall : List.Forall₂ (fun a b => g a = b) as bs :=
    (forall₂_of_mapM hf).imp fun _ _ hab => (hg hab).symm
  exact (List.forall₂_eq_eq_eq ▸ List.forall₂_map_left_iff.2 hall : as.map g = bs).symm

end MethodWeaver

/-! ## Relocated code -/

open Code (landing)

/--
`woven` holds the instructions of `code` at the positions `f` as the passes leave them, the receiver
loaded before every call of an entry, and a block at a position that no branch goes into.
-/
structure Hierarchy.Relocates (h : Hierarchy) (code : Code) (f : Nat → Nat) (position : Nat)
    (block woven : Code) : Prop where
  strictMono : StrictMono f
  /-- A branch goes to where its target stands, or to the load before it. -/
  getElem? : ∀ b i, code[b]? = some i → woven[f b]? =
    some ((h.passed i).mapTargets fun t => (landing h.handsOn code f t.toNat).toUInt64)
  fits : ∀ i ∈ code, ∀ t ∈ i.targets, landing h.handsOn code f t.toNat < Code.targetBound
  load : ∀ b i, code[b]? = some i → h.handsOn i = true →
    0 < f b ∧ woven[f b - 1]? = some .loadThis
  placed : Placed woven position block
  /-- The other instructions are the loads and the block, -/
  outside : ∀ n < woven.length, (∀ b < code.length, f b ≠ n) ↔
    (∃ b i, code[b]? = some i ∧ h.handsOn i = true ∧ f b = n + 1) ∨
      (position ≤ n ∧ n < position + block.length)
  /-- and no load is in the block. -/
  apart : ∀ b i, code[b]? = some i → h.handsOn i = true →
    ¬ (position ≤ f b - 1 ∧ f b - 1 < position + block.length)
  untargeted : ∀ i ∈ woven, ∀ t ∈ i.targets,
    ¬ (position ≤ t.toNat ∧ t.toNat < position + block.length)

namespace MethodWeaver

variable {h : Hierarchy} {c : ClassDef} {m : MethodDef} {code redirected body : Code}

/-- The calls that stand in the place of others, for every position of the code. -/
def entryCalls (h : Hierarchy) (code : Code) : List (Option Instruction) :=
  code.map fun i => if h.handsOn i then some (h.passed i) else none

theorem forwardDistance_entryCalls (code : Code) (t : Target) :
    forwardDistance (callsBefore (entryCalls h code)) t =
      (code.take t.toNat).countP h.handsOn := by
  rw [forwardDistance_callsBefore, entryCalls, ← List.map_take, List.countP_map]
  congr 1
  funext i
  cases hi : h.handsOn i <;> simp [hi]

theorem passed_eq_redirected {i : Instruction} (hi : h.handsOn i = false) :
    h.passed i = h.redirected i := by
  unfold Hierarchy.passed Hierarchy.widened
  split
  · next hinvoke => rw [if_neg]; simpa [Hierarchy.handsOn, hinvoke] using hi
  · rfl

theorem mapTargets_passed {i : Instruction} (hi : h.handsOn i = true) (τ : Target → Target) :
    (h.passed i).mapTargets τ = h.passed i := by
  refine Instruction.mapTargets_of_targets_eq_nil ?_ τ
  rw [Hierarchy.targets_passed, ← @Hierarchy.targets_redirected h i]
  unfold Hierarchy.handsOn Hierarchy.callsEntry at hi
  split at hi
  · next hinvoke =>
    rw [hinvoke]
    rfl
  · cases hi

/-- What the passes over accesses and calls make of code. -/
theorem forward_eq_ok_withLoads (hredirected : code.mapM (redirect h (.exact h) c) = .ok redirected)
    (hbody : forward h (.exact h) c m redirected = .ok body) :
    (∀ i ∈ code, ∀ t ∈ i.targets,
      t.toNat + (code.take t.toNat).countP h.handsOn < Code.targetBound) ∧
    body = code.withLoads h.handsOn fun i => (h.passed i).mapTargets fun t =>
      t + ((code.take t.toNat).countP h.handsOn).toUInt64 := by
  obtain rfl := eq_map_of_mapM hredirected redirect_eq
  obtain ⟨calls, hcalls, hbody⟩ := forward_eq_ok_iff_forwardCalls?.1 hbody
  obtain rfl : calls = entryCalls h code := by
    rw [eq_map_of_mapM hcalls forwarded?_eq, List.map_map]
    rfl
  obtain ⟨hmovable, rfl⟩ := forwardCalls?_eq_some_iff.1 hbody
  refine ⟨fun i hi t ht => ?_, ?_⟩
  · rw [← forwardDistance_entryCalls]
    refine hmovable (h.redirected i) (List.mem_map_of_mem hi) t ?_
    rwa [Hierarchy.targets_redirected]
  · rw [Code.withLoads, Code.moved, entryCalls, List.map_map, List.zipWith_map, List.zipWith_self,
      List.flatMap_def]
    congr 2
    funext i
    rw [← entryCalls]
    simp only [forwardDistance_entryCalls, Function.comp_apply]
    cases hi : h.handsOn i with
    | true => simp [forwardedBlock, mapTargets_passed hi]
    | false => simp [forwardedBlock, passed_eq_redirected hi]

/-- **The passes over accesses and calls** relocate code. -/
theorem relocates_forward (hredirected : code.mapM (redirect h (.exact h) c) = .ok redirected)
    (hbody : forward h (.exact h) c m redirected = .ok body) :
    h.Relocates code (code.behindLoads h.handsOn) 0 [] body := by
  obtain ⟨hfits, rfl⟩ := forward_eq_ok_withLoads hredirected hbody
  have hany {b : Nat} {i : Instruction} (hb : code[b]? = some i) (hi : h.handsOn i = true) :
      (code[b]?).any h.handsOn = true := by
    simpa [hb] using hi
  refine ⟨code.strictMono_behindLoads _, ?_, ?_, ?_, ⟨_, rfl⟩, ?_, ?_, ?_⟩
  · intro b i hb
    rw [Code.getElem?_withLoads, hb, Option.map_some]
    refine congrArg some (Instruction.mapTargets_congr fun t ht => Code.eq_toUInt64 ?_)
    rw [Hierarchy.targets_passed] at ht
    rw [Code.landing_behindLoads,
      toNat_add_toUInt64 (hfits i (List.mem_of_getElem? hb) t ht)]
  · intro i hi t ht
    rw [Code.landing_behindLoads]
    exact hfits i hi t ht
  · intro b i hb hi
    exact ⟨Code.behindLoads_pos (hany hb hi), Code.getElem?_load (hany hb hi)⟩
  · intro n hn
    constructor
    · intro hne
      obtain ⟨b, hb, hn⟩ | ⟨b, hb, hn⟩ := Code.exists_of_lt_withLoads hn
      · exact absurd hn (hne b hb)
      · obtain ⟨i, hi, hmarked⟩ := (Option.any_eq_true _ _).1 hb
        exact .inl ⟨b, i, hi, hmarked, hn⟩
    · rintro (⟨b', i, hb', hi, hn⟩ | ⟨hle, hlt⟩) b - rfl
      · obtain hlt | hle := Nat.lt_or_ge b b'
        · have := Code.behindLoads_add_one_lt hlt (hany hb' hi)
          omega
        · have := (code.strictMono_behindLoads h.handsOn).monotone hle
          omega
      · exact absurd hlt (Nat.not_lt.2 hle)
  · rintro b i - - ⟨hle, hlt⟩
    exact absurd hlt (Nat.not_lt.2 hle)
  · rintro i - t - ⟨hle, hlt⟩
    exact absurd hlt (Nat.not_lt.2 hle)

end MethodWeaver

namespace Hierarchy.Relocates

variable {h : Hierarchy} {code body block woven : Code} {f : Nat → Nat} {position : Nat}

/-- The branches of relocated code go where its targets stand. -/
theorem targets_lt (hr : h.Relocates code f position block woven)
    (hvalid : Code.validate woven = .ok ()) :
    ∀ i ∈ code, ∀ t ∈ i.targets, t.toNat < code.length := by
  intro i hi t ht
  by_contra hout
  obtain ⟨b, hb⟩ := List.mem_iff_getElem?.1 hi
  have hmem := List.mem_of_getElem? (hr.getElem? b i hb)
  have hnone : code[t.toNat]? = none := List.getElem?_eq_none (Nat.not_lt.1 hout)
  have htarget : (f t.toNat).toUInt64 ∈
      ((h.passed i).mapTargets fun t => (landing h.handsOn code f t.toNat).toUInt64).targets := by
    rw [Instruction.targets_mapTargets, targets_passed]
    refine List.mem_map.2 ⟨t, ht, ?_⟩
    rw [landing, hnone]
    rfl
  have hfit := hr.fits i hi t ht
  rw [landing, hnone] at hfit
  have htoNat : (f t.toNat).toUInt64.toNat = f t.toNat := Code.toNat_toUInt64 hfit
  have hlt := Code.targets_of_validate hvalid _ hmem _ htarget
  have hblock := hr.untargeted _ hmem _ htarget
  rw [htoNat] at hlt hblock
  -- no instruction of the code stands there, and no load, as both come before
  have hne : ∀ b' < code.length, f b' < f t.toNat := fun b' hb' =>
    hr.strictMono (Nat.lt_of_lt_of_le hb' (Nat.not_lt.1 hout))
  obtain ⟨b', i', hb', -, hload⟩ | hin :=
    (hr.outside _ hlt).1 fun b' hb' => Nat.ne_of_lt (hne b' hb')
  · have := hne b' (List.getElem?_eq_some_iff.1 hb').1
    omega
  · exact hblock hin

/-- A splice that hits no call of an entry moves its load with it. -/
theorem spliced_landing {g : Nat → Nat} (hbody : h.Relocates code g 0 [] body) {length : Nat}
    (hsite : ∀ b i, code[b]? = some i → h.handsOn i = true → g b ≠ position) (t : Nat) :
    Code.spliced position length (landing h.handsOn code g t) =
      landing h.handsOn code (fun b => Code.spliced position length (g b)) t := by
  unfold landing
  split
  · next hany =>
    obtain ⟨i, hi, hmarked⟩ := (Option.any_eq_true _ _).1 hany
    exact Code.spliced_sub_one (hbody.load t i hi hmarked).1 (hsite t i hi hmarked)
  · rfl

/-- After a splice the block stands outside the moved code, beside the loads. -/
theorem outside_splice {τ : Target → Target} {g : Nat → Nat}
    (hbody : h.Relocates code g 0 [] body) (hsplices : Splices τ body position block woven)
    (hsite : ∀ b i, code[b]? = some i → h.handsOn i = true → g b ≠ position) {n : Nat}
    (hn : n < woven.length) :
    (∀ b < code.length, Code.spliced position block.length (g b) ≠ n) ↔
      (∃ b i, code[b]? = some i ∧ h.handsOn i = true ∧
        Code.spliced position block.length (g b) = n + 1) ∨
        (position ≤ n ∧ n < position + block.length) := by
  constructor
  · intro hne
    by_cases hin : position ≤ n ∧ n < position + block.length
    · exact .inr hin
    obtain ⟨k, rfl⟩ := Code.exists_spliced_eq hin
    have hk : k < body.length := by
      by_contra hout
      have hnone := hsplices.getElem? k
      rw [List.getElem?_eq_none (Nat.not_lt.1 hout), List.getElem?_eq_getElem hn] at hnone
      cases hnone
    obtain ⟨b, i, hb, hi, hk⟩ | ⟨hle, hlt⟩ := (hbody.outside k hk).1 fun b hb hgb =>
      hne b hb (congrArg _ hgb)
    · refine .inl ⟨b, i, hb, hi, ?_⟩
      rw [hk, Code.spliced_succ (hk ▸ hsite b i hb hi)]
    · exact absurd hlt (Nat.not_lt.2 hle)
  · rintro (⟨b', i, hb', hi, hn⟩ | hin) b hb rfl
    · obtain ⟨hpos, hload⟩ := hbody.load b' i hb' hi
      have hlt : g b' - 1 < body.length := (List.getElem?_eq_some_iff.1 hload).1
      refine (hbody.outside _ hlt).2 (.inl ⟨b', i, hb', hi, by omega⟩) b hb ?_
      refine (Code.strictMono_spliced position block.length).injective ?_
      rw [Code.spliced_sub_one hpos (hsite b' i hb' hi), hn]
      rfl
    · exact Code.spliced_not_mem _ _ _ hin

theorem splice {τ : Target → Target} {g : Nat → Nat} (hbody : h.Relocates code g 0 [] body)
    (hsplices : Splices τ body position block woven) (hblock : ∀ i ∈ block, i.targets = [])
    (hsite : ∀ b i, code[b]? = some i → h.handsOn i = true → g b ≠ position) :
    h.Relocates code (fun b => Code.spliced position block.length (g b)) position block woven := by
  have htarget : ∀ i ∈ code, ∀ t ∈ i.targets,
      (τ (landing h.handsOn code g t.toNat).toUInt64).toNat =
        landing h.handsOn code (fun b => Code.spliced position block.length (g b)) t.toNat := by
    intro i hi t ht
    obtain ⟨b, hb⟩ := List.mem_iff_getElem?.1 hi
    rw [hsplices.targets _ (List.mem_of_getElem? (hbody.getElem? b i hb)) _ ?_,
      Code.toNat_toUInt64 (hbody.fits i hi t ht), hbody.spliced_landing hsite]
    rw [Instruction.targets_mapTargets, targets_passed]
    exact List.mem_map_of_mem ht
  refine ⟨(Code.strictMono_spliced position block.length).comp hbody.strictMono, ?_, ?_, ?_,
    hsplices.placed, fun n hn => hbody.outside_splice hsplices hsite hn, ?_, ?_⟩
  · intro b i hb
    rw [hsplices.getElem?, hbody.getElem? b i hb, Option.map_some,
      Instruction.mapTargets_mapTargets]
    refine congrArg some (Instruction.mapTargets_congr fun t ht => Code.eq_toUInt64 ?_)
    rw [targets_passed] at ht
    exact htarget i (List.mem_of_getElem? hb) t ht
  · intro i hi t ht
    rw [← htarget i hi t ht]
    exact UInt64.toNat_lt _
  · intro b i hb hi
    obtain ⟨hpos, hload⟩ := hbody.load b i hb hi
    refine ⟨Nat.lt_of_lt_of_le hpos (Code.le_spliced _ _ _), ?_⟩
    rw [← Code.spliced_sub_one hpos (hsite b i hb hi), hsplices.getElem?, hload]
    rfl
  · intro b i hb hi
    rw [← Code.spliced_sub_one (hbody.load b i hb hi).1 (hsite b i hb hi)]
    exact Code.spliced_not_mem _ _ _
  · intro i' hi' t ht
    obtain hmem | ⟨i, hi, rfl⟩ := hsplices.origin i' hi'
    · rw [hblock i' hmem] at ht
      cases ht
    · rw [Instruction.targets_mapTargets] at ht
      obtain ⟨t', ht', rfl⟩ := List.mem_map.1 ht
      rw [hsplices.targets i hi t' ht']
      exact Code.spliced_not_mem _ _ _

end Hierarchy.Relocates

/-! ## Woven methods -/

namespace MethodWeaver

variable {h : Hierarchy} {c : ClassDef} {m : MethodDef} {body : Code}

/-- A prologue comes first or behind a call. -/
theorem eq_zero_or_behind_call {slot : UInt16} {position : Nat}
    (hsite : (prologuePosition c m slot body : Except WeaveError Nat) = .ok position) :
    position = 0 ∨ ∃ call kind owner name signature, position = call + 1 ∧
      body[call]? = some (.invoke kind owner name signature) := by
  unfold prologuePosition at hsite
  split at hsite
  · split at hsite
    · cases hsite
    · rw [ofExcept_eq] at hsite
      obtain ⟨call, signature, rfl, -, hcall, -⟩ := Injection.Problem.find_spec hsite
      exact .inr ⟨call, _, _, _, signature, rfl, by simpa using hcall⟩
  · exact .inl (Except.ok.inj hsite).symm

/-- A prologue does not come between a call of an entry and its load. -/
theorem ne_of_prologuePosition {code : Code} {f : Nat → Nat} {slot : UInt16} {position : Nat}
    (hbody : h.Relocates code f 0 [] body)
    (hsite : (prologuePosition c m slot body : Except WeaveError Nat) = .ok position) :
    ∀ b i, code[b]? = some i → h.handsOn i = true → f b ≠ position := by
  rintro b i hb hi rfl
  obtain ⟨hpos, hload⟩ := hbody.load b i hb hi
  obtain hzero | ⟨call, kind, owner, name, signature, hcall, hinvoke⟩ :=
    eq_zero_or_behind_call hsite
  · omega
  · rw [hcall, Nat.add_sub_cancel, hinvoke] at hload
    cases hload

theorem targets_prologueCode {slot : UInt16} {expected : Option String}
    {amount : Option FieldType} : ∀ i ∈ prologueCode h slot expected amount, i.targets = [] := by
  intro i hi
  obtain rfl | ⟨_, _, rfl⟩ | ⟨_, rfl⟩ | ⟨_, _, _, _, rfl⟩ := prologueCode_cases hi <;> rfl

variable {role : Role} {code woven : Code}

/-- A prologue goes into relocated code. -/
theorem exists_relocates_injectPrologue {g : Nat → Nat} {prologue : Prologue}
    (hbody : h.Relocates code g 0 [] body)
    (hinject : injectPrologue h (.exact h) c m role body = .ok (woven, prologue)) :
    ∃ f position block, h.Relocates code f position block woven ∧ ∀ i ∈ block, i.targets = [] := by
  obtain ⟨position, expected, -, hposition, hinserted⟩ := injectPrologue_eq_ok hinject
  obtain ⟨-, τ, hsplices⟩ := exists_splices hinserted prologueCode_ne_nil
  exact ⟨_, position, _, hbody.splice hsplices targets_prologueCode
    (ne_of_prologuePosition hbody hposition), targets_prologueCode⟩

/-- **What is checked** is the relocated code. -/
theorem relocates_passes {r : Code × Option Prologue} (hr : passes h c m role code = .ok r) :
    ∃ f position block, h.Relocates code f position block r.1 ∧ ∀ i ∈ block, i.targets = [] := by
  obtain ⟨redirected, body, hredirected, hforward, ⟨-, hplain⟩ | ⟨-, prologue, hinject⟩⟩ :=
    passes_eq_ok hr
  · rw [hplain]
    exact ⟨_, 0, [], relocates_forward hredirected hforward, by simp⟩
  · exact exists_relocates_injectPrologue (relocates_forward hredirected hforward) hinject

end MethodWeaver

open MethodWeaver

/--
**The relocation of a method.** Woven code holds the instructions of the method in their order, each
as the passes over accesses and calls leave it, and its branches go to where their targets stand, or
to the load before if the target calls an entry once it is redirected. Besides there are these
loads, one for each such call, and the prologue of an entry at its place in the code without it.
-/
theorem weaveMethod_relocates {h : Hierarchy} {c : ClassDef} {m : MethodDef} {w : WovenMethod}
    {code : Code} (hw : weaveMethod h c m = .ok w) (hcode : m.code = some code) :
    ∃ role woven f position block,
      (Oracle.exact h).role h.config ⟨c.name, m.name, m.signature⟩ = .ok role ∧
      w.method.code = some woven ∧ h.Relocates code f position block woven ∧
      (∀ i ∈ code, ∀ t ∈ i.targets, t.toNat < code.length) ∧
      (role.isEntry = false → block = []) ∧
      (role.isEntry = true → ∃ expected body g,
        block = prologueCode h m.firstFreeSlot.toUInt16 expected (amountType? m role) ∧
        h.Relocates code g 0 [] body ∧ (∀ b, f b = Code.spliced position block.length (g b)) ∧
        (prologuePosition c m m.firstFreeSlot.toUInt16 body : Except WeaveError Nat) =
          .ok position) := by
  have hw := weaveMethod_exact hw
  obtain ⟨role, hrole, -⟩ := exists_role hw
  cases hentry : role.isEntry with
  | true =>
    obtain ⟨body, woven, position, expected, hwoven⟩ := exists_entryWoven hw hrole hentry hcode
    obtain ⟨redirected, hredirected, hforward⟩ := hwoven.passes
    obtain ⟨-, τ, hsplices⟩ := exists_splices hwoven.inserted prologueCode_ne_nil
    have hbody := relocates_forward hredirected hforward
    have hr := hbody.splice hsplices targets_prologueCode
      (ne_of_prologuePosition hbody hwoven.site)
    exact ⟨role, woven, _, position, _, hrole, hwoven.result, hr,
      hr.targets_lt (validate_woven hw hwoven.result),
      fun hplain => (by simp [hentry] at hplain),
      fun _ => ⟨expected, body, _, rfl, hbody, fun _ => rfl, hwoven.site⟩⟩
  | false =>
    obtain ⟨redirected, body, hredirected, hforward, hwoven⟩ :=
      exists_plainBody hw hrole hentry hcode
    have hr := relocates_forward hredirected hforward
    exact ⟨role, body, _, 0, [], hrole, hwoven, hr, hr.targets_lt (validate_woven hw hwoven),
      fun _ => rfl, fun htrue => (by simp [hentry] at htrue)⟩

namespace Stall

/-- A constructor whose superclass constructor is an entry, with branches to and around calls of
another entry. -/
def openCode : Code :=
  [.loadThis, .invoke .special "market.Stand" constructorName .void,
    .loadThis, .invoke .virtual "market.Stall" "note" .void, .load .int 1, .branchIf .ne 2,
    .loadThis, .goto 8, .invoke .virtual "market.Stall" "note" .void, .return none]

/-- An entry without parameters that does nothing. -/
def entry (name : String) : MethodDef where
  name
  signature := .void
  annotations := [⟨"runtime.Entry", none⟩]
  code := some [.return none]

def construct : MethodDef where
  name := constructorName
  signature := ⟨[.primitive .int], none⟩
  annotations := [⟨"runtime.Entry", none⟩]
  code := some openCode

def stall : ClassDef where
  name := "market.Stall"
  superclass := some "market.Stand"
  methods := [construct, entry "note"]

def stand : ClassDef where
  name := "market.Stand"
  superclass := some "runtime.Contract"
  methods := [entry constructorName]

def hierarchy : Hierarchy := ⟨⟨[⟨stall, stall.toBytes⟩, ⟨stand, stand.toBytes⟩]⟩, {}⟩

/-- The calls of entries hand the receiver on. -/
def openBody : Code :=
  [.loadThis, .loadThis,
    .invoke .special "market.Stand" constructorName ⟨[.reference "runtime.Contract"], none⟩,
    .loadThis, .loadThis,
    .invoke .virtual "market.Stall" "note" ⟨[.reference "runtime.Contract"], none⟩,
    .load .int 1, .branchIf .ne 3, .loadThis, .goto 10,
    .loadThis, .invoke .virtual "market.Stall" "note" ⟨[.reference "runtime.Contract"], none⟩,
    .return none]

/-- The prologue stands behind the superclass call, which hands the receiver on. -/
def openWoven : Code :=
  [.loadThis, .loadThis,
    .invoke .special "market.Stand" constructorName ⟨[.reference "runtime.Contract"], none⟩,
    .loadThis, .load .reference 2,
    .invoke .special "runtime.Contract" "entry" ⟨[.reference "runtime.Contract"], none⟩,
    .loadThis, .loadThis,
    .invoke .virtual "market.Stall" "note" ⟨[.reference "runtime.Contract"], none⟩,
    .load .int 1, .branchIf .ne 6, .loadThis, .goto 13,
    .loadThis, .invoke .virtual "market.Stall" "note" ⟨[.reference "runtime.Contract"], none⟩,
    .return none]

theorem role_construct : (Oracle.exact hierarchy).role hierarchy.config
    ⟨stall.name, constructorName, construct.signature⟩ = .ok .entry := by
  decide +kernel

theorem exists_weaveMethod :
    ∃ w, weaveMethod hierarchy stall construct = .ok w ∧ w.method.code = some openWoven := by
  have hfind : Injection.Problem.find ⟨"market.Stall", constructorName, openBody.toArray,
      "market.Stand", 2⟩ = .ok 3 :=
    Injection.Problem.find_of_searchWithin 4 rfl (by decide +kernel)
  have hpasses : checkEntry (.exact hierarchy) stall construct .entry = .ok () ∧
      openCode.mapM (redirect hierarchy (.exact hierarchy) stall) = .ok openCode ∧
      forward hierarchy (.exact hierarchy) stall construct openCode = .ok openBody ∧
      (completeEntry hierarchy stall construct .entry openBody 3).toOption.any
        (fun w => decide (w.method.code = some openWoven)) = true := by
    decide +kernel
  obtain ⟨hcheck, hredirected, hforward, hcomplete⟩ := hpasses
  obtain ⟨w, hw, hcode⟩ := exists_eq_ok_of_any hcomplete
  refine ⟨w, weaveMethod_eq_ok_iff.2 ?_, hcode⟩
  rw [weave_entry role_construct rfl hcheck rfl hredirected hforward (by decide),
    prologuePosition_constructor rfl rfl]
  exact bind_eq_ok.2 ⟨3, hfind, hw⟩

/-- The code of the constructor is relocated around a prologue. -/
theorem construct_relocates : ∃ f position block, block ≠ [] ∧
    hierarchy.Relocates openCode f position block openWoven := by
  obtain ⟨w, hw, hcode⟩ := exists_weaveMethod
  obtain ⟨role, woven, f, position, block, hrole', hwoven, hr, -, -, hentry⟩ :=
    weaveMethod_relocates hw rfl
  cases role_construct.symm.trans hrole'
  cases hcode.symm.trans hwoven
  obtain ⟨expected, -, -, rfl, -⟩ := hentry rfl
  exact ⟨f, position, _, prologueCode_ne_nil, hr⟩

end Stall

namespace Reading

/-- A storage class that marks the accessor of a lazy field as an entry. -/
def book : ClassDef where
  name := "lib.Book"
  superclass := some "runtime.Storage"
  fields := [{ name := "title", type := .reference "lang.String" }]
  methods := [{
    name := "§get_title"
    signature := ⟨[], some (.reference "lang.String")⟩
    annotations := [⟨"runtime.Entry", none⟩] }]

/-- Code with a branch to an access to the field. -/
def readCode : Code :=
  [.load .reference 1, .goto 2, .getField "lib.Book" "title" (.reference "lang.String"),
    .return (some .reference)]

def read : MethodDef where
  name := "read"
  signature := ⟨[.reference "lib.Book"], some (.reference "lang.String")⟩
  code := some readCode

def reader : ClassDef where
  name := "lib.Reader"
  methods := [read]

def hierarchy : Hierarchy := ⟨⟨[⟨reader, reader.toBytes⟩, ⟨book, book.toBytes⟩]⟩, {}⟩

/-- The branch goes to the load before the accessor call. -/
def readWoven : Code :=
  [.load .reference 1, .goto 2, .loadThis,
    .invoke .special "lib.Book" "§get_title"
      ⟨[.reference "runtime.Contract"], some (.reference "lang.String")⟩,
    .return (some .reference)]

theorem weaveMethod_read :
    (weaveMethod hierarchy reader read).map (·.method.code) = .ok (some readWoven) ∧
    hierarchy.passed (.getField "lib.Book" "title" (.reference "lang.String")) =
      .invoke .special "lib.Book" "§get_title"
        ⟨[.reference "runtime.Contract"], some (.reference "lang.String")⟩ := by
  decide +kernel

/--
A branch can go to a load though its target is no call of an entry in the code itself: an access to
a field may become one.
-/
theorem read_lands_on_load :
    (weaveMethod hierarchy reader read).map (·.method.code) = .ok (some readWoven) ∧
    ¬ ∃ f, StrictMono f ∧ ∀ b i, readCode[b]? = some i → readWoven[f b]? =
      some ((hierarchy.passed i).mapTargets fun t =>
        (landing hierarchy.callsEntry readCode f t.toNat).toUInt64) := by
  obtain ⟨hweave, haccess⟩ := weaveMethod_read
  refine ⟨hweave, ?_⟩
  rintro ⟨f, -, hf⟩
  have hgoto : readWoven[f 1]? = some (.goto (f 2).toUInt64) := hf 1 (.goto 2) rfl
  have hcall := hf 2 _ rfl
  rw [haccess] at hcall
  have hlt : f 2 < 5 := (List.getElem?_eq_some_iff.1 hcall).1
  have htwo : (f 2).toUInt64 = 2 := by
    simpa [readWoven, Instruction.loadThis] using List.mem_of_getElem? hgoto
  obtain htwo : f 2 = 2 := by
    rw [← Code.toNat_toUInt64 (show f 2 < Code.targetBound by unfold Code.targetBound; omega), htwo]
    rfl
  rw [htwo] at hcall
  cases hcall

end Reading

end Weaving

end StorageWeave
