import StorageWeave.Proofs.Relocation
import StorageWeave.Proofs.Rereading
import StorageWeave.Proofs.Searching

/-!
# Growing loops in woven code

Weaving puts loads and a prologue between the instructions of a method, and storing it reads its
constants back. None of this makes a loop that lets the stack grow: what is put in belongs to an
instruction of the code, and leaves the stack behind it as that instruction would have found it
(`Spreads`). So a run through the woven code is one through the code, with some more slots on the
stack where something was put in, and with the same number at the same position
(`Spreads.growsFrom`).

The search for a superclass call has an end in code without such a loop. The load of the receiver
adds none (`growsFrom_first_iff`), and neither does a prologue behind a superclass call that was
found (`not_growsFrom_of_splice`).
-/

namespace StorageWeave

open Bytecode Machine
open Relation (ReflTransGen)

namespace Weaving.Injection

/-! ## Spread code -/

/--
An instruction does at the position `n` what another one does at `b`, with `r` operands more:
it goes on to positions that belong to those where the other goes on to, without a rest.
-/
structure Plays (At : Nat → Nat → Nat → Prop) (n b r : Nat) (i' i : Instruction) : Prop where
  slots : i'.storedSlots = i.storedSlots
  exits : i.IsSwitchOrExit → i'.IsSwitchOrExit
  pops : i'.stackEffect.pops = i.stackEffect.pops + r
  pushes : i'.stackEffect.pushes = i.stackEffect.pushes
  continues : ∀ n', i'.Continues n n' → ∃ b', i.Continues b b' ∧ At n' b' 0

/--
`woven` is `code` spread out. `At n b r` says that the position `n` of `woven` belongs to the
position `b` of `code`, and that there are `r` slots more on the stack. What stands there prepares
the instruction of `b`, or does what that instruction does.
-/
structure Spreads (At : Nat → Nat → Nat → Prop) (code woven : Code) : Prop where
  start : At 0 0 0
  unique : ∀ {n b r b' r'}, At n b r → At n b' r' → b' = b ∧ r' = r
  step : ∀ {n b r i'}, At n b r → woven[n]? = some i' →
    (i'.stackEffect.pops ≤ r ∧
      ∀ n', i'.Continues n n' → At n' b (r - i'.stackEffect.pops + i'.stackEffect.pushes)) ∨
    ∃ i, code[b]? = some i ∧ Plays At n b r i' i

namespace Problem

/-- A loop that can be reached from a visit lets the stack grow. -/
def GrowsFrom (p : Problem) (s : Visit) : Prop :=
  ∃ v w, ReflTransGen p.Leads s v ∧ ReflTransGen p.Leads v w ∧ w.position = v.position ∧
    v.height < w.height

end Problem

namespace Spreads

variable {At : Nat → Nat → Nat → Prop} {p q : Problem} {v w w' : Visit}

/-- A visit of spread code belongs to one of the code. -/
def Belongs (At : Nat → Nat → Nat → Prop) (v w : Visit) : Prop :=
  ∃ r, At w.position v.position r ∧ w.height = v.height + r

theorem Belongs.step (hs : Spreads At p.code.toList q.code.toList)
    (hallows : ∀ i, p.code[v.position]? = some i → q.Allows i → p.Allows i) (h : Belongs At v w)
    (hleads : q.Leads w w') : ∃ v', ReflTransGen p.Leads v v' ∧ Belongs At v' w' := by
  obtain ⟨r, hat, hheight⟩ := h
  obtain ⟨i', hi', hallows', hpos, hcontinues, hafter⟩ := hleads
  have hpresent : q.code.toList[w.position]? = some i' := by simpa using hi'.present
  have hoperands := hi'.operands
  rw [Visit.after] at hpos hafter
  obtain ⟨hpops, hnext⟩ | ⟨i, hi, hplays⟩ := hs.step hat hpresent
  · refine ⟨v, .refl, _, hnext _ hcontinues, ?_⟩
    omega
  · obtain ⟨b', hcontinues', hat'⟩ := hplays.continues _ hcontinues
    have hi : p.code[v.position]? = some i := by simpa using hi
    have hpops := hplays.pops
    have hpushes := hplays.pushes
    have hlead : p.Leads v ⟨b', v.after i⟩ := by
      refine ⟨i, ⟨hi, by omega⟩, hallows i hi ⟨hplays.slots ▸ hallows'.1, ?_⟩, ?_, hcontinues', rfl⟩
      · exact fun hexit => hallows'.2 (hplays.exits hexit)
      · rw [Visit.after]
        omega
    refine ⟨_, .single hlead, 0, hat', ?_⟩
    simp only [Visit.after]
    omega

theorem Belongs.run (hs : Spreads At p.code.toList q.code.toList) {s : Visit}
    (hallows : ∀ v, ReflTransGen p.Leads s v → ∀ i, p.code[v.position]? = some i → q.Allows i →
      p.Allows i)
    (hv : ReflTransGen p.Leads s v) (h : Belongs At v w) (hrun : ReflTransGen q.Leads w w') :
    ∃ v', ReflTransGen p.Leads v v' ∧ Belongs At v' w' := by
  induction hrun with
  | refl => exact ⟨v, .refl, h⟩
  | tail _ hleads ih =>
    obtain ⟨u, hvu, hu⟩ := ih
    obtain ⟨v', huv', hv'⟩ := hu.step hs (hallows u (hv.trans hvu)) hleads
    exact ⟨v', hvu.trans huv', hv'⟩

/-- **A loop in spread code** that lets the stack grow is one in the code. -/
theorem growsFrom (hs : Spreads At p.code.toList q.code.toList)
    (hallows : ∀ v, ReflTransGen p.Leads ⟨0, 0⟩ v → ∀ i, p.code[v.position]? = some i →
      q.Allows i → p.Allows i)
    (h : q.GrowsFrom ⟨0, 0⟩) : p.GrowsFrom ⟨0, 0⟩ := by
  obtain ⟨w, w', hw, hloop, hposition, hheight⟩ := h
  have hstart : Belongs At ⟨0, 0⟩ ⟨0, 0⟩ := ⟨0, hs.start, rfl⟩
  obtain ⟨v, hv, hbelongs⟩ := hstart.run hs hallows .refl hw
  obtain ⟨v', hv', hbelongs'⟩ := hbelongs.run hs hallows hv hloop
  obtain ⟨r, hat, hr⟩ := hbelongs
  obtain ⟨r', hat', hr'⟩ := hbelongs'
  rw [hposition] at hat'
  obtain ⟨hsame, rfl⟩ := hs.unique hat hat'
  exact ⟨v, v', hv, hv', hsame, by omega⟩

/-- The code of a problem can be spread. -/
theorem growsFrom_code {code woven : Code} (hs : Spreads At code woven)
    (h : ({ p with code := woven.toArray } : Problem).GrowsFrom ⟨0, 0⟩) :
    ({ p with code := code.toArray } : Problem).GrowsFrom ⟨0, 0⟩ :=
  growsFrom (q := { p with code := woven.toArray }) hs (fun _ _ _ _ hallows => hallows) h

end Spreads

end Weaving.Injection

/-! ## Blocks -/

namespace Bytecode

namespace Instruction

variable {τ : Target → Target} {i : Instruction}

theorem isSwitchOrExit_mapTargets : (i.mapTargets τ).IsSwitchOrExit ↔ i.IsSwitchOrExit := by
  cases i <;> rfl

theorem continues_fallThrough (hi : i.control = .fallThrough) {n n' : Nat} :
    i.Continues n n' ↔ n' = n + 1 := by
  rw [Continues, hi]

end Instruction

namespace Code

/-- The height of the stack behind code that starts at a height, if every instruction finds its
operands and goes on to the next one. -/
def heightBehind? : Code → Nat → Option Nat
  | [], height => some height
  | i :: code, height =>
    if i.stackEffect.pops ≤ height ∧ i.control = .fallThrough then
      heightBehind? code (height - i.stackEffect.pops + i.stackEffect.pushes)
    else none

variable {block : Code} {i : Instruction}

theorem heightBehind?_append (code code' : Code) (height : Nat) :
    heightBehind? (code ++ code') height =
      (heightBehind? code height).bind (heightBehind? code') := by
  induction code generalizing height with
  | nil => rfl
  | cons i code ih =>
    simp only [List.cons_append, heightBehind?]
    split
    · exact ih _
    · rfl

/-- One more instruction of a block that goes through. -/
theorem heightBehind?_take_succ {start height final k : Nat}
    (hblock : heightBehind? block start = some final) (hi : block[k]? = some i)
    (hk : heightBehind? (block.take k) start = some height) :
    i.stackEffect.pops ≤ height ∧ i.control = .fallThrough ∧
      heightBehind? (block.take (k + 1)) start =
        some (height - i.stackEffect.pops + i.stackEffect.pushes) := by
  obtain ⟨hlt, hget⟩ := List.getElem?_eq_some_iff.1 hi
  have hsplit : block = block.take k ++ i :: block.drop (k + 1) := by
    rw [← hget, ← List.drop_eq_getElem_cons hlt, List.take_append_drop]
  have hrest : heightBehind? (i :: block.drop (k + 1)) height = some final := by
    rw [hsplit, heightBehind?_append, hk] at hblock
    exact hblock
  rw [heightBehind?] at hrest
  split at hrest
  · next hgoes =>
    refine ⟨hgoes.1, hgoes.2, ?_⟩
    rw [List.take_add_one, hi, heightBehind?_append, hk]
    exact if_pos hgoes
  · cases hrest

end Code

end Bytecode

namespace Weaving.Injection

/-- The positions of spliced code: an instruction stands where it has gone, and the block belongs to
the instruction behind it. -/
def SplicedAt (position : Nat) (block : Code) (n b r : Nat) : Prop :=
  n = Code.spliced position block.length b ∧ r = 0 ∨
    ∃ k < block.length, n = position + k ∧ b = position ∧
      Code.heightBehind? (block.take k) 0 = some r

theorem SplicedAt.unique {position n b r b' r' : Nat} {block : Code}
    (h : SplicedAt position block n b r) (h' : SplicedAt position block n b' r') :
    b' = b ∧ r' = r := by
  have hapart := Code.spliced_not_mem position block.length
  obtain ⟨rfl, rfl⟩ | ⟨k, hk, rfl, rfl, hr⟩ := h
  · obtain ⟨hb, rfl⟩ | ⟨k, hk, hn, -, -⟩ := h'
    · exact ⟨(Code.strictMono_spliced _ _).injective hb.symm, rfl⟩
    · exact absurd ⟨by omega, by omega⟩ (hapart b)
  · obtain ⟨hn, -⟩ | ⟨k', -, hn, rfl, hr'⟩ := h'
    · exact absurd ⟨by omega, by omega⟩ (hapart b')
    · obtain rfl : k' = k := by omega
      exact ⟨rfl, Option.some.inj (hr'.symm.trans hr)⟩

/-- **A block that leaves the stack as it was** spreads code. -/
theorem spreads_splice {τ : Target → Target} {code block woven : Code} {position : Nat}
    (hsplices : Splices τ code position block woven) (hposition : 0 < position)
    (hnil : block ≠ []) (hblock : block.heightBehind? 0 = some 0) :
    Spreads (SplicedAt position block) code woven where
  start := .inl ⟨(if_pos hposition).symm, rfl⟩
  unique := SplicedAt.unique
  step := by
    have hlength := List.length_pos_iff.2 hnil
    rintro n b r i' (⟨rfl, rfl⟩ | ⟨k, hk, rfl, rfl, hr⟩) hi'
    · rw [hsplices.getElem?] at hi'
      obtain ⟨i, hi, rfl⟩ := Option.map_eq_some_iff.1 hi'
      refine .inr ⟨i, hi, Instruction.storedSlots_mapTargets,
        Instruction.isSwitchOrExit_mapTargets.2, ?_, ?_, fun n' hn' => ?_⟩
      · rw [Instruction.stackEffect_mapTargets, Nat.add_zero]
      · rw [Instruction.stackEffect_mapTargets]
      · obtain ⟨rfl, hcontinues⟩ | ⟨t, ht, rfl, hcontinues⟩ :=
          Instruction.continues_mapTargets hn' b
        · refine ⟨b + 1, hcontinues, ?_⟩
          by_cases hb : b + 1 = position
          · -- control comes to the block from the instruction before it
            rw [Code.spliced_pred hb]
            exact .inr ⟨0, hlength, by omega, hb, rfl⟩
          · exact .inl ⟨(Code.spliced_succ hb).symm, rfl⟩
        · exact ⟨t.toNat, hcontinues, .inl ⟨hsplices.targets i (List.mem_of_getElem? hi) t ht, rfl⟩⟩
    · rw [hsplices.placed.getElem? hk] at hi'
      obtain ⟨hpops, hfall, hnext⟩ := Code.heightBehind?_take_succ hblock hi' hr
      refine .inl ⟨hpops, fun n' hn' => ?_⟩
      rw [Instruction.continues_fallThrough hfall] at hn'
      obtain hlt | heq := Nat.lt_or_eq_of_le (Nat.succ_le_of_lt hk)
      · exact .inr ⟨k + 1, hlt, hn', rfl, hnext⟩
      · rw [List.take_of_length_le heq.ge, hblock] at hnext
        refine .inl ⟨?_, (Option.some.inj hnext).symm⟩
        rw [hn', Code.spliced, if_neg (Nat.lt_irrefl _)]
        omega

end Weaving.Injection

/-- A prologue leaves the stack as it was. -/
theorem Weaving.MethodWeaver.heightBehind?_prologueCode {h : Hierarchy} {slot : UInt16}
    {expected : Option String} {amount : Option FieldType} :
    (prologueCode h slot expected amount).heightBehind? 0 = some 0 := by
  have hcasts (names : List String) :
      Code.heightBehind? (names.map Instruction.checkCast) 2 = some 2 := by
    induction names with
    | nil => rfl
    | cons name names ih => exact ih
  have hhook : Code.heightBehind? ((amount.toList.map fun type => .load type.valueKind 1) ++
      [.invoke .special h.config.contractRoot (hookName amount) (hookSignature h amount)]) 2 =
        some 0 := by
    cases amount with
    | none => rfl
    | some type =>
      cases type with
      | primitive kind => cases kind <;> rfl
      | reference className => rfl
  rw [prologueCode_eq, prologueLoads, List.append_assoc, List.append_assoc,
    Code.heightBehind?_append]
  show (Code.heightBehind? _ 2) = _
  rw [Code.heightBehind?_append, hcasts]
  exact hhook

/-! ## Passes over accesses and calls -/

namespace Weaving

namespace Hierarchy

variable {h : Hierarchy}

/-- An instruction that takes `r` slots more than another one, and does the same otherwise. -/
structure Takes (r : Nat) (i i' : Instruction) : Prop where
  slots : i'.storedSlots = i.storedSlots
  control : i'.control = i.control
  pops : i'.stackEffect.pops = i.stackEffect.pops + r
  pushes : i'.stackEffect.pushes = i.stackEffect.pushes

theorem Takes.refl (i : Instruction) : Takes 0 i i := ⟨rfl, rfl, rfl, rfl⟩

/-- An accessor takes and leaves what the access does. -/
theorem takes_redirected (i : Instruction) : Takes 0 i (h.redirected i) := by
  cases i with
  | getField owner name type =>
    cases howner : h.lazyOwner? owner name type with
    | none => simp only [redirected, howner]; exact .refl _
    | some declaring => simp only [redirected, howner]; exact ⟨rfl, rfl, rfl, rfl⟩
  | putField owner name type =>
    cases howner : h.lazyOwner? owner name type with
    | none => simp only [redirected, howner]; exact .refl _
    | some declaring => simp only [redirected, howner]; exact ⟨rfl, rfl, rfl, rfl⟩
  | _ => exact .refl _

/-- A call of an entry takes the caller too. -/
theorem takes_widened (i : Instruction) :
    Takes (if h.callsEntry i then 1 else 0) i (h.widened i) := by
  cases i with
  | invoke kind owner name signature =>
    cases hentry : h.callsEntry (.invoke kind owner name signature) with
    | false => simp only [widened, hentry]; exact .refl _
    | true =>
      simp only [widened, hentry, if_true]
      refine ⟨rfl, rfl, ?_, rfl⟩
      simp [Instruction.stackEffect, Config.widen, FieldType.size, Nat.add_assoc]
  | _ => exact .refl _

theorem takes_passed (i : Instruction) :
    Takes (if h.handsOn i then 1 else 0) i (h.passed i) := by
  have hredirected := h.takes_redirected i
  have hwidened := h.takes_widened (h.redirected i)
  refine ⟨hwidened.slots.trans hredirected.slots, hwidened.control.trans hredirected.control, ?_,
    hwidened.pushes.trans hredirected.pushes⟩
  rw [passed, handsOn, hwidened.pops, hredirected.pops, Nat.add_zero]

end Hierarchy

namespace Injection

theorem isSwitchOrExit_of_control {i i' : Instruction} (h : i'.control = i.control) :
    i'.IsSwitchOrExit ↔ i.IsSwitchOrExit := by
  rw [← Problem.isUnsupported_iff, ← Problem.isUnsupported_iff, Problem.isUnsupported,
    Problem.isUnsupported, h]

/-- The positions of code with loads: the load before a marked instruction belongs to it, and the
instruction then finds the receiver on the stack. -/
def LoadedAt (marked : Instruction → Bool) (code : Code) (n b r : Nat) : Prop :=
  n = b + (code.take b).countP marked + r ∧ n ≤ code.behindLoads marked b

theorem loadedAt_landing (marked : Instruction → Bool) (code : Code) (t : Nat) :
    LoadedAt marked code (t + (code.take t).countP marked) t 0 := by
  refine ⟨rfl, ?_⟩
  rw [Code.behindLoads_eq]
  exact Nat.le_add_right _ _

theorem LoadedAt.le {marked : Instruction → Bool} {code : Code} {n b r b' r' : Nat}
    (h : LoadedAt marked code n b r) (h' : LoadedAt marked code n b' r') : b' ≤ b := by
  by_contra hlt
  obtain ⟨k, rfl⟩ := Nat.exists_eq_add_of_lt (Nat.not_le.1 hlt)
  have hmono := (code.strictMono_behindLoads marked).monotone (Nat.le_add_right b k)
  have hlast : code.behindLoads marked (b + k) = b + k + (code.take (b + k + 1)).countP marked :=
    rfl
  have hn := h.2
  have hn' := h'.1
  omega

theorem LoadedAt.unique {marked : Instruction → Bool} {code : Code} {n b r b' r' : Nat}
    (h : LoadedAt marked code n b r) (h' : LoadedAt marked code n b' r') : b' = b ∧ r' = r := by
  obtain rfl := Nat.le_antisymm (h.le h') (h'.le h)
  exact ⟨rfl, Nat.add_left_cancel (h'.1.symm.trans h.1)⟩

/-- **The passes over accesses and calls** spread code. -/
theorem spreads_forward {h : Hierarchy} {c : ClassDef} {m : MethodDef} {code redirected body : Code}
    (hredirected : code.mapM (MethodWeaver.redirect h (.exact h) c) = .ok redirected)
    (hbody : MethodWeaver.forward h (.exact h) c m redirected = .ok body) :
    Spreads (LoadedAt h.handsOn code) code body where
  start := loadedAt_landing _ _ 0
  unique := LoadedAt.unique
  step := by
    obtain ⟨hfits, rfl⟩ := MethodWeaver.forward_eq_ok_withLoads hredirected hbody
    rintro n b r i' ⟨hn, hle⟩ hi'
    have hbehind := Code.behindLoads_eq h.handsOn code b
    obtain hlt | rfl := Nat.lt_or_eq_of_le hle
    · -- the receiver is loaded for a call of an entry
      have hmarked : (code[b]?).any h.handsOn = true := by
        by_contra hmarked
        rw [if_neg hmarked] at hbehind
        omega
      rw [if_pos hmarked] at hbehind
      have hload := @Code.getElem?_load h.handsOn (fun i => (h.passed i).mapTargets fun t =>
        t + ((code.take t.toNat).countP h.handsOn).toUInt64) _ _ hmarked
      rw [show code.behindLoads h.handsOn b - 1 = n by omega, hi'] at hload
      cases hload
      refine .inl ⟨Nat.zero_le _, fun n' hn' => ?_⟩
      rw [Instruction.continues_fallThrough rfl] at hn'
      show LoadedAt h.handsOn code n' b (r - 0 + 1)
      exact ⟨by omega, by omega⟩
    · rw [Code.getElem?_withLoads] at hi'
      obtain ⟨i, hi, rfl⟩ := Option.map_eq_some_iff.1 hi'
      have htakes := h.takes_passed i
      have hr : r = if h.handsOn i then 1 else 0 := by
        simp only [hi, Option.any_some] at hbehind
        omega
      refine .inr ⟨i, hi, ?_, fun hexit => ?_, ?_, ?_, fun n' hn' => ?_⟩
      · rw [Instruction.storedSlots_mapTargets, htakes.slots]
      · exact Instruction.isSwitchOrExit_mapTargets.2
          ((isSwitchOrExit_of_control htakes.control).2 hexit)
      · rw [Instruction.stackEffect_mapTargets, htakes.pops, hr]
      · rw [Instruction.stackEffect_mapTargets, htakes.pushes]
      · obtain ⟨rfl, hcontinues⟩ | ⟨t, ht, rfl, hcontinues⟩ :=
          Instruction.continues_mapTargets hn' b
        all_goals rw [Instruction.Continues, htakes.control] at hcontinues
        · refine ⟨b + 1, hcontinues, ?_⟩
          rw [Code.behindLoads, Nat.add_right_comm]
          exact loadedAt_landing _ _ (b + 1)
        · rw [Hierarchy.targets_passed] at ht
          refine ⟨t.toNat, hcontinues, ?_⟩
          rw [toNat_add_toUInt64 (hfits i (List.mem_of_getElem? hi) t ht)]
          exact loadedAt_landing _ _ t.toNat

theorem takes_reread {i i' : Instruction} (h : i.reread? = some i') : Hierarchy.Takes 0 i i' := by
  cases i with
  | const value =>
    obtain ⟨value', hvalue, rfl⟩ := Option.map_eq_some_iff.1 h
    refine ⟨rfl, rfl, rfl, ?_⟩
    cases value with
    | float x | double x =>
      obtain ⟨y, -, rfl⟩ := Option.map_eq_some_iff.1 hvalue
      rfl
    | _ =>
      cases hvalue
      rfl
  | _ =>
    cases h
    exact .refl _

/-- Code that is read back stands where it stood. -/
theorem spreads_reread {code code' : Code}
    (h : List.Forall₂ (fun i i' => i.reread? = some i') code code') :
    Spreads (fun n b r => n = b ∧ r = 0) code code' where
  start := ⟨rfl, rfl⟩
  unique := by
    rintro n b r b' r' ⟨rfl, rfl⟩ ⟨rfl, rfl⟩
    exact ⟨rfl, rfl⟩
  step := by
    rintro n b r i' ⟨rfl, rfl⟩ hi'
    obtain ⟨hlt', rfl⟩ := List.getElem?_eq_some_iff.1 hi'
    have hlt : n < code.length := h.length_eq ▸ hlt'
    have htakes := takes_reread (h.get hlt hlt')
    refine .inr ⟨_, List.getElem?_eq_getElem hlt, htakes.slots,
      (isSwitchOrExit_of_control htakes.control).2, htakes.pops, htakes.pushes, fun n' hn' => ?_⟩
    rw [Instruction.Continues, show code'[n].control = code[n].control from htakes.control] at hn'
    exact ⟨n', hn', rfl, rfl⟩

/-! ## Growing loops -/

namespace Problem

variable {p : Problem} {v w : Visit}

theorem leads_first (hfirst : p.code[0]? = some .loadThis) :
    p.Leads ⟨0, 0⟩ w ↔ w = ⟨1, 1⟩ := by
  constructor
  · rintro ⟨i, hi, -, -, hcontinues, hheight⟩
    obtain rfl := hi.unique hfirst
    obtain ⟨b, height⟩ := w
    cases hcontinues
    cases hheight
    rfl
  · rintro rfl
    exact ⟨.loadThis, ⟨hfirst, Nat.zero_le _⟩, ⟨List.not_mem_nil, id⟩, Nat.one_pos, rfl, rfl⟩

/-- What can be reached from the first instruction is that one, or can be reached from the next. -/
theorem eq_or_reachable (hfirst : p.code[0]? = some .loadThis)
    (h : ReflTransGen p.Leads ⟨0, 0⟩ v) : v = ⟨0, 0⟩ ∨ p.Reachable v := by
  obtain rfl | ⟨w, hw, hwv⟩ := h.cases_head
  · exact .inl rfl
  · obtain rfl := (leads_first hfirst).1 hw
    exact .inr hwv

/-- The load of the receiver is in no growing loop that the rest of the code has not. -/
theorem growsFrom_first_iff (hfirst : p.code[0]? = some .loadThis) :
    p.GrowsFrom ⟨0, 0⟩ ↔ p.Grows := by
  constructor
  · rintro ⟨v, w, hv, hvw, hposition, hheight⟩
    obtain rfl | hv := eq_or_reachable hfirst hv
    · -- a loop around the load goes round once more from where it has come to
      obtain rfl | hw := eq_or_reachable hfirst hvw
      · exact absurd hheight (Nat.lt_irrefl _)
      · have hagain := raised_of_leads hvw w.height
        obtain ⟨b, height⟩ := w
        cases hposition
        refine ⟨_, ⟨0, height + height⟩, hw, ?_, rfl, ?_⟩
        · simpa [Visit.raised] using hagain
        · simpa using hheight
    · exact ⟨v, w, hv, hvw, hposition, hheight⟩
  · rintro ⟨v, w, hv, hvw, hposition, hheight⟩
    exact ⟨v, w, .head ((leads_first hfirst).2 rfl) hv, hvw, hposition, hheight⟩

/-- **A prologue makes no growing loop**: its place was found, so there was none before. -/
theorem not_growsFrom_of_splice {q : Problem} {τ : Target → Target} {block : Code} {position : Nat}
    (hfind : p.find = .ok position)
    (hsplices : Splices τ p.code.toList position block q.code.toList) (hnil : block ≠ [])
    (hblock : block.heightBehind? 0 = some 0) : ¬ q.GrowsFrom ⟨0, 0⟩ := by
  intro hgrows
  have haccepts := accepts_of_find hfind
  have hfirst : p.code[0]? = some .loadThis := haccepts.receiver
  obtain ⟨call, rfl, -⟩ := haccepts.call
  have hspreads := spreads_splice hsplices call.succ_pos hnil hblock
  refine finite_reachable_iff.1 haccepts.finite ((growsFrom_first_iff hfirst).1 ?_)
  refine hspreads.growsFrom (fun v hv i hi _ => ?_) hgrows
  obtain rfl | hv := eq_or_reachable hfirst hv
  · cases hfirst.symm.trans hi
    exact ⟨List.not_mem_nil, id⟩
  · obtain ⟨j, hj, hallows, -⟩ := haccepts.fits v hv
    exact hj.unique hi ▸ hallows

end Problem

end Injection

end Weaving

end StorageWeave
