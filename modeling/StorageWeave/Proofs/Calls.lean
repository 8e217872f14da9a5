import StorageWeave.Proofs.Prologue
import StorageWeave.Proofs.Redirection

/-!
# The calls in woven code

A call stays in the code of a method, with the signature of the role of what it calls
(`invoke_mem_woven`). Every call in woven code is such a call, or one of an accessor in place of a
field access, or the hook of a prologue (`origin_of_invoke`).
-/

namespace StorageWeave

open Bytecode Machine

namespace Weaving

theorem Config.widen_ne (config : Config) (s : Signature) : config.widen s ≠ s := by
  intro h
  have := congrArg (fun s : Signature => s.params.length) h
  simp [widen, Signature.withParam] at this

/-- The signatures of two roles are the same if both are entries or none is. -/
theorem Role.signature_eq_iff {r r' : Role} {config : Config} {s : Signature} :
    r.signature config s = r'.signature config s ↔ r.isEntry = r'.isEntry := by
  unfold Role.signature
  cases r.isEntry <;> cases r'.isEntry <;> simp [config.widen_ne s, (config.widen_ne s).symm]

namespace MethodWeaver

variable {h : Hierarchy} {c : ClassDef} {m : MethodDef} {w : WovenMethod} {code code' : Code}

/-! ## Calls of entries -/

theorem forward_eq_ok (hf : forward h (.exact h) c m code = .ok code') :
    ∃ calls τ, List.Forall₂ (fun i r => forwarded? h (.exact h) c m i = .ok r) code calls ∧
      code' = ((code.map (Instruction.mapTargets τ)).zipWith forwardedBlock calls).flatten := by
  obtain ⟨calls, hcalls, hf⟩ := bind_eq_ok.1 hf
  unfold forwardCalls? Code.moveTargets? at hf
  split at hf
  · next code'' hmoved =>
    cases hf
    split at hmoved
    · exact ⟨calls, _, forall₂_of_mapM hcalls, (Option.some.inj hmoved).symm⟩
    · cases hmoved
  · cases hf

/-- What the pass over calls makes of each instruction. -/
theorem mem_forward_iff {calls : List (Option Instruction)} {τ : Target → Target} {i' : Instruction}
    (hcalls : List.Forall₂ (fun i r => forwarded? h (.exact h) c m i = .ok r) code calls) :
    i' ∈ ((code.map (Instruction.mapTargets τ)).zipWith forwardedBlock calls).flatten ↔
      ∃ i ∈ code, ∃ r, forwarded? h (.exact h) c m i = .ok r ∧
        i' ∈ forwardedBlock (i.mapTargets τ) r := by
  induction hcalls with
  | nil => simp
  | @cons i r code calls hi _ ih =>
    rw [List.map_cons, List.zipWith_cons_cons, List.flatten_cons, List.mem_append, ih]
    simp only [List.mem_cons, exists_eq_or_imp, hi, Except.ok.injEq, exists_eq_left']

theorem forwarded?_eq_ok {i : Instruction} {r : Option Instruction}
    (hr : forwarded? h (.exact h) c m i = .ok r) :
    (r = none ∧ ∀ kind owner name signature, i ≠ .invoke kind owner name signature) ∨
      ∃ kind owner name signature role, i = .invoke kind owner name signature ∧
        (Oracle.exact h).role h.config ⟨owner, name, signature⟩ = .ok role ∧
        r = if role.isEntry then some (.invoke kind owner name (h.config.widen signature))
          else none := by
  unfold forwarded? at hr
  split at hr
  · next kind owner name signature =>
    obtain ⟨role, hrole, hr⟩ := bind_eq_ok.1 hr
    refine .inr ⟨kind, owner, name, signature, role, rfl, hrole, ?_⟩
    split at hr
    · next hentry =>
      split at hr
      · cases hr
      · rw [if_pos hentry]
        exact (Except.ok.inj hr).symm
    · next hentry =>
      rw [if_neg hentry]
      exact (Except.ok.inj hr).symm
  · next hi => exact .inl ⟨(Except.ok.inj hr).symm, hi⟩

/-- Moved targets make no call, and change none. -/
theorem mapTargets_eq_invoke {τ : Target → Target} {i : Instruction} {kind : InvokeKind}
    {owner name : String} {signature : Signature} :
    i.mapTargets τ = .invoke kind owner name signature ↔
      i = .invoke kind owner name signature := by
  cases i <;> simp [Instruction.mapTargets]

/-- A call in the place of an instruction is that one, with the signature of its role. -/
theorem invoke_mem_forwardedBlock {i : Instruction} {r : Option Instruction} {τ : Target → Target}
    {kind : InvokeKind} {owner name : String} {signature : Signature}
    (hr : forwarded? h (.exact h) c m i = .ok r) :
    .invoke kind owner name signature ∈ forwardedBlock (i.mapTargets τ) r ↔
      ∃ s role, i = .invoke kind owner name s ∧
        (Oracle.exact h).role h.config ⟨owner, name, s⟩ = .ok role ∧
        signature = role.signature h.config s := by
  obtain ⟨rfl, hplain⟩ | ⟨kind', owner', name', s', role', rfl, hrole', rfl⟩ := forwarded?_eq_ok hr
  · simp only [forwardedBlock, List.mem_singleton]
    constructor
    · intro hi
      exact absurd (mapTargets_eq_invoke.1 hi.symm) (hplain _ _ _ _)
    · rintro ⟨s, role, hi, -⟩
      exact absurd hi (hplain _ _ _ _)
  · have hblock : .invoke kind owner name signature ∈ forwardedBlock
        (Instruction.mapTargets τ (.invoke kind' owner' name' s'))
        (if role'.isEntry then some (.invoke kind' owner' name' (h.config.widen s')) else none) ↔
          kind = kind' ∧ owner = owner' ∧ name = name' ∧
            signature = role'.signature h.config s' := by
      unfold Role.signature
      cases role'.isEntry <;> simp [forwardedBlock, Instruction.mapTargets, Instruction.loadThis]
    rw [hblock]
    constructor
    · rintro ⟨rfl, rfl, rfl, rfl⟩
      exact ⟨s', role', rfl, hrole', rfl⟩
    · rintro ⟨s, role, hi, hrole, rfl⟩
      cases hi
      cases hrole.symm.trans hrole'
      exact ⟨rfl, rfl, rfl, rfl⟩

/-- The calls after the pass are those before it, with the signatures of their roles. -/
theorem invoke_mem_forward {kind : InvokeKind} {owner name : String} {signature : Signature}
    (hf : forward h (.exact h) c m code = .ok code') :
    .invoke kind owner name signature ∈ code' ↔
      ∃ s role, .invoke kind owner name s ∈ code ∧
        (Oracle.exact h).role h.config ⟨owner, name, s⟩ = .ok role ∧
        signature = role.signature h.config s := by
  obtain ⟨calls, τ, hcalls, rfl⟩ := forward_eq_ok hf
  rw [mem_forward_iff hcalls]
  constructor
  · rintro ⟨i, hi, r, hr, hmem⟩
    obtain ⟨s, role, rfl, hrole, hsignature⟩ := (invoke_mem_forwardedBlock hr).1 hmem
    exact ⟨s, role, hi, hrole, hsignature⟩
  · rintro ⟨s, role, hi, hrole, hsignature⟩
    obtain ⟨r, -, hr⟩ := exists_of_forall₂_right hcalls.flip hi
    exact ⟨_, hi, r, hr, (invoke_mem_forwardedBlock hr).2 ⟨s, role, rfl, hrole, hsignature⟩⟩

/-! ## Woven methods -/

/-- The role of a woven method, and what weaving keeps of the method. -/
theorem exists_role (hw : weave h (.exact h) c m = .ok w) :
    ∃ role, (Oracle.exact h).role h.config ⟨c.name, m.name, m.signature⟩ = .ok role ∧
      w.method.name = m.name ∧ w.method.signature = role.signature h.config m.signature ∧
      w.method.code.isSome = m.code.isSome := by
  obtain ⟨role, code', hrole, -, hmethod, hcode⟩ := weave_eq_ok hw
  rw [hmethod]
  refine ⟨role, hrole, rfl, rfl, ?_⟩
  change code'.isSome = m.code.isSome
  generalize m.code = code at hcode ⊢
  cases hcode <;> rfl

/-- The body of a woven method that is no entry. -/
theorem exists_plainBody (hw : weave h (.exact h) c m = .ok w) {role : Role}
    (hrole : (Oracle.exact h).role h.config ⟨c.name, m.name, m.signature⟩ = .ok role)
    (hplain : role.isEntry = false) (hcode : m.code = some code) :
    ∃ redirected body, code.mapM (redirect h (.exact h) c) = .ok redirected ∧
      forward h (.exact h) c m redirected = .ok body ∧ w.method.code = some body := by
  obtain ⟨role', code', hrole', -, hmethod, hcode'⟩ := weave_eq_ok hw
  cases hrole.symm.trans hrole'
  rw [hcode] at hcode'
  cases hcode' with
  | some hwoven =>
    obtain ⟨prologue, hpasses, -⟩ := hwoven
    obtain ⟨redirected, body, hredirected, hbody, ⟨-, rfl⟩ | ⟨hentry, -⟩⟩ := passes_eq_ok hpasses
    · exact ⟨redirected, _, hredirected, hbody, by rw [hmethod]⟩
    · cases hplain.symm.trans hentry

/-- The body of a woven method, and the prologue of an entry in it. -/
theorem exists_body (hw : weave h (.exact h) c m = .ok w) (hcode : m.code = some code) :
    ∃ redirected body woven, code.mapM (redirect h (.exact h) c) = .ok redirected ∧
      forward h (.exact h) c m redirected = .ok body ∧ w.method.code = some woven ∧
      (woven = body ∨ ∃ position slot expected amount τ,
        Splices τ body position (prologueCode h slot expected amount) woven) := by
  obtain ⟨role, hrole, -⟩ := exists_role hw
  cases hentry : role.isEntry with
  | true =>
    obtain ⟨body, woven, position, expected, hwoven⟩ := exists_entryWoven hw hrole hentry hcode
    obtain ⟨redirected, hredirected, hbody⟩ := hwoven.passes
    obtain ⟨-, τ, hsplices⟩ := exists_splices hwoven.inserted prologueCode_ne_nil
    exact ⟨redirected, body, woven, hredirected, hbody, hwoven.result,
      .inr ⟨position, _, expected, _, τ, hsplices⟩⟩
  | false =>
    obtain ⟨redirected, body, hredirected, hbody, hwoven⟩ := exists_plainBody hw hrole hentry hcode
    exact ⟨redirected, body, body, hredirected, hbody, hwoven, .inl rfl⟩

variable {kind : InvokeKind} {owner name : String} {signature : Signature}

/-- **A call stays** in the code of a method, with the signature of its role. -/
theorem invoke_mem_woven (hw : weave h (.exact h) c m = .ok w) (hcode : m.code = some code)
    (hi : .invoke kind owner name signature ∈ code) :
    ∃ role woven, (Oracle.exact h).role h.config ⟨owner, name, signature⟩ = .ok role ∧
      w.method.code = some woven ∧
      .invoke kind owner name (role.signature h.config signature) ∈ woven := by
  obtain ⟨redirected, body, woven, hredirected, hbody, hwoven, hsite⟩ := exists_body hw hcode
  have hkept : .invoke kind owner name signature ∈ redirected := by
    obtain ⟨i', hi', hr⟩ := exists_of_forall₂_right (forall₂_of_mapM hredirected).flip hi
    cases hr
    exact hi'
  obtain ⟨calls, τ, hcalls, rfl⟩ := forward_eq_ok hbody
  obtain ⟨r, -, hr⟩ := exists_of_forall₂_right hcalls.flip hkept
  obtain ⟨-, hplain⟩ | ⟨_, _, _, _, role, hinvoke, hrole, -⟩ := forwarded?_eq_ok hr
  · exact absurd rfl (hplain _ _ _ _)
  cases hinvoke
  have hmem := (invoke_mem_forward hbody).2 ⟨signature, role, hkept, hrole, rfl⟩
  refine ⟨role, woven, hrole, hwoven, ?_⟩
  rcases hsite with rfl | ⟨position, slot, expected, amount, τ', hsplices⟩
  · exact hmem
  · obtain ⟨b, hb⟩ := List.mem_iff_getElem?.1 hmem
    have hget := hsplices.getElem? b
    rw [hb, Option.map_some, mapTargets_eq_invoke.2 rfl] at hget
    exact List.mem_of_getElem? hget

/-- **Where a call in woven code comes from**: a call in the code, an access to a field in it, or
the prologue. -/
theorem origin_of_invoke {woven : Code} (hw : weave h (.exact h) c m = .ok w)
    (hcode : m.code = some code) (hwoven : w.method.code = some woven)
    (hi : .invoke kind owner name signature ∈ woven) :
    (∃ slot expected amount, .invoke kind owner name signature ∈
        prologueCode h slot expected amount) ∨
      ∃ s role, (Oracle.exact h).role h.config ⟨owner, name, s⟩ = .ok role ∧
        signature = role.signature h.config s ∧
        (.invoke kind owner name s ∈ code ∨
          ∃ i ∈ code, i ≠ .invoke kind owner name s ∧
            redirect h (.exact h) c i = .ok (.invoke kind owner name s)) := by
  obtain ⟨redirected, body, woven', hredirected, hbody, hwoven', hsite⟩ := exists_body hw hcode
  cases hwoven.symm.trans hwoven'
  have hcases : (∃ slot expected amount, .invoke kind owner name signature ∈
      prologueCode h slot expected amount) ∨ .invoke kind owner name signature ∈ body := by
    rcases hsite with rfl | ⟨position, slot, expected, amount, τ, hsplices⟩
    · exact .inr hi
    · rcases hsplices.origin _ hi with hi | ⟨i, hi, hmoved⟩
      · exact .inl ⟨slot, expected, amount, hi⟩
      · rw [mapTargets_eq_invoke.1 hmoved.symm] at hi
        exact .inr hi
  refine hcases.imp_right fun hi => ?_
  obtain ⟨s, role, hi, hrole, hsignature⟩ := (invoke_mem_forward hbody).1 hi
  refine ⟨s, role, hrole, hsignature, ?_⟩
  obtain ⟨i, hmem, hr⟩ := exists_of_forall₂_right (forall₂_of_mapM hredirected) hi
  by_cases hkept : i = .invoke kind owner name s
  · exact .inl (hkept ▸ hmem)
  · exact .inr ⟨i, hmem, hkept, hr⟩

end MethodWeaver

end Weaving

end StorageWeave
