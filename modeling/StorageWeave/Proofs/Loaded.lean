import StorageWeave.Proofs.Execution
import StorageWeave.Proofs.Woven

/-!
# Loaded classes

A program is loaded from a list of classes. Its look-ups follow the list, so a program of woven
classes has a woven class where the program of the given ones has a class (`rel_ofClasses`). A call
that no loaded class answers comes to the hook of the first class that is not loaded
(`resolve_hook`).
-/

namespace StorageWeave

namespace Table

variable {κ α β : Type} [DecidableEq κ]

theorem keys_bind (key : κ) (value : α) (entries : List (κ × α)) :
    (bind key value entries).map Prod.fst =
      if key ∈ entries.map Prod.fst then entries.map Prod.fst
      else entries.map Prod.fst ++ [key] := by
  induction entries with
  | nil => simp [bind]
  | cons e rest ih => grind [bind]

theorem keys_set (t : Table κ α) (key : κ) (value : α) :
    (t.set key value).keys = if key ∈ t.keys then t.keys else t.keys ++ [key] :=
  keys_bind key value t.entries

theorem mem_keys_of_get? {t : Table κ α} {key : κ} {value : α} (h : t.get? key = some value) :
    key ∈ t.keys := by
  obtain ⟨entries⟩ := t
  induction entries with
  | nil => cases h
  | cons e rest ih =>
    by_cases hk : e.1 = key
    · simp [keys, hk]
    · have hrest : (⟨rest⟩ : Table κ α).get? key = some value := by simpa [get?, find?, hk] using h
      exact List.mem_cons_of_mem _ (ih hrest)

omit [DecidableEq κ] in
theorem length_keys (t : Table κ α) : t.keys.length = t.size := by
  simp [keys, size]

end Table

namespace Machine

open Bytecode Weaving

namespace Program

/-! ## The program of a list of classes -/

section OfClasses

variable {R : ClassDef → ClassDef → Prop} {cs cs' : List ClassDef} {t t' : Table String ClassDef}

/-- Related lists of classes are loaded as related classes. -/
theorem rel_foldl_set (hR : ∀ {c c'}, R c c' → c'.name = c.name) (h : List.Forall₂ R cs cs')
    (ht : ∀ n, Option.Rel R (t.get? n) (t'.get? n)) (n : String) :
    Option.Rel R ((cs.foldl (fun t c => t.set c.name c) t).get? n)
      ((cs'.foldl (fun t c => t.set c.name c) t').get? n) := by
  induction h generalizing t t' with
  | nil => exact ht n
  | cons hc _ ih =>
    refine ih fun n => ?_
    rw [Table.get?_set, Table.get?_set, hR hc]
    split
    · exact .some hc
    · exact ht n

theorem keys_foldl_set (hR : ∀ {c c'}, R c c' → c'.name = c.name) (h : List.Forall₂ R cs cs')
    (ht : t.keys = t'.keys) : (cs.foldl (fun t c => t.set c.name c) t).keys =
      (cs'.foldl (fun t c => t.set c.name c) t').keys := by
  induction h generalizing t t' with
  | nil => exact ht
  | cons hc _ ih =>
    refine ih ?_
    rw [Table.keys_set, Table.keys_set, ht, hR hc]

theorem rel_ofClasses (hR : ∀ {c c'}, R c c' → c'.name = c.name) (h : List.Forall₂ R cs cs')
    (n : String) : Option.Rel R ((ofClasses cs).classes.get? n) ((ofClasses cs').classes.get? n) :=
  rel_foldl_set hR h (fun _ => .none) n

theorem size_ofClasses (hR : ∀ {c c'}, R c c' → c'.name = c.name) (h : List.Forall₂ R cs cs') :
    (ofClasses cs).classes.size = (ofClasses cs').classes.size := by
  rw [← Table.length_keys, ← Table.length_keys]
  exact congrArg List.length (keys_foldl_set hR h rfl)

/-- A loaded class is one of the list. -/
theorem mem_of_get?_ofClasses {n : String} {c : ClassDef}
    (h : (ofClasses cs).classes.get? n = some c) : c ∈ cs ∧ c.name = n := by
  have hloaded : ∀ (cs : List ClassDef) (t : Table String ClassDef),
      (cs.foldl (fun t c => t.set c.name c) t).get? n = some c →
        (c ∈ cs ∧ c.name = n) ∨ t.get? n = some c := by
    intro cs
    induction cs with
    | nil => exact fun t h => .inr h
    | cons d cs ih =>
      intro t h
      rcases ih (t.set d.name d) h with ⟨hmem, hname⟩ | hset
      · exact .inl ⟨List.mem_cons_of_mem d hmem, hname⟩
      · rw [Table.get?_set] at hset
        split at hset
        · next hd =>
          cases hset
          exact .inl ⟨List.mem_cons_self, hd⟩
        · exact .inr hset
  rcases hloaded cs {} h with h | h
  · exact h
  · cases h

/-- Every class of the list is loaded, or another one of its name. -/
theorem exists_get?_ofClasses {c : ClassDef} (hc : c ∈ cs) :
    ∃ d, (ofClasses cs).classes.get? c.name = some d := by
  have hloaded : ∀ (cs : List ClassDef) (t : Table String ClassDef),
      (c ∈ cs ∨ ∃ d, t.get? c.name = some d) →
        ∃ d, (cs.foldl (fun t c => t.set c.name c) t).get? c.name = some d := by
    intro cs
    induction cs with
    | nil => exact fun t h => h.elim (fun h => absurd h (by simp)) id
    | cons d cs ih =>
      intro t h
      refine ih _ ?_
      by_cases hd : d.name = c.name
      · exact .inr ⟨d, by rw [Table.get?_set, if_pos hd]⟩
      · rcases h with h | ⟨d', hd'⟩
        · rcases List.mem_cons.1 h with rfl | h
          · exact absurd rfl hd
          · exact .inl h
        · exact .inr ⟨d', by rw [Table.get?_set, if_neg hd, hd']⟩
  exact hloaded cs {} (.inl hc)

end OfClasses

/-! ## Finding methods -/

variable {p : Program} {first name : String} {signature : Signature}

/-- The superclass of a loaded class. -/
def superclassOf (p : Program) (n : String) : Option String :=
  (p.classes.get? n).bind (·.superclass)

theorem mem_keys_of_superclassOf (n : String) (h : (p.superclassOf n).isSome) :
    n ∈ p.classes.keys := by
  rcases hc : p.classes.get? n with _ | c
  · rw [superclassOf, hc] at h
    cases h
  · exact Table.mem_keys_of_get? hc

theorem resolve_code {c : ClassDef} {code : Code} (hc : p.classes.get? first = some c)
    (hm : codeOf? c name signature = some code) :
    p.resolve first name signature = .ok (.code code) := by
  simp only [resolve, resolveFrom, hc, hm]

/-- The search goes past classes without the method. -/
theorem resolveFrom_climb {current z : String} {n fuel : Nat}
    (hclimb : climb p.superclassOf n current = some z)
    (hbelow : ∀ k < n, ∀ y c, climb p.superclassOf k current = some y →
      p.classes.get? y = some c → codeOf? c name signature = none) :
    p.resolveFrom first name signature (n + fuel) current =
      p.resolveFrom first name signature fuel z := by
  induction n generalizing current with
  | zero =>
    cases hclimb
    rw [Nat.zero_add]
  | succ n ih =>
    rw [climb] at hclimb
    rcases hs : p.superclassOf current with _ | s
    · rw [hs] at hclimb
      cases hclimb
    have hbelow' : ∀ k < n, ∀ y c, climb p.superclassOf k s = some y →
        p.classes.get? y = some c → codeOf? c name signature = none := fun k hk y c hy =>
      hbelow (k + 1) (by omega) y c (by rw [climb_succ_of_next hs, hy])
    rw [hs, Option.bind_some] at hclimb
    rw [superclassOf] at hs
    rcases hc : p.classes.get? current with _ | c
    · rw [hc] at hs
      cases hs
    · rw [hc, Option.bind_some] at hs
      rw [Nat.succ_add]
      simp only [resolveFrom, hc, hbelow 0 (by omega) current c rfl hc, hs]
      exact ih hclimb hbelow'

/-- What a call runs is what it would run from a superclass, past classes without the method. -/
theorem resolve_climb {z : String} {n : Nat} (hclimb : climb p.superclassOf n first = some z)
    (hbelow : ∀ k < n, ∀ y c, climb p.superclassOf k first = some y →
      p.classes.get? y = some c → codeOf? c name signature = none) :
    ∃ fuel, p.resolve first name signature =
      p.resolveFrom first name signature (fuel + 1) z := by
  obtain ⟨m, hm, hmn, hclimb⟩ := exists_climb_le mem_keys_of_superclassOf hclimb
  rw [Table.length_keys] at hm
  refine ⟨p.classes.size - m, ?_⟩
  rw [← resolveFrom_climb hclimb fun k hk => hbelow k (by omega), resolve]
  congr 1
  omega

/-- A call that no loaded class answers comes to the hook of the class where loading ends. -/
theorem resolve_hook {root : String} (hroot : p.classes.get? root = none)
    (hno : ∀ z c, p.classes.get? z = some c → codeOf? c name signature = none) {n : Nat}
    (hclimb : climb p.superclassOf n first = some root) :
    p.resolve first name signature = .ok (.hook root) := by
  obtain ⟨fuel, hresolve⟩ := resolve_climb hclimb fun _ _ y c _ => hno y c
  rw [hresolve, resolveFrom, hroot]

/-- A call runs the code of the first class up that has the method. -/
theorem resolve_inherited {owner : String} {c : ClassDef} {code : Code}
    (hc : p.classes.get? owner = some c) (hm : codeOf? c name signature = some code) {n : Nat}
    (hclimb : climb p.superclassOf n first = some owner)
    (hbelow : ∀ k < n, ∀ y c, climb p.superclassOf k first = some y →
      p.classes.get? y = some c → codeOf? c name signature = none) :
    p.resolve first name signature = .ok (.code code) := by
  obtain ⟨fuel, hresolve⟩ := resolve_climb hclimb hbelow
  simp only [hresolve, resolveFrom, hc, hm]

end Program

end Machine

end StorageWeave
