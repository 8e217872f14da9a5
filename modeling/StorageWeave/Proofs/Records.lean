import StorageWeave.Json.Record
import StorageWeave.Proofs.Numerals

/-!
# Records, written and read

What is needed of the values from which documents are built: texts, integers, arrays and records
of them can be written, are sound and nest only as deep as they are built (`IsPlain`); and the
fields of a record whose keys differ are found again, in the order in which they are asked for
(`fields?_record`).
-/

namespace StorageWeave.Json

/-! ## Records -/

theorem elementsWritable_iff {vs : List Json} : ElementsWritable vs ↔ ∀ v ∈ vs, v.IsWritable := by
  induction vs with
  | nil => simp [ElementsWritable]
  | cons v vs ih => simp [ElementsWritable, ih]

theorem membersWritable_iff {ms : List (Text × Json)} :
    MembersWritable ms ↔ ∀ m ∈ ms, m.1.isSome ∧ m.2.IsWritable := by
  induction ms with
  | nil => simp [MembersWritable]
  | cons m ms ih =>
    obtain ⟨k, v⟩ := m
    simp [MembersWritable, ih, and_assoc]

theorem isWritable_array {vs : List Json} :
    (array vs).IsWritable ↔ ∀ v ∈ vs, v.IsWritable := elementsWritable_iff

theorem isWritable_record {ms : List (String × Json)} :
    (record ms).IsWritable ↔ ∀ m ∈ ms, m.2.IsWritable := by
  refine membersWritable_iff.trans ?_
  rw [List.forall_mem_map]
  simp

theorem isWritable_text (s : String) : (text s).IsWritable := rfl

theorem elementsSound_iff {vs : List Json} :
    elementsSound vs = true ↔ ∀ v ∈ vs, v.isSound = true := by
  induction vs with
  | nil => simp [elementsSound]
  | cons v vs ih => simp [elementsSound, ih]

theorem membersSound_iff {ms : List (Text × Json)} :
    membersSound ms = true ↔ ∀ m ∈ ms, m.1.isSome ∧ m.2.isSound = true := by
  induction ms with
  | nil => simp [membersSound]
  | cons m ms ih =>
    obtain ⟨k, v⟩ := m
    simp [membersSound, ih, and_assoc]

theorem isSound_array {vs : List Json} :
    (array vs).isSound = true ↔ ∀ v ∈ vs, v.isSound = true := elementsSound_iff

theorem isSound_record {ms : List (String × Json)} :
    (record ms).isSound = true ↔ ∀ m ∈ ms, m.2.isSound = true := by
  refine membersSound_iff.trans ?_
  rw [List.forall_mem_map]
  simp

theorem elementsDepth_le {vs : List Json} {d : ℕ} :
    elementsDepth vs ≤ d ↔ ∀ v ∈ vs, v.depth ≤ d := by
  induction vs with
  | nil => simp [elementsDepth]
  | cons v vs ih => simp [elementsDepth, ih]

theorem membersDepth_le {ms : List (Text × Json)} {d : ℕ} :
    membersDepth ms ≤ d ↔ ∀ m ∈ ms, m.2.depth ≤ d := by
  induction ms with
  | nil => simp [membersDepth]
  | cons m ms ih =>
    obtain ⟨k, v⟩ := m
    simp [membersDepth, ih]

theorem depth_array_le {vs : List Json} {d : ℕ} (h : ∀ v ∈ vs, v.depth ≤ d) :
    (array vs).depth ≤ d + 1 := by
  rw [depth]
  exact Nat.add_le_add_right (elementsDepth_le.2 h) 1

theorem depth_record_le {ms : List (String × Json)} {d : ℕ} (h : ∀ m ∈ ms, m.2.depth ≤ d) :
    (record ms).depth ≤ d + 1 := by
  rw [record, depth]
  exact Nat.add_le_add_right (membersDepth_le.2 (List.forall_mem_map.2 h)) 1

/-- Values that are written and read without loss, nested to a depth. -/
structure IsPlain (d : ℕ) (j : Json) : Prop where
  writable : j.IsWritable
  sound : j.isSound = true
  depth_le : j.depth ≤ d

theorem isPlain_text (s : String) : (text s).IsPlain 0 := ⟨rfl, rfl, le_rfl⟩

theorem isPlain_bool (b : Bool) : (bool b).IsPlain 0 := ⟨trivial, rfl, le_rfl⟩

theorem isPlain_null : null.IsPlain 0 := ⟨trivial, rfl, le_rfl⟩

theorem isPlain_ofNat {n : ℕ} (h : n ≤ maxWord) : (ofNat n).IsPlain 0 :=
  ⟨ofNat_isWritable n, by simp [ofNat, isSound, number?_nat h], le_rfl⟩

theorem isPlain_ofInt {z : ℤ} (hmin : -0x8000000000000000 ≤ z) (hmax : z ≤ 0x7fffffffffffffff) :
    (ofInt z).IsPlain 0 := by
  refine ⟨ofInt_isWritable z, ?_, le_rfl⟩
  have hread := intBetween?_ofInt hmin hmax le_rfl le_rfl
  rw [ofInt, isSound]
  cases hnumber : Numeral.number? ⟨z < 0, Numeric.digits z.natAbs, [], none⟩ with
  | none => simp [ofInt, intBetween?, hnumber] at hread
  | some _ => rfl

theorem isPlain_array {d : ℕ} {vs : List Json} (h : ∀ v ∈ vs, v.IsPlain d) :
    (array vs).IsPlain (d + 1) :=
  ⟨isWritable_array.2 fun v hv => (h v hv).writable,
    isSound_array.2 fun v hv => (h v hv).sound, depth_array_le fun v hv => (h v hv).depth_le⟩

theorem isPlain_record {d : ℕ} {ms : List (String × Json)} (h : ∀ m ∈ ms, m.2.IsPlain d) :
    (record ms).IsPlain (d + 1) :=
  ⟨isWritable_record.2 fun m hm => (h m hm).writable,
    isSound_record.2 fun m hm => (h m hm).sound, depth_record_le fun m hm => (h m hm).depth_le⟩

theorem IsPlain.mono {d e : ℕ} {j : Json} (h : j.IsPlain d) (hle : d ≤ e) : j.IsPlain e :=
  ⟨h.writable, h.sound, h.depth_le.trans hle⟩

/-- The member of a record with different keys. -/
theorem member?_record {ms : List (String × Json)} (h : (ms.map Prod.fst).Nodup) (key : String) :
    member? (ms.map fun m => (some m.1, m.2)) key = some (ms.lookup key) := by
  have hnone (ms : List (String × Json)) (h : key ∉ ms.map Prod.fst) :
      (ms.map fun m => ((some m.1 : Text), m.2)).filter (fun m => m.1 = some key) = [] := by
    rw [List.filter_eq_nil_iff]
    refine List.forall_mem_map.2 fun m hm => ?_
    have : m.1 ≠ key := fun heq => h (heq ▸ List.mem_map_of_mem hm)
    simpa using this
  induction ms with
  | nil => rfl
  | cons m ms ih =>
    obtain ⟨k, v⟩ := m
    rw [List.map_cons, List.nodup_cons] at h
    rw [List.lookup_cons]
    by_cases hk : k = key
    · subst hk
      simp [member?, hnone ms h.1]
    · have hk' : (key == k) = false := by simpa using Ne.symm hk
      have := ih h.2
      simp only [member?] at this ⊢
      simp [hk, hk', this]

theorem fields?_record {ms : List (String × Json)} (h : (ms.map Prod.fst).Nodup)
    (keys : List String) : (record ms).fields? keys = some (keys.map fun k => ms.lookup k) := by
  have hkeys : (ms.map fun m => ((some m.1 : Text), m.2)).any (fun m => m.1.isNone) = false := by
    simp
  rw [record, fields?, hkeys, if_neg Bool.false_ne_true]
  induction keys with
  | nil => rfl
  | cons k keys ih => simp [member?_record h, ih]

theorem lookup_of_mem {ms : List (String × Json)} (h : (ms.map Prod.fst).Nodup)
    {m : String × Json} (hm : m ∈ ms) : ms.lookup m.1 = some m.2 := by
  induction ms with
  | nil => cases hm
  | cons l ms ih =>
    rw [List.map_cons, List.nodup_cons] at h
    rw [List.lookup_cons]
    rcases List.mem_cons.1 hm with rfl | hm
    · simp
    · have hne : m.1 ≠ l.1 := fun heq => h.1 (heq ▸ List.mem_map_of_mem hm)
      rw [beq_eq_false_iff_ne.2 hne]
      exact ih h.2 hm

/-- All fields of a record in their order. -/
theorem fields?_keys {ms : List (String × Json)} (h : (ms.map Prod.fst).Nodup) :
    (record ms).fields? (ms.map Prod.fst) = some (ms.map fun m => some m.2) := by
  rw [fields?_record h, List.map_map]
  congr 1
  exact List.map_congr_left fun m hm => lookup_of_mem h hm

/-- A list is read back if its elements are. -/
theorem list?_map {α β : Type} {read : Json → Option β} {write : α → Json} {f : α → Option β}
    (h : ∀ a, read (write a) = f a) (as : List α) :
    list? read (.array (as.map write)) = as.mapM f := by
  rw [list?]
  induction as with
  | nil => rfl
  | cons a as ih => simp [h, ih]

theorem list?_map_some {α : Type} {read : Json → Option α} {write : α → Json}
    (h : ∀ a, read (write a) = some a) (as : List α) :
    list? read (.array (as.map write)) = some as := by
  rw [list?_map h]
  induction as with
  | nil => rfl
  | cons a as ih => simp [ih]

/-- The field of a list that is left out when it is empty. -/
def listField {α : Type} (write : α → Json) : List α → Option Json
  | [] => none
  | as => some (.array (as.map write))

theorem defaulted_listField {α : Type} {read : Json → Option α} {write : α → Json}
    (h : ∀ a, read (write a) = some a) (as : List α) :
    defaulted (list? read) [] (listField write as) = some as := by
  cases as with
  | nil => rfl
  | cons a as => exact list?_map_some h (a :: as)

/-- A value that may be null is read back if it is never written as null. -/
theorem nullable_ofOption {α : Type} {read : Json → Option α} {write : α → Json}
    (hread : ∀ a, read (write a) = some a) (hnull : ∀ a, write a ≠ .null) (o : Option α) :
    nullable read (ofOption write o) = some o := by
  cases o with
  | none => rfl
  | some a =>
    rw [ofOption, nullable]
    · simp [hread]
    · exact hnull a

@[simp] theorem text?_text (s : String) : text? (.text s) = some s := rfl

theorem nullable_text (s : Option String) : nullable text? (.ofOption .text s) = some s :=
  nullable_ofOption text?_text (fun _ => nofun) s

/-! ## Equal documents -/

theorem text_injective {s t : String} (h : Json.text s = Json.text t) : s = t := by
  injection h with h
  exact Option.some.inj h

theorem map_injOn {α β : Type} {f : α → β} {as bs : List α}
    (hf : ∀ a ∈ as, ∀ b ∈ bs, f a = f b → a = b) (h : as.map f = bs.map f) : as = bs := by
  induction as generalizing bs with
  | nil => simpa using h.symm
  | cons a as ih =>
    cases bs with
    | nil => simp at h
    | cons b bs =>
      simp only [List.map_cons, List.cons.injEq] at h
      rw [hf a (by simp) b (by simp) h.1,
        ih (fun x hx y hy => hf x (by simp [hx]) y (by simp [hy])) h.2]

theorem record_injective {ms ns : List (String × Json)} (h : record ms = record ns) : ms = ns := by
  refine map_injOn (fun m _ n _ heq => ?_) (Json.object.inj h)
  simp only [Prod.mk.injEq, Option.some.injEq] at heq
  exact Prod.ext heq.1 heq.2

/-! ## Numbers beyond the range -/

theorem binary32?_eq_none {j : Json} (h : j.isSound ≠ true) : j.binary32? = none := by
  cases j with
  | number n =>
    have : n.number? = none := by simpa [isSound] using h
    simp [binary32?, this]
  | _ => rfl

theorem binary64?_eq_none {j : Json} (h : j.isSound ≠ true) : j.binary64? = none := by
  cases j with
  | number n =>
    have : n.number? = none := by simpa [isSound] using h
    simp [binary64?, this]
  | _ => rfl

end StorageWeave.Json
