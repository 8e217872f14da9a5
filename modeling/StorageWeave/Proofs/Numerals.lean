import StorageWeave.Json.Number
import StorageWeave.Proofs.Decimals
import StorageWeave.Proofs.Printing

/-!
# Numbers as written

The numerals that are written for integers and for finite binary numbers. All of them have the
shape of the grammar. Integers are read back exactly (`uint64?_ofNat`, `int64?_ofInt` and their
narrower companions). The numeral of a finite binary number has a value in the interval of that
number (`ofDatum_finite`), so that different numbers are never written alike
(`ofDatum_injective`); whether it is read back is another question, since reading rounds more than
once.
-/

namespace StorageWeave.Json

open Numeric

/-! ## Values -/

/-- The exponent that is written. -/
def Exponent.value (e : Exponent) : ℤ :=
  if e.sign = .minus then -(ofDigits e.digits : ℤ) else ofDigits e.digits

/-- All digits of a number as one integer. -/
def Numeral.significand (n : Numeral) : ℕ := ofDigits (n.whole ++ n.fraction)

/-- The power of ten by which the integer of all digits is multiplied. -/
def Numeral.scale (n : Numeral) : ℤ := (n.exponent.map Exponent.value).getD 0 - n.fraction.length

/-- The number without its sign. -/
def Numeral.value (n : Numeral) : ℚ := n.significand * 10 ^ n.scale

theorem Numeral.value_eq_ratio (n : Numeral) :
    n.value = (scaleRatio n.significand 1 n.scale).1 / (scaleRatio n.significand 1 n.scale).2 := by
  rw [scaleRatio_eq, Nat.cast_one, div_one, Numeral.value]

/-- What a written decimal has to be: a numeral with its sign and value that is no integer. -/
structure Numeral.Writes (n : Numeral) (negative : Bool) (value : ℚ) : Prop where
  writable : n.IsWritable
  real : n.fraction = [] → n.exponent ≠ none
  negative : n.negative = negative
  value : n.value = value

theorem value_of_scale {n : Numeral} {d : Decimal} {k : ℕ}
    (hdigits : n.significand = ofDigits d.digits * 10 ^ k)
    (hscale : k + n.scale = d.exponent + 1 - d.digits.length) : n.value = d.value := by
  rw [Numeral.value, hdigits, Decimal.value, ← hscale, zpow_add₀ (by norm_num), zpow_natCast]
  push_cast
  ring

/-- A decimal below one is written as a zero and a fraction. -/
theorem positional_fraction (negative : Bool) {d : Decimal} (hd : Leads d.digits)
    (hexp : d.exponent < 0) : (positional negative d).Writes negative d.value := by
  obtain ⟨a, ds, hdigits, -⟩ := hd
  rw [positional, if_pos hexp]
  refine ⟨⟨.inl rfl, nofun⟩, by simp [hdigits], rfl, value_of_scale (k := 0) ?_ ?_⟩
  · rw [Numeral.significand, ← List.append_assoc, ofDigits_append, ← List.replicate_one,
      ← List.replicate_add, ofDigits_replicate_zero, Nat.zero_mul, Nat.zero_add, Nat.pow_zero,
      Nat.mul_one]
  · simp only [Numeral.scale, List.length_append, List.length_replicate, Option.map_none,
      Option.getD_none]
    push_cast
    omega

/-- A decimal of at least one is written with a whole part that starts with its first digit. -/
theorem positional_whole (negative : Bool) {d : Decimal} (hd : Leads d.digits)
    (hexp : ¬ d.exponent < 0) : (positional negative d).Writes negative d.value := by
  obtain ⟨a, ds, hdigits, ha⟩ := hd
  obtain ⟨e, he⟩ := Int.eq_ofNat_of_zero_le (show 0 ≤ d.exponent by omega)
  rw [positional, if_neg hexp, he, Int.toNat_natCast]
  refine ⟨⟨.inr ⟨a, ds.take e ++ List.replicate (e + 1 - d.digits.length) Digit.zero,
    by simp [hdigits], ha⟩, nofun⟩, ?_, rfl, ?_⟩
  · dsimp only
    split <;> simp_all
  by_cases hlen : d.digits.length ≤ e + 1
  · -- All digits stand before the point, with a zero behind it.
    have hdrop : d.digits.drop (e + 1) = [] := List.drop_eq_nil_of_le hlen
    have htake : d.digits.take (e + 1) = d.digits := List.take_of_length_le hlen
    refine value_of_scale (k := e + 1 - d.digits.length + 1) ?_ ?_
    · simp only [Numeral.significand, hdrop, htake, List.isEmpty_nil, if_true, List.append_assoc,
        ← List.replicate_succ', ofDigits_append, ofDigits_replicate_zero, List.length_replicate,
        Nat.add_zero]
    · simp only [Numeral.scale, hdrop, List.isEmpty_nil, if_true, Option.map_none,
        Option.getD_none, List.length_singleton, he]
      omega
  · have hdrop : (d.digits.drop (e + 1)).isEmpty = false := by simpa using hlen
    refine value_of_scale (k := 0) ?_ ?_
    · simp only [Numeral.significand, hdrop, Bool.false_eq_true, if_false,
        show e + 1 - d.digits.length = 0 by omega, List.replicate_zero, List.append_nil,
        List.take_append_drop, Nat.pow_zero, Nat.mul_one]
    · simp only [Numeral.scale, hdrop, Bool.false_eq_true, if_false, Option.map_none,
        Option.getD_none, List.length_drop, he]
      omega

theorem positional_writes (negative : Bool) {d : Decimal} (hd : Leads d.digits) :
    (positional negative d).Writes negative d.value := by
  by_cases hexp : d.exponent < 0
  · exact positional_fraction negative hd hexp
  · exact positional_whole negative hd hexp

theorem scientific_writes (negative : Bool) {d : Decimal} (hd : Leads d.digits) :
    (scientific negative d).Writes negative d.value := by
  obtain ⟨a, ds, hdigits, ha⟩ := hd
  refine ⟨⟨.inr ⟨a, [], by simp [scientific, hdigits], ha⟩, ?_⟩, nofun, rfl,
    value_of_scale (k := 0) ?_ ?_⟩
  · simp only [scientific, Option.mem_some_iff, forall_eq']
    exact digits_ne_nil _
  · simp only [Numeral.significand, scientific, List.take_append_drop, Nat.pow_zero, Nat.mul_one]
  · have hexp : (if d.exponent < 0 then ExponentSign.minus else .plus) = .minus ↔
        d.exponent < 0 := by
      split <;> simp_all
    simp only [Numeral.scale, scientific, Option.map_some, Option.getD_some, Exponent.value, hexp,
      ofDigits_digits, List.length_drop, hdigits, List.length_cons]
    split <;> omega

/-! ## Binary numbers -/

/-- A finite number is written as a numeral with its sign and a value in its interval. -/
theorem ofDatum_finite {f : Format} (hf : 2 ^ (f.fractionBits + 1) < 10 ^ (f.enoughDigits - 1))
    (range : PositionalRange) (negative : Bool) {m : ℕ} {q : ℤ} (h : f.Holds m q) :
    ∃ n v, ofDatum f range (.finite negative m q) = .number n ∧ n.Writes negative v ∧
      (RoundingInterval.of f m q).Covers (v * 2 ^ (2 - q)) := by
  rcases Nat.eq_zero_or_pos m with rfl | hm
  · refine ⟨⟨negative, [Digit.zero], [Digit.zero], none⟩, 0, rfl,
      ⟨⟨.inl rfl, nofun⟩, nofun, rfl, ?_⟩, ?_⟩
    · have : ofDigits [Digit.zero, Digit.zero] = 0 := rfl
      simp [Numeral.value, Numeral.significand, this]
    · have : 0 ≠ 1 <<< f.fractionBits := by
        rw [Nat.shiftLeft_eq, Nat.one_mul]
        exact (Nat.two_pow_pos _).ne
      simp [RoundingInterval.Covers, RoundingInterval.of, this]
  · obtain ⟨hleads, hcovers⟩ := Format.shortest_covers hf .toEven h hm
    simp only [ofDatum, if_neg hm.ne']
    refine ⟨_, _, rfl, ?_, hcovers⟩
    split
    · exact positional_writes negative hleads
    · exact scientific_writes negative hleads

/-- Different finite numbers of a format are written differently. -/
theorem ofDatum_injective {f : Format} (hf : 2 ^ (f.fractionBits + 1) < 10 ^ (f.enoughDigits - 1))
    (range : PositionalRange) {s s' : Bool} {m m' : ℕ} {q q' : ℤ} (h : f.Holds m q)
    (h' : f.Holds m' q')
    (heq : ofDatum f range (.finite s m q) = ofDatum f range (.finite s' m' q')) :
    Datum.finite s m q = .finite s' m' q' := by
  obtain ⟨n, v, hn, hw, hcovers⟩ := ofDatum_finite hf range s h
  obtain ⟨n', v', hn', hw', hcovers'⟩ := ofDatum_finite hf range s' h'
  obtain rfl : n = n' := by
    rw [hn, hn'] at heq
    exact Json.number.inj heq
  obtain rfl : s = s' := hw.negative.symm.trans hw'.negative
  obtain rfl : v = v' := hw.value.symm.trans hw'.value
  -- Both patterns are what the one value rounds to.
  rw [← hw.value, n.value_eq_ratio] at hcovers hcovers'
  have hden := scaleRatio_den_pos n.significand Nat.one_pos n.scale
  have hround := Format.round_eq h s hden hcovers
  rw [Format.round_eq h' s hden hcovers'] at hround
  rw [← Format.decode_pack h, ← hround, Format.decode_pack h']

/-- The pattern of a finite number of sixty-four bits is given by its significand and exponent. -/
theorem binary64_finite {x : Binary64} {s : Bool} {m : ℕ} {q : ℤ} (h : x.datum = .finite s m q) :
    Format.binary64.Holds m q ∧
      x = ⟨(Format.binary64.pack s (Format.binary64.magnitude m q)).toUInt64⟩ := by
  obtain ⟨hholds, hbits⟩ := Format.decode_finite Format.binary64 x.bits.toNat_lt h
  refine ⟨hholds, ?_⟩
  rw [← hbits, Nat.toUInt64_eq, UInt64.ofNat_toNat]

/-- The pattern of a finite number of thirty-two bits is given by its significand and exponent. -/
theorem binary32_finite {x : Binary32} {s : Bool} {m : ℕ} {q : ℤ} (h : x.datum = .finite s m q) :
    Format.binary32.Holds m q ∧
      x = ⟨(Format.binary32.pack s (Format.binary32.magnitude m q)).toUInt32⟩ := by
  obtain ⟨hholds, hbits⟩ := Format.decode_finite Format.binary32 x.bits.toNat_lt h
  refine ⟨hholds, ?_⟩
  rw [← hbits, Nat.toUInt32_eq, UInt32.ofNat_toNat]

theorem ofBinary64_injective {x y : Binary64} (hx : x.datum.IsFinite) (hy : y.datum.IsFinite)
    (h : ofBinary64 x = ofBinary64 y) : x = y := by
  obtain ⟨s, m, q, hx⟩ := hx
  obtain ⟨s', m', q', hy⟩ := hy
  obtain ⟨hholds, hbits⟩ := binary64_finite hx
  obtain ⟨hholds', hbits'⟩ := binary64_finite hy
  rw [ofBinary64, ofBinary64, hx, hy] at h
  obtain ⟨rfl, rfl, rfl⟩ :=
    Datum.finite.inj (ofDatum_injective (by decide) _ hholds hholds' h)
  rw [hbits, hbits']

theorem ofBinary32_injective {x y : Binary32} (hx : x.datum.IsFinite) (hy : y.datum.IsFinite)
    (h : ofBinary32 x = ofBinary32 y) : x = y := by
  obtain ⟨s, m, q, hx⟩ := hx
  obtain ⟨s', m', q', hy⟩ := hy
  obtain ⟨hholds, hbits⟩ := binary32_finite hx
  obtain ⟨hholds', hbits'⟩ := binary32_finite hy
  rw [ofBinary32, ofBinary32, hx, hy] at h
  obtain ⟨rfl, rfl, rfl⟩ :=
    Datum.finite.inj (ofDatum_injective (by decide) _ hholds hholds' h)
  rw [hbits, hbits']

/-! ## Integers -/

/-- Digits are taken into the word as long as the number fits. -/
theorem absorbDigits_eq {n : ℕ} {ds : List Digit} (h : appendDigits n ds ≤ maxWord) :
    absorbDigits n ds = (appendDigits n ds, []) := by
  induction ds generalizing n with
  | nil => rfl
  | cons d ds ih =>
    have hcons : appendDigits n (d :: ds) = appendDigits (10 * n + d.val) ds := rfl
    rw [hcons] at h ⊢
    have hle : 10 * n + d.val ≤ appendDigits (10 * n + d.val) ds := by
      rw [appendDigits_eq]
      exact (Nat.le_mul_of_pos_right _ (Nat.pow_pos (by decide))).trans (Nat.le_add_right _ _)
    rw [absorbDigits, if_pos (hle.trans h), ih h]

theorem absorbDigits_digits {n : ℕ} (h : n ≤ maxWord) : absorbDigits 0 (digits n) = (n, []) := by
  have hdigits : appendDigits 0 (digits n) = n := ofDigits_digits n
  rw [absorbDigits_eq (hdigits.le.trans h), hdigits]

theorem ofNat_isWritable (n : ℕ) : (ofNat n).IsWritable := by
  refine ⟨?_, nofun⟩
  rcases Nat.eq_zero_or_pos n with rfl | hn
  · exact .inl rfl
  · exact .inr (digits_leads hn)

theorem ofInt_isWritable (z : ℤ) : (ofInt z).IsWritable :=
  ⟨(ofNat_isWritable z.natAbs).whole, nofun⟩

theorem number?_nat {n : ℕ} (h : n ≤ maxWord) :
    Numeral.number? ⟨false, digits n, [], none⟩ = some (.natural n.toUInt64) := by
  simp [Numeral.number?, absorbDigits_digits h]

theorem number?_neg {n : ℕ} (hpos : 0 < n) (h : n ≤ 0x8000000000000000) :
    Numeral.number? ⟨true, digits n, [], none⟩ = some (.negative (Int64.ofInt (-n))) := by
  have hword : n ≤ maxWord := h.trans (by decide)
  simp [Numeral.number?, absorbDigits_digits hword, hpos.ne', h]

theorem natBelow?_ofNat {n bound : ℕ} (h : n < bound) (hbound : bound ≤ 0x10000000000000000) :
    natBelow? bound (ofNat n) = some n := by
  have hword : n ≤ maxWord := by
    unfold maxWord
    omega
  have hn : n.toUInt64.toNat = n := by
    rw [Nat.toUInt64_eq]
    exact UInt64.toNat_ofNat_of_lt' (by simp [UInt64.size]; omega)
  simp [natBelow?, ofNat, number?_nat hword, hn, h]

theorem intBetween?_ofInt {z least greatest : ℤ} (hleast : least ≤ z) (hgreatest : z ≤ greatest)
    (hmin : -0x8000000000000000 ≤ least) (hmax : greatest ≤ 0x7fffffffffffffff) :
    intBetween? least greatest (ofInt z) = some z := by
  rcases lt_or_ge z 0 with hneg | hnonneg
  · have hz : -(z.natAbs : ℤ) = z := by omega
    have htoInt : (Int64.ofInt z).toInt = z :=
      Int64.toInt_ofInt_of_le (by omega) (by omega)
    have hread := number?_neg (show 0 < z.natAbs by omega) (by omega)
    rw [hz] at hread
    simp [intBetween?, ofInt, hneg, hread, htoInt, hleast, hgreatest]
  · have hword : z.natAbs ≤ maxWord := by
      unfold maxWord
      omega
    have htoNat : z.natAbs.toUInt64.toNat = z.natAbs := by
      rw [Nat.toUInt64_eq]
      exact UInt64.toNat_ofNat_of_lt' (by simp [UInt64.size]; omega)
    simp [intBetween?, ofInt, Int.not_lt.2 hnonneg, number?_nat hword, htoNat,
      Int.natAbs_of_nonneg hnonneg, hleast, hgreatest]

@[simp] theorem uint16?_ofNat (w : UInt16) : uint16? (ofNat w.toNat) = some w := by
  rw [uint16?, natBelow?_ofNat w.toNat_lt (by decide)]
  simp

@[simp] theorem uint64?_ofNat (w : UInt64) : uint64? (ofNat w.toNat) = some w := by
  rw [uint64?, natBelow?_ofNat w.toNat_lt le_rfl]
  simp

@[simp] theorem int32?_ofInt (w : Int32) : int32? (ofInt w.toInt) = some w := by
  have := w.le_toInt
  have := w.toInt_lt
  rw [int32?, intBetween?_ofInt (by omega) (by omega) (by decide) (by decide)]
  simp

@[simp] theorem int64?_ofInt (w : Int64) : int64? (ofInt w.toInt) = some w := by
  have := w.le_toInt
  have := w.toInt_lt
  rw [int64?, intBetween?_ofInt (by omega) (by omega) (by decide) (by decide)]
  simp

end StorageWeave.Json
