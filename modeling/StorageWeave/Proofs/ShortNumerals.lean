import StorageWeave.Proofs.Numerals

/-!
# Short numerals are read as the nearest number

Reading a numeral rounds its digits, a power of ten and their product or quotient. Where the digits
form an integer below `2 ^ 53` and the power of ten is at most `10 ^ 22`, the first two are exact
and one rounding is left, so that the numeral is read as the number whose interval its value lies
in (`Numeral.number?_short`). A number that is written with such a numeral is therefore read back.
-/

namespace StorageWeave.Numeric

/-! ## Exact numbers -/

/-- A number lies in its own interval. -/
theorem RoundingInterval.covers_self (f : Format) (m : ℕ) (q : ℤ) :
    (RoundingInterval.of f m q).Covers (4 * m) := by
  have hlower : (RoundingInterval.of f m q).lower ≤ 4 * m := by
    simp only [RoundingInterval.of]
    split <;> omega
  refine ⟨by exact_mod_cast hlower, by simp [RoundingInterval.of], ?_⟩
  rcases Nat.eq_zero_or_pos m with rfl | hm
  · exact .inl rfl
  · have hstrict : (RoundingInterval.of f m q).lower < 4 * m := by
      simp only [RoundingInterval.of]
      split <;> omega
    exact .inr ⟨by exact_mod_cast hstrict, by simp [RoundingInterval.of]⟩

theorem covers_exact {f : Format} {m : ℕ} {q : ℤ} {v : ℚ} (hv : v = m * 2 ^ q) :
    (RoundingInterval.of f m q).Covers (v * 2 ^ (2 - q)) := by
  have : v * 2 ^ (2 - q) = 4 * m := by
    rw [hv, mul_assoc, ← zpow_add₀ two_ne_zero, show q + (2 - q) = 2 by ring]
    norm_num
    ring
  rw [this]
  exact RoundingInterval.covers_self f m q

/-- A significand with all its bits and an exponent well inside the range. -/
theorem binary64_holds {a : ℕ} (hlow : 2 ^ 52 ≤ a) (hhigh : a < 2 ^ 53) {j : ℤ} (hj : -1074 ≤ j)
    (hj' : j ≤ 900) : Format.binary64.Holds a j := by
  have hleast : Format.binary64.leastExponent = -1074 := by decide
  have hinfinity : Format.binary64.infinity = 2047 * 2 ^ 52 := by decide
  refine ⟨by omega, hhigh, fun _ => hlow, ?_⟩
  have : (j - -1074).toNat ≤ 1974 := by omega
  have : (j - -1074).toNat * 2 ^ 52 ≤ 1974 * 2 ^ 52 := Nat.mul_le_mul_right _ this
  rw [hinfinity, Format.magnitude, hleast]
  simp only [Format.binary64]
  omega

/-- An integer of fifty-three bits times a power of two has a significand and an exponent. -/
theorem binary64_exists_holds {a : ℕ} (ha : a < 2 ^ 53) {j : ℤ} (hj : -1000 ≤ j) (hj' : j ≤ 900) :
    ∃ m q, Format.binary64.Holds m q ∧ (m * 2 ^ q : ℚ) = a * 2 ^ j := by
  rcases Nat.eq_zero_or_pos a with rfl | hpos
  · have hleast : Format.binary64.leastExponent = -1074 := by decide
    refine ⟨0, -1074, ⟨hleast.le, by decide, fun h => ?_, by decide⟩, by simp⟩
    rw [hleast] at h
    omega
  · -- The significand is moved up until it has all its bits.
    have hlog := Nat.log2_self_le hpos.ne'
    have hlog' : a < 2 ^ (a.log2 + 1) := Nat.lt_log2_self
    have hbits : a.log2 ≤ 52 := by
      by_contra h
      have : 2 ^ 53 ≤ 2 ^ a.log2 := Nat.pow_le_pow_right (by decide) (by omega)
      omega
    obtain ⟨k, hk⟩ : ∃ k, 52 = a.log2 + k := ⟨52 - a.log2, by omega⟩
    have hlow : 2 ^ 52 ≤ a * 2 ^ k := by
      rw [hk, Nat.pow_add]
      exact Nat.mul_le_mul_right _ hlog
    have hhigh : a * 2 ^ k < 2 ^ 53 := by
      rw [show 53 = a.log2 + 1 + k by omega, Nat.pow_add _ (a.log2 + 1)]
      exact Nat.mul_lt_mul_of_pos_right hlog' (Nat.two_pow_pos k)
    refine ⟨a * 2 ^ k, j - k, binary64_holds hlow hhigh (by omega) (by omega), ?_⟩
    push_cast
    rw [mul_assoc, ← zpow_natCast, ← zpow_add₀ two_ne_zero]
    simp

theorem binary64_pack_lt {m : ℕ} {q : ℤ} (h : Format.binary64.Holds m q) (s : Bool) :
    Format.binary64.pack s (Format.binary64.magnitude m q) < 2 ^ 64 := by
  have hfinite := h.finite
  have hinfinity : Format.binary64.infinity = 2047 * 2 ^ 52 := by decide
  have hbits : Format.binary64.magnitudeBits = 63 := rfl
  rw [hinfinity] at hfinite
  cases s <;> simp only [Format.pack, hbits, Nat.shiftLeft_eq] <;> simp <;> omega

/-- What lies in the interval of a number rounds to it. -/
theorem Binary64.ofRatio_eq {m : ℕ} {q : ℤ} (h : Format.binary64.Holds m q) (s : Bool)
    {num den : ℕ} (hden : 0 < den)
    (hcovers : (RoundingInterval.of .binary64 m q).Covers (num / den * 2 ^ (2 - q))) :
    Binary64.ofRatio s num den
      = ⟨(Format.binary64.pack s (Format.binary64.magnitude m q)).toUInt64⟩ := by
  rw [Binary64.ofRatio, Format.round_eq h s hden hcovers]

theorem Binary64.datum_pack {m : ℕ} {q : ℤ} (h : Format.binary64.Holds m q) (s : Bool) :
    Binary64.datum ⟨(Format.binary64.pack s (Format.binary64.magnitude m q)).toUInt64⟩
      = .finite s m q := by
  have hbits : (Format.binary64.pack s (Format.binary64.magnitude m q)).toUInt64.toNat
      = Format.binary64.pack s (Format.binary64.magnitude m q) := by
    rw [Nat.toUInt64_eq]
    exact UInt64.toNat_ofNat_of_lt' (binary64_pack_lt h s)
  rw [Binary64.datum, hbits, Format.decode_pack h s]

/-- An integer with fifty-three bits before its zeros is kept exactly. -/
theorem Binary64.ofNat_exact {a j : ℕ} (ha : a < 2 ^ 53) (hj : j ≤ 900) :
    ∃ m q, (Binary64.ofNat (a * 2 ^ j)).datum = .finite false m q ∧
      (m * 2 ^ q : ℚ) = a * 2 ^ j := by
  obtain ⟨m, q, h, hvalue⟩ := binary64_exists_holds ha (j := j) (by omega) (by omega)
  rw [zpow_natCast] at hvalue
  refine ⟨m, q, ?_, hvalue⟩
  rw [Binary64.ofNat, Binary64.ofRatio_eq h false Nat.one_pos, Binary64.datum_pack h]
  exact covers_exact (by push_cast; rw [div_one, hvalue])

/-- The powers of ten up to the twenty-second are kept exactly. -/
theorem Binary64.ofNat_pow_ten {k : ℕ} (hk : k ≤ 22) :
    ∃ m q, (Binary64.ofNat (Nat.pow 10 k)).datum = .finite false m q ∧
      (m * 2 ^ q : ℚ) = 10 ^ k := by
  have hfive : 5 ^ k < 2 ^ 53 :=
    (Nat.pow_le_pow_right (by decide) hk).trans_lt (by decide)
  obtain ⟨m, q, hdatum, hvalue⟩ := Binary64.ofNat_exact hfive (show k ≤ 900 by omega)
  refine ⟨m, q, ?_, ?_⟩
  · rwa [← Nat.mul_pow] at hdatum
  · rw [hvalue]
    push_cast
    rw [← mul_pow]
    norm_num

theorem xor_two_pow {n i : ℕ} (h : n < 2 ^ i) : n ^^^ 2 ^ i = 2 ^ i + n := by
  apply Nat.eq_of_testBit_eq
  intro j
  rw [Nat.testBit_xor, Nat.testBit_two_pow]
  rcases Nat.lt_trichotomy j i with hj | rfl | hj
  · rw [Nat.testBit_two_pow_add_gt hj, decide_eq_false hj.ne', Bool.xor_false]
  · rw [Nat.testBit_two_pow_add_eq, decide_eq_true rfl, Bool.xor_true]
  · have hsum : 2 ^ i + n < 2 ^ j := by
      have := Nat.pow_le_pow_right (n := 2) (by decide) hj
      rw [Nat.succ_eq_add_one, Nat.pow_succ] at this
      omega
    have hn : n < 2 ^ j := by omega
    rw [Nat.testBit_lt_two_pow hsum, Nat.testBit_lt_two_pow hn, decide_eq_false hj.ne,
      Bool.xor_false]

/-- The opposite number has the same pattern under the other sign. -/
theorem Binary64.neg_pack {m : ℕ} {q : ℤ} (h : Format.binary64.Holds m q) :
    Binary64.neg ⟨(Format.binary64.pack false (Format.binary64.magnitude m q)).toUInt64⟩
      = ⟨(Format.binary64.pack true (Format.binary64.magnitude m q)).toUInt64⟩ := by
  have hlt : Format.binary64.magnitude m q < 2 ^ 63 := h.finite.trans (Format.infinity_lt _)
  have hsign : (0x8000000000000000 : UInt64).toNat = 2 ^ 63 := rfl
  have htrue := binary64_pack_lt h true
  have hfalse := binary64_pack_lt h false
  have hpack : Format.binary64.pack true (Format.binary64.magnitude m q)
      = 2 ^ 63 + Format.binary64.magnitude m q := rfl
  have hpack' : Format.binary64.pack false (Format.binary64.magnitude m q)
      = Format.binary64.magnitude m q := Nat.zero_add _
  rw [hpack] at htrue ⊢
  rw [hpack'] at hfalse ⊢
  rw [Binary64.neg, Binary64.mk.injEq, ← UInt64.toNat_inj, UInt64.toNat_xor, hsign,
    Nat.toUInt64_eq, Nat.toUInt64_eq, UInt64.toNat_ofNat_of_lt' hfalse,
    UInt64.toNat_ofNat_of_lt' htrue, xor_two_pow hlt]

theorem Binary64.mul_finite {x y : Binary64} {s t : Bool} {m n : ℕ} {q r : ℤ}
    (hx : x.datum = .finite s m q) (hy : y.datum = .finite t n r) :
    x.mul y = ofRatio (s ^^ t) (shiftRatio (m * n) 1 (q + r)).1
      (shiftRatio (m * n) 1 (q + r)).2 := by
  simp only [mul, hx, hy]

theorem Binary64.div_finite {x y : Binary64} {s t : Bool} {m n : ℕ} {q r : ℤ}
    (hx : x.datum = .finite s m q) (hy : y.datum = .finite t n r) (hn : n ≠ 0) :
    x.div y = ofRatio (s ^^ t) (shiftRatio m n (q - r)).1 (shiftRatio m n (q - r)).2 := by
  simp only [div, hx, hy, if_neg hn]

end StorageWeave.Numeric

namespace StorageWeave.Json

open Numeric

section Scaling

variable {w k m : ℕ} {q : ℤ} (hw : w < 2 ^ 53) (hk : k ≤ 22) (h : Format.binary64.Holds m q)

include hw hk h

theorem scaleUp?_short
    (hcovers : (RoundingInterval.of .binary64 m q).Covers (w * 10 ^ k * 2 ^ (2 - q))) :
    scaleUp? (Binary64.ofNat w) k
      = some ⟨(Format.binary64.pack false (Format.binary64.magnitude m q)).toUInt64⟩ := by
  obtain ⟨a, i, hdigits, ha⟩ := Binary64.ofNat_exact hw (Nat.zero_le 900)
  obtain ⟨b, j, hpower, hb⟩ := Binary64.ofNat_pow_ten hk
  rw [Nat.pow_zero, Nat.mul_one] at hdigits
  rw [pow_zero, mul_one] at ha
  have hproduct : (Binary64.ofNat w).mul (Binary64.ofNat (Nat.pow 10 k))
      = ⟨(Format.binary64.pack false (Format.binary64.magnitude m q)).toUInt64⟩ := by
    rw [Binary64.mul_finite hdigits hpower]
    refine Binary64.ofRatio_eq h false (shiftRatio_den_pos _ Nat.one_pos _) ?_
    have hvalue : (shiftRatio (a * b) 1 (i + j)).1 / (shiftRatio (a * b) 1 (i + j)).2
        = (w * 10 ^ k : ℚ) := by
      rw [shiftRatio_eq, zpow_add₀ two_ne_zero, ← ha, ← hb]
      push_cast
      ring
    rw [hvalue]
    exact hcovers
  have hfinite : Binary64.isInfinite
      ⟨(Format.binary64.pack false (Format.binary64.magnitude m q)).toUInt64⟩ = false := by
    rw [Binary64.isInfinite, Binary64.datum_pack h]
  simp only [scaleUp?, if_pos (show k ≤ 308 by omega), hproduct, hfinite, Bool.false_eq_true,
    if_false]

theorem scaleDown_short
    (hcovers : (RoundingInterval.of .binary64 m q).Covers (w * 10 ^ (-k : ℤ) * 2 ^ (2 - q))) :
    scaleDown (Binary64.ofNat w) k
      = ⟨(Format.binary64.pack false (Format.binary64.magnitude m q)).toUInt64⟩ := by
  obtain ⟨a, i, hdigits, ha⟩ := Binary64.ofNat_exact hw (Nat.zero_le 900)
  obtain ⟨b, j, hpower, hb⟩ := Binary64.ofNat_pow_ten hk
  rw [Nat.pow_zero, Nat.mul_one] at hdigits
  rw [pow_zero, mul_one] at ha
  have hb0 : b ≠ 0 := by
    rintro rfl
    rw [Nat.cast_zero, zero_mul] at hb
    exact absurd hb.symm (by positivity)
  unfold scaleDown
  rw [if_pos (show k ≤ 308 by omega), Binary64.div_finite hdigits hpower hb0]
  refine Binary64.ofRatio_eq h false (shiftRatio_den_pos _ (Nat.pos_of_ne_zero hb0) _) ?_
  have hvalue : (shiftRatio a b (i - j)).1 / (shiftRatio a b (i - j)).2
      = (w * 10 ^ (-k : ℤ) : ℚ) := by
    rw [shiftRatio_eq, zpow_sub₀ two_ne_zero, zpow_neg, zpow_natCast, ← ha, ← hb,
      ← div_eq_mul_inv, div_mul_div_comm]
  rw [hvalue]
  exact hcovers

end Scaling

/-- A small integer scaled by a small power of ten is rounded once. -/
theorem scale?_short {w : ℕ} {e : ℤ} (hw : w < 2 ^ 53) (he : e.natAbs ≤ 22) {m : ℕ} {q : ℤ}
    (h : Format.binary64.Holds m q)
    (hcovers : (RoundingInterval.of .binary64 m q).Covers (w * 10 ^ e * 2 ^ (2 - q))) :
    scale? w e
      = some ⟨(Format.binary64.pack false (Format.binary64.magnitude m q)).toUInt64⟩ := by
  simp only [scale?]
  split
  · next hnonneg =>
    obtain ⟨k, rfl⟩ := Int.eq_ofNat_of_zero_le hnonneg
    rw [zpow_natCast] at hcovers
    exact scaleUp?_short hw he h hcovers
  · next hneg =>
    obtain ⟨k, hk⟩ := Int.eq_ofNat_of_zero_le (show 0 ≤ -e by omega)
    obtain rfl : e = -k := by omega
    rw [neg_neg, Int.toNat_natCast, scaleDown_short hw (by omega) h hcovers]

/-- The digits fit the significand of a binary number and the scale is a power of ten that is. -/
structure Numeral.IsShort (n : Numeral) : Prop where
  significand : n.significand < 2 ^ 53
  scale : n.scale.natAbs ≤ 22
  exponent : ∀ e ∈ n.exponent, ofDigits e.digits ≤ maxExponent

instance : DecidablePred Numeral.IsShort := fun n =>
  decidable_of_iff (n.significand < 2 ^ 53 ∧ n.scale.natAbs ≤ 22 ∧
      ∀ e ∈ n.exponent, ofDigits e.digits ≤ maxExponent)
    ⟨fun ⟨hsignificand, hscale, hexponent⟩ => ⟨hsignificand, hscale, hexponent⟩,
      fun h => ⟨h.significand, h.scale, h.exponent⟩⟩

theorem scaleBy?_eq_scale? {n : Numeral} (h : n.IsShort) :
    scaleBy? n.significand (-n.fraction.length) n.exponent = scale? n.significand n.scale := by
  have hscale := h.scale
  cases hexp : n.exponent with
  | none => simp [scaleBy?, Numeral.scale, hexp]
  | some e =>
    have hwritten := h.exponent e hexp
    have hsum : (if e.sign ≠ .minus then -(n.fraction.length : ℤ) + ofDigits e.digits
        else -n.fraction.length - ofDigits e.digits) = n.scale := by
      simp only [Numeral.scale, hexp, Option.map_some, Option.getD_some, Exponent.value]
      split_ifs <;> simp_all <;> ring
    have hclamp : max (-(maxExponent : ℤ) - 1) (min n.scale maxExponent) = n.scale := by
      unfold maxExponent
      omega
    simp only [scaleBy?, if_neg (Nat.not_lt.2 hwritten)]
    simp only [hsum, hclamp]

/-- A short numeral that is no integer is read as the number in whose interval its value lies. -/
theorem Numeral.number?_short {n : Numeral} (hreal : n.fraction = [] → n.exponent ≠ none)
    (h : n.IsShort) {m : ℕ} {q : ℤ} (hholds : Format.binary64.Holds m q)
    (hcovers : (RoundingInterval.of .binary64 m q).Covers (n.value * 2 ^ (2 - q))) :
    n.number? = some (.real
      ⟨(Format.binary64.pack n.negative (Format.binary64.magnitude m q)).toUInt64⟩) := by
  have hword : n.significand ≤ maxWord := h.significand.le.trans (by decide)
  have hall : appendDigits (ofDigits n.whole) n.fraction = n.significand := by
    rw [Numeral.significand, ofDigits_append, appendDigits_eq]
  have hwhole : absorbDigits 0 n.whole = (ofDigits n.whole, []) := by
    have hle : ofDigits n.whole ≤ n.significand := by
      rw [Numeral.significand, ofDigits_append]
      exact (Nat.le_mul_of_pos_right _ (Nat.pow_pos (by decide))).trans (Nat.le_add_right _ _)
    exact absorbDigits_eq (hle.trans hword)
  have hfraction : absorbDigits (ofDigits n.whole) n.fraction = (n.significand, []) := by
    rw [← hall]
    exact absorbDigits_eq (hall ▸ hword)
  have hshape : ¬ (n.fraction.isEmpty = true ∧ n.exponent.isNone = true ∧
      ([] : List Digit).isEmpty = true) := by
    rintro ⟨hempty, hnone, -⟩
    exact hreal (List.isEmpty_iff.1 hempty) (Option.isNone_iff_eq_none.1 hnone)
  have hscale := scale?_short h.significand h.scale hholds hcovers
  rw [← scaleBy?_eq_scale? h] at hscale
  simp only [Numeral.number?, hwhole, if_neg hshape, hfraction, List.length_nil, Nat.sub_zero,
    Nat.cast_zero, zero_sub, hscale, Option.map_some]
  cases n.negative with
  | false => rfl
  | true => rw [withSign, if_pos rfl, Binary64.neg_pack hholds]

theorem binary64?_real {n : Numeral} {y : Binary64} (h : n.number? = some (.real y)) :
    binary64? (.number n) = some y := by
  simp only [binary64?, h, Option.map_some]

theorem binary32?_real {n : Numeral} {y : Binary64} (h : n.number? = some (.real y)) :
    binary32? (.number n) = some y.narrow := by
  simp only [binary32?, h, Option.map_some]

/-- A numeral with a property. -/
def IsNumeral (P : Numeral → Prop) : Json → Prop
  | .number n => P n
  | _ => False

instance (P : Numeral → Prop) [DecidablePred P] : DecidablePred (IsNumeral P)
  | .number n => inferInstanceAs (Decidable (P n))
  | .null | .bool _ | .string _ | .array _ | .object _ => inferInstanceAs (Decidable False)

/-- A number of sixty-four bits that is written with a short numeral is read back. -/
theorem binary64?_short {x : Binary64} (hnumeral : (ofBinary64 x).IsNumeral Numeral.IsShort) :
    binary64? (ofBinary64 x) = some x := by
  cases hx : x.datum with
  | nan => simp [ofBinary64, ofDatum, hx, IsNumeral] at hnumeral
  | infinite s => simp [ofBinary64, ofDatum, hx, IsNumeral] at hnumeral
  | finite s m q =>
    obtain ⟨hholds, hbits⟩ := binary64_finite hx
    obtain ⟨n, v, hn, hwrites, hcovers⟩ := ofDatum_finite (by decide) ⟨-5, 15⟩ s hholds
    rw [ofBinary64, hx, hn] at hnumeral ⊢
    rw [← hwrites.value] at hcovers
    have hread := Numeral.number?_short hwrites.real hnumeral hholds hcovers
    rw [binary64?_real hread, hwrites.negative, ← hbits]

end StorageWeave.Json
