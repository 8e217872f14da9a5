import Mathlib.Algebra.Order.Field.Power
import Mathlib.Data.Rat.Floor
import Mathlib.Tactic.FieldSimp
import Mathlib.Tactic.Linarith
import Mathlib.Tactic.Positivity
import Mathlib.Tactic.Ring
import StorageWeave.Numeric.Shortest

/-!
# Rounding to the nearest binary number

A finite pattern stands for `m · 2 ^ q` with a significand and an exponent that the format can
hold (`Format.Holds`), and the pattern is determined by them (`decode_finite`). The interval that
the search for short decimals uses is the right one: whatever lies in it rounds to that pattern
(`Format.round_eq`).
-/

namespace StorageWeave.Numeric

/-! ## Ratios -/

theorem shiftRatio_den_pos (num : ℕ) {den : ℕ} (hden : 0 < den) (e : ℤ) :
    0 < (shiftRatio num den e).2 := by
  unfold shiftRatio
  split
  · exact hden
  · simpa [Nat.shiftLeft_eq] using hden

theorem shiftRatio_num_pos {num : ℕ} (hnum : 0 < num) (den : ℕ) (e : ℤ) :
    0 < (shiftRatio num den e).1 := by
  unfold shiftRatio
  split
  · simpa [Nat.shiftLeft_eq] using hnum
  · exact hnum

/-- The ratio is the first one times a power of two. -/
theorem shiftRatio_eq (num den : ℕ) (e : ℤ) :
    ((shiftRatio num den e).1 : ℚ) / (shiftRatio num den e).2 = num / den * 2 ^ e := by
  unfold shiftRatio
  split
  · next he =>
    obtain ⟨k, rfl⟩ := Int.eq_ofNat_of_zero_le he
    simp only [Int.toNat_natCast, Nat.shiftLeft_eq, zpow_natCast]
    push_cast
    ring
  · next he =>
    obtain ⟨k, hk⟩ := Int.eq_ofNat_of_zero_le (show 0 ≤ -e by omega)
    obtain rfl : e = -k := by omega
    simp only [neg_neg, Int.toNat_natCast, Nat.shiftLeft_eq, zpow_neg, zpow_natCast]
    push_cast
    rw [div_mul_eq_div_div, div_eq_mul_inv (_ / _)]

/-- A positive ratio lies between two successive powers of two. -/
theorem floorLog2_spec {num den : ℕ} (hnum : 0 < num) (hden : 0 < den) :
    (2 : ℚ) ^ floorLog2 num den ≤ num / den ∧ (num : ℚ) / den < 2 ^ (floorLog2 num den + 1) := by
  have two : (0 : ℚ) < 2 := by norm_num
  have hden' : (0 : ℚ) < den := by exact_mod_cast hden
  -- The quotient of the leading powers is off by less than a factor of two.
  have hlowNum : (2 : ℚ) ^ (num.log2 : ℤ) ≤ num := by
    rw [zpow_natCast]
    exact_mod_cast Nat.log2_self_le hnum.ne'
  have hhighNum : (num : ℚ) < 2 ^ ((num.log2 : ℤ) + 1) := by
    rw [show ((num.log2 : ℤ) + 1) = ((num.log2 + 1 : ℕ) : ℤ) by push_cast; rfl, zpow_natCast]
    exact_mod_cast Nat.lt_log2_self
  have hlowDen : (2 : ℚ) ^ (den.log2 : ℤ) ≤ den := by
    rw [zpow_natCast]
    exact_mod_cast Nat.log2_self_le hden.ne'
  have hhighDen : (den : ℚ) < 2 ^ ((den.log2 : ℤ) + 1) := by
    rw [show ((den.log2 : ℤ) + 1) = ((den.log2 + 1 : ℕ) : ℤ) by push_cast; rfl, zpow_natCast]
    exact_mod_cast Nat.lt_log2_self
  set t : ℤ := (num.log2 : ℤ) - den.log2 with ht
  have hlow : (2 : ℚ) ^ (t - 1) ≤ num / den := by
    rw [le_div_iff₀ hden']
    calc (2 : ℚ) ^ (t - 1) * den ≤ 2 ^ (t - 1) * 2 ^ ((den.log2 : ℤ) + 1) := by gcongr
      _ = 2 ^ (num.log2 : ℤ) := by rw [← zpow_add₀ two.ne']; congr 1; omega
      _ ≤ num := hlowNum
  have hhigh : (num : ℚ) / den < 2 ^ (t + 1) := by
    rw [div_lt_iff₀ hden']
    calc (num : ℚ) < 2 ^ ((num.log2 : ℤ) + 1) := hhighNum
      _ = 2 ^ (t + 1) * 2 ^ (den.log2 : ℤ) := by rw [← zpow_add₀ two.ne']; congr 1; omega
      _ ≤ 2 ^ (t + 1) * den := by gcongr
  -- The comparison of the shifted ratio with one decides between the two exponents.
  have hratio := shiftRatio_eq num den (-t)
  have hpos : (0 : ℚ) < (shiftRatio num den (-t)).2 := by
    exact_mod_cast shiftRatio_den_pos num hden (-t)
  have hiff : (shiftRatio num den (-t)).2 ≤ (shiftRatio num den (-t)).1 ↔
      (2 : ℚ) ^ t ≤ num / den := by
    rw [← Nat.cast_le (α := ℚ), ← one_le_div hpos, hratio, zpow_neg, ← div_eq_mul_inv,
      one_le_div (by positivity)]
  unfold floorLog2
  simp only [← ht, hiff]
  split
  · next h => exact ⟨h, hhigh⟩
  · next h => exact ⟨hlow, by simpa using h⟩

/-- A number within half a unit of an integer rounds to it, at the ends only if it is even. -/
theorem divNearest_eq {n d k : ℕ} (hd : 0 < d) (hlow : (k : ℚ) - 1 / 2 ≤ n / d)
    (hhigh : (n : ℚ) / d ≤ k + 1 / 2)
    (htie : k % 2 = 0 ∨ (k : ℚ) - 1 / 2 < n / d ∧ (n : ℚ) / d < k + 1 / 2) :
    divNearest n d = k := by
  have hd' : (0 : ℚ) < d := by exact_mod_cast hd
  have hlow' : 2 * (k * d) ≤ 2 * n + d := by
    rw [le_div_iff₀ hd'] at hlow
    have : (2 * (k * d) : ℚ) ≤ 2 * n + d := by linarith
    exact_mod_cast this
  have hhigh' : 2 * n ≤ 2 * (k * d) + d := by
    rw [div_le_iff₀ hd'] at hhigh
    have : (2 * n : ℚ) ≤ 2 * (k * d) + d := by linarith
    exact_mod_cast this
  have htie' : k % 2 = 0 ∨ 2 * (k * d) < 2 * n + d ∧ 2 * n < 2 * (k * d) + d := by
    refine htie.imp_right fun h => ⟨?_, ?_⟩
    · have := (lt_div_iff₀ hd').1 h.1
      have : (2 * (k * d) : ℚ) < 2 * n + d := by linarith
      exact_mod_cast this
    · have := (div_lt_iff₀ hd').1 h.2
      have : (2 * n : ℚ) < 2 * (k * d) + d := by linarith
      exact_mod_cast this
  have hdiv : n = n / d * d + n % d := (Nat.div_add_mod' n d).symm
  have hmod : n % d < d := Nat.mod_lt n hd
  set a := n / d with ha
  set r := n % d with hr
  -- The quotient is the integer or the one before it.
  have hle : a ≤ k := by
    by_contra hlt
    have : (k + 1) * d ≤ a * d := Nat.mul_le_mul_right d (by omega)
    have : (k + 1) * d = k * d + d := by ring
    omega
  have hge : k ≤ a + 1 := by
    by_contra hlt
    have : (a + 2) * d ≤ k * d := Nat.mul_le_mul_right d (by omega)
    have : (a + 2) * d = a * d + 2 * d := by ring
    omega
  unfold divNearest
  simp only [← ha, ← hr]
  obtain rfl | rfl : a = k ∨ k = a + 1 := by omega
  · split_ifs <;> omega
  · have : (a + 1) * d = a * d + d := by ring
    split_ifs <;> omega

/-! ## Finite patterns -/

/-- Neither an infinity nor a NaN. -/
def Datum.IsFinite (d : Datum) : Prop := ∃ negative m q, d = .finite negative m q

instance : DecidablePred Datum.IsFinite
  | .finite s m q => isTrue ⟨s, m, q, rfl⟩
  | .infinite _ => isFalse nofun
  | .nan => isFalse nofun

namespace Format

/-- The pattern of `m · 2 ^ q` without its sign. -/
def magnitude (f : Format) (m : ℕ) (q : ℤ) : ℕ :=
  (q - f.leastExponent).toNat * 2 ^ f.fractionBits + m

/-- A significand and an exponent of the format: all its bits are used above the least exponent. -/
structure Holds (f : Format) (m : ℕ) (q : ℤ) : Prop where
  least : f.leastExponent ≤ q
  small : m < 2 ^ (f.fractionBits + 1)
  normal : f.leastExponent < q → 2 ^ f.fractionBits ≤ m
  finite : f.magnitude m q < f.infinity

theorem infinity_eq (f : Format) : f.infinity = (2 ^ f.exponentBits - 1) * 2 ^ f.fractionBits := by
  simp [infinity, Nat.shiftLeft_eq]

/-- The exponent field of a finite number is not all ones. -/
theorem Holds.exponent_lt {f : Format} {m : ℕ} {q : ℤ} (h : f.Holds m q) :
    (q - f.leastExponent).toNat < 2 ^ f.exponentBits - 1 := by
  have hfinite := (Nat.le_add_right _ m).trans_lt h.finite
  rw [infinity_eq] at hfinite
  exact Nat.lt_of_mul_lt_mul_right hfinite

theorem infinity_lt (f : Format) : f.infinity < 2 ^ f.magnitudeBits := by
  have hpos : 0 < 2 ^ f.exponentBits := Nat.two_pow_pos _
  rw [infinity_eq, magnitudeBits, Nat.add_comm, Nat.pow_add]
  exact Nat.mul_lt_mul_of_pos_right (by omega) (Nat.two_pow_pos _)

theorem decode_sign (f : Format) {bits : ℕ} (hbits : bits < 2 ^ (f.magnitudeBits + 1)) :
    bits = f.pack (bits.testBit f.magnitudeBits) (bits % 2 ^ f.magnitudeBits) := by
  have hdiv := Nat.div_add_mod bits (2 ^ f.magnitudeBits)
  have hsmall : bits / 2 ^ f.magnitudeBits < 2 := by
    rw [Nat.div_lt_iff_lt_mul (Nat.two_pow_pos _)]
    rwa [Nat.pow_succ, Nat.mul_comm] at hbits
  unfold pack
  rw [Nat.testBit_eq_decide_div_mod_eq, Nat.shiftLeft_eq, Nat.one_mul]
  generalize 2 ^ f.magnitudeBits = p at *
  obtain h | h := Nat.le_one_iff_eq_zero_or_eq_one.1 (Nat.lt_succ_iff.1 hsmall)
  all_goals
    rw [h] at hdiv ⊢
    simp
    omega

/-- A finite pattern is the pattern of its significand and exponent. -/
theorem decode_finite (f : Format) {bits : ℕ} {negative : Bool} {m : ℕ} {q : ℤ}
    (hbits : bits < 2 ^ (f.magnitudeBits + 1)) (h : f.decode bits = .finite negative m q) :
    f.Holds m q ∧ bits = f.pack negative (f.magnitude m q) := by
  have hsign := f.decode_sign hbits
  have hpos : 0 < 2 ^ f.fractionBits := Nat.two_pow_pos _
  simp only [decode, Nat.shiftLeft_eq, Nat.shiftRight_eq_div_pow, Nat.one_mul] at h
  generalize bits % 2 ^ f.magnitudeBits = g at h hsign
  have hdiv := Nat.div_add_mod' g (2 ^ f.fractionBits)
  have hmod := Nat.mod_lt g hpos
  split_ifs at h with hnan hinf hexp
  · obtain ⟨rfl, rfl, rfl⟩ := Datum.finite.inj h
    have hmag : f.magnitude (g % 2 ^ f.fractionBits) f.leastExponent = g := by
      rw [magnitude, Int.sub_self]
      simpa [hexp] using hdiv
    refine ⟨⟨le_refl _, by rw [Nat.pow_succ]; omega, fun h => absurd h (lt_irrefl _), ?_⟩, ?_⟩
    · rw [hmag]
      omega
    · rw [hmag]
      exact hsign
  · obtain ⟨rfl, rfl, rfl⟩ := Datum.finite.inj h
    generalize g / 2 ^ f.fractionBits = e at *
    have hmag : f.magnitude (2 ^ f.fractionBits + g % 2 ^ f.fractionBits)
        (f.leastExponent + e - 1) = g := by
      rw [magnitude, show (f.leastExponent + e - 1 - f.leastExponent).toNat = e - 1 by omega]
      have : (e - 1) * 2 ^ f.fractionBits + 2 ^ f.fractionBits = e * 2 ^ f.fractionBits := by
        rw [← Nat.succ_mul, Nat.succ_eq_add_one, Nat.sub_add_cancel (by omega)]
      omega
    refine ⟨⟨by omega, by rw [Nat.pow_succ]; omega, fun _ => Nat.le_add_right _ _, ?_⟩, ?_⟩
    · rw [hmag]
      omega
    · rw [hmag]
      exact hsign

/-- The pattern of a significand and an exponent of the format stands for them. -/
theorem decode_pack {f : Format} {m : ℕ} {q : ℤ} (h : f.Holds m q) (negative : Bool) :
    f.decode (f.pack negative (f.magnitude m q)) = .finite negative m q := by
  have hpos : 0 < 2 ^ f.fractionBits := Nat.two_pow_pos _
  have hlt : f.magnitude m q < 2 ^ f.magnitudeBits := h.finite.trans f.infinity_lt
  have hmod : f.pack negative (f.magnitude m q) % 2 ^ f.magnitudeBits = f.magnitude m q := by
    cases negative <;> simp [pack, Nat.shiftLeft_eq, Nat.mod_eq_of_lt hlt]
  have htest : (f.pack negative (f.magnitude m q)).testBit f.magnitudeBits = negative := by
    cases negative
    · simpa [pack] using Nat.testBit_lt_two_pow hlt
    · simp [pack, Nat.shiftLeft_eq, Nat.testBit_two_pow_add_eq, Nat.testBit_lt_two_pow hlt]
  simp only [decode, Nat.shiftLeft_eq, Nat.shiftRight_eq_div_pow, Nat.one_mul, hmod, htest]
  rw [if_neg (by have := h.finite; omega), if_neg h.finite.ne]
  have hsmall := h.small
  rw [Nat.pow_succ] at hsmall
  rcases h.least.eq_or_lt with heq | hlt'
  · subst heq
    have hmag : f.magnitude m f.leastExponent = m := by simp [magnitude]
    rw [hmag]
    by_cases hm : m < 2 ^ f.fractionBits
    · rw [if_pos (Nat.div_eq_of_lt hm), Nat.mod_eq_of_lt hm]
    · have hdiv : m / 2 ^ f.fractionBits = 1 := by
        rw [Nat.div_eq_iff hpos]
        omega
      have := Nat.div_add_mod' m (2 ^ f.fractionBits)
      rw [hdiv] at this
      rw [hdiv, if_neg (by decide)]
      congr 1
      · omega
      · omega
  · have hm := h.normal hlt'
    obtain ⟨k, hk⟩ : ∃ k : ℕ, q = f.leastExponent + 1 + k :=
      ⟨(q - f.leastExponent - 1).toNat, by omega⟩
    have hmag : f.magnitude m q = (k + 2) * 2 ^ f.fractionBits + (m - 2 ^ f.fractionBits) := by
      rw [magnitude, show (q - f.leastExponent).toNat = k + 1 by omega, Nat.succ_mul (k + 1)]
      omega
    have hdiv : f.magnitude m q / 2 ^ f.fractionBits = k + 2 := by
      rw [hmag, Nat.mul_comm, Nat.mul_add_div hpos, Nat.div_eq_of_lt (by omega)]
    have hmod' : f.magnitude m q % 2 ^ f.fractionBits = m - 2 ^ f.fractionBits := by
      rw [hmag, Nat.mul_comm, Nat.mul_add_mod, Nat.mod_eq_of_lt (by omega)]
    rw [hdiv, hmod', if_neg (by omega)]
    congr 1
    · omega
    · omega

end Format

/-! ## The interval of a number -/

namespace RoundingInterval

/-- Whether a number of fourths lies in the interval. -/
def Covers (i : RoundingInterval) (x : ℚ) : Prop :=
  i.lower ≤ x ∧ x ≤ i.upper ∧ (i.closed = true ∨ i.lower < x ∧ x < i.upper)

/-- The interval reaches at most half a place to both sides. -/
theorem Covers.bounds {f : Format} {m : ℕ} {q : ℤ} {x : ℚ} (h : (of f m q).Covers x) :
    (4 * m : ℚ) - 2 ≤ x ∧ x ≤ 4 * m + 2 ∧ (m % 2 = 0 ∨ (4 * m : ℚ) - 2 < x ∧ x < 4 * m + 2) := by
  obtain ⟨hlow, hhigh, hends⟩ := h
  have hlower : (4 * m : ℚ) - 2 ≤ (of f m q).lower := by
    have : 4 * m ≤ (of f m q).lower + 2 := by
      simp only [of]
      split <;> omega
    have : (4 * m : ℚ) ≤ (of f m q).lower + 2 := by exact_mod_cast this
    linarith
  have hupper : ((of f m q).upper : ℚ) = 4 * m + 2 := by simp [of]
  refine ⟨by linarith, by linarith, ?_⟩
  refine hends.imp (fun hclosed => ?_) fun hstrict => ⟨by linarith, by linarith⟩
  simpa [of] using hclosed

/-- It reaches a fourth of a place downwards where the exponent changes. -/
theorem lower_boundary (f : Format) {q : ℤ} (hq : f.leastExponent < q) :
    ((of f (2 ^ f.fractionBits) q).lower : ℚ) = 4 * 2 ^ f.fractionBits - 1 := by
  have hlower : (of f (2 ^ f.fractionBits) q).lower + 1 = 4 * 2 ^ f.fractionBits := by
    have : 0 < 2 ^ f.fractionBits := Nat.two_pow_pos _
    simp only [of, Nat.shiftLeft_eq, Nat.one_mul, true_and, if_pos hq]
    omega
  rw [eq_sub_iff_add_eq]
  exact_mod_cast hlower

end RoundingInterval

namespace Format

variable {f : Format} {m : ℕ} {q : ℤ} {num den : ℕ}

/-- Zero lies only in the interval of zero. -/
theorem Holds.eq_zero_of_covers (h : f.Holds m q) (hcover : (RoundingInterval.of f m q).Covers 0) :
    m = 0 ∧ q = f.leastExponent := by
  have hm : m = 0 := by
    have : (4 * m : ℚ) ≤ 2 := by linarith [hcover.bounds.1]
    have : 4 * m ≤ 2 := by exact_mod_cast this
    omega
  refine ⟨hm, ?_⟩
  rcases h.least.eq_or_lt with heq | hlt
  · exact heq.symm
  · have := h.normal hlt
    have := Nat.two_pow_pos f.fractionBits
    omega

/--
The exponent at which a value is cut is that of the number in whose interval it lies, or the one
below it for values just under a power of two.
-/
theorem Holds.cut_of_covers (h : f.Holds m q) (hnum : 0 < num) (hden : 0 < den)
    (hcover : (RoundingInterval.of f m q).Covers (4 * (num / den * 2 ^ (-q)))) :
    max f.leastExponent (floorLog2 num den - f.fractionBits) = q ∨
      f.leastExponent < q ∧ m = 2 ^ f.fractionBits ∧
        (num / den * 2 ^ (-q) : ℚ) < 2 ^ f.fractionBits ∧
        max f.leastExponent (floorLog2 num den - f.fractionBits) = q - 1 := by
  have two : (2 : ℚ) ≠ 0 := two_ne_zero
  obtain ⟨hlow, hhigh, -⟩ := hcover.bounds
  obtain ⟨hlog, hlog'⟩ := floorLog2_spec hnum hden
  set t := floorLog2 num den
  have hpow : (1 : ℚ) ≤ 2 ^ f.fractionBits := one_le_pow₀ (by norm_num)
  have hylow : (2 : ℚ) ^ (t - q) ≤ num / den * 2 ^ (-q) := by
    rw [sub_eq_add_neg, zpow_add₀ two]
    gcongr
  have hyhigh : (num / den * 2 ^ (-q) : ℚ) < 2 ^ (t + 1 - q) := by
    rw [sub_eq_add_neg (t + 1), zpow_add₀ two]
    gcongr
  -- From here on only the value in units of the last place counts.
  generalize (num / den * 2 ^ (-q) : ℚ) = y at *
  have hsmall : (m : ℚ) + 1 ≤ 2 ^ f.fractionBits * 2 := by
    rw [← pow_succ]
    exact_mod_cast h.small
  have hupper : t - f.fractionBits ≤ q := by
    by_contra hlt
    have : (2 : ℚ) ^ ((f.fractionBits + 1 : ℕ) : ℤ) ≤ 2 ^ (t - q) :=
      zpow_le_zpow_right₀ (by norm_num) (by push_cast; omega)
    rw [zpow_natCast, pow_succ] at this
    linarith
  by_cases hcut : t - f.fractionBits = q ∨ q = f.leastExponent
  · left
    have := h.least
    omega
  · have hq : f.leastExponent < q := by
      have := h.least
      omega
    have hbelow : y < 2 ^ f.fractionBits := by
      refine hyhigh.trans_le ?_
      rw [← zpow_natCast]
      exact zpow_le_zpow_right₀ (by norm_num) (by omega)
    obtain rfl : m = 2 ^ f.fractionBits := by
      refine le_antisymm ?_ (h.normal hq)
      have : (m : ℚ) < 2 ^ f.fractionBits + 1 := by linarith
      exact Nat.lt_succ_iff.1 (by exact_mod_cast this)
    have hboundary := hcover.1
    rw [RoundingInterval.lower_boundary f hq] at hboundary
    have hlower : q - 1 ≤ t - f.fractionBits := by
      by_contra hlt
      have : y * 2 < 2 ^ f.fractionBits := by
        calc y * 2 < 2 ^ (t + 1 - q) * 2 := by linarith
          _ = 2 ^ (t + 2 - q) := by
            rw [← zpow_add_one₀ two]
            congr 1
            ring
          _ ≤ 2 ^ f.fractionBits := by
            rw [← zpow_natCast]
            exact zpow_le_zpow_right₀ (by norm_num) (by omega)
      linarith
    exact .inr ⟨hq, rfl, hbelow, by omega⟩

/-- A value is rounded to the integer that is nearest to it at its cut. -/
theorem round_of_near {c : ℤ} {k : ℕ} (hnum : 0 < num) (hden : 0 < den)
    (hc : max f.leastExponent (floorLog2 num den - f.fractionBits) = c)
    (hlow : (k : ℚ) - 1 / 2 ≤ num / den * 2 ^ (-c))
    (hhigh : (num / den * 2 ^ (-c) : ℚ) ≤ k + 1 / 2)
    (htie : k % 2 = 0 ∨ (k : ℚ) - 1 / 2 < num / den * 2 ^ (-c) ∧
      (num / den * 2 ^ (-c) : ℚ) < k + 1 / 2)
    (hfinite : (c - f.leastExponent).toNat * 2 ^ f.fractionBits + k < f.infinity)
    (negative : Bool) :
    f.round negative num den
      = f.pack negative ((c - f.leastExponent).toNat * 2 ^ f.fractionBits + k) := by
  rw [← shiftRatio_eq] at hlow hhigh htie
  have hk := divNearest_eq (shiftRatio_den_pos num hden (-c)) hlow hhigh htie
  simp only [round, if_neg hnum.ne', hc, hk, Nat.shiftLeft_eq]
  rw [Nat.min_eq_left hfinite.le]

/--
What lies in the interval of a number rounds to its pattern. Just under a power of two the
significand is rounded up to the next power and carries into the exponent.
-/
theorem round_eq (h : f.Holds m q) (negative : Bool) (hden : 0 < den)
    (hcover : (RoundingInterval.of f m q).Covers (num / den * 2 ^ (2 - q))) :
    f.round negative num den = f.pack negative (f.magnitude m q) := by
  have hunits : (num / den * 2 ^ (2 - q) : ℚ) = 4 * (num / den * 2 ^ (-q)) := by
    rw [show (2 - q : ℤ) = 2 + -q by ring, zpow_add₀ two_ne_zero]
    norm_num
    ring
  rw [hunits] at hcover
  rcases Nat.eq_zero_or_pos num with rfl | hnum
  · obtain ⟨rfl, rfl⟩ := h.eq_zero_of_covers (by simpa using hcover)
    simp [round, magnitude]
  obtain ⟨hlow, hhigh, htie⟩ := hcover.bounds
  obtain hcut | ⟨hq, rfl, hbelow, hcut⟩ := h.cut_of_covers hnum hden hcover
  · refine round_of_near hnum hden hcut ?_ ?_ ?_ h.finite negative
    · linarith
    · linarith
    · exact htie.imp_right fun h => ⟨by linarith [h.1], by linarith [h.2]⟩
  · have hdouble : (num / den * 2 ^ (-(q - 1)) : ℚ) = 2 * (num / den * 2 ^ (-q)) := by
      rw [show -(q - 1) = -q + 1 by ring, zpow_add_one₀ two_ne_zero]
      ring
    have hcarry : (q - 1 - f.leastExponent).toNat * 2 ^ f.fractionBits + 2 ^ (f.fractionBits + 1)
        = f.magnitude (2 ^ f.fractionBits) q := by
      rw [magnitude, show (q - f.leastExponent).toNat = (q - 1 - f.leastExponent).toNat + 1 by
        omega, Nat.succ_mul, Nat.pow_succ]
      ring
    have hboundary := hcover.1
    rw [RoundingInterval.lower_boundary f hq] at hboundary
    rw [← hcarry]
    refine round_of_near hnum hden hcut ?_ ?_ (.inl ?_) (hcarry ▸ h.finite) negative
    · rw [hdouble, Nat.cast_pow, pow_succ]
      push_cast
      linarith
    · rw [hdouble, Nat.cast_pow, pow_succ]
      push_cast
      linarith
    · rw [Nat.pow_succ]
      omega

end Format

end StorageWeave.Numeric
