import Mathlib.Data.Int.Log
import StorageWeave.Proofs.ShortNumerals

/-!
# Numbers that are read through a wider format

A number of thirty-two bits is read by rounding its numeral to sixty-four bits and the result to
thirty-two. The two roundings together are one if the first never reaches an end of the interval
of the number. The ends are integers of twenty-six bits times a power of two, so that a decimal
with few digits is either such an end itself, and then exact, or too far from it to be rounded
there (`apart_of_multiples`). Numbers that are written with a brief numeral are therefore read back
(`binary32?_brief`), whether or not they are decimals.
-/

namespace StorageWeave.Numeric

/-! ## The nearest number -/

theorem exists_nearest {y : ℚ} (hy : 0 ≤ y) :
    ∃ k : ℕ, (k : ℚ) - 1 / 2 ≤ y ∧ y ≤ k + 1 / 2 ∧
      (k % 2 = 0 ∨ (k : ℚ) - 1 / 2 < y ∧ y < k + 1 / 2) := by
  have hfloor := Nat.floor_le hy
  have hceil := Nat.lt_floor_add_one y
  set n := ⌊y⌋₊
  rcases lt_trichotomy y (n + 1 / 2) with hlt | heq | hgt
  · exact ⟨n, by linarith, hlt.le, .inr ⟨by linarith, hlt⟩⟩
  · -- Halfway, the even neighbour is taken.
    rcases Nat.mod_two_eq_zero_or_one n with heven | hodd
    · exact ⟨n, by linarith, heq.le, .inl heven⟩
    · exact ⟨n + 1, by push_cast; linarith, by push_cast; linarith, .inl (by omega)⟩
  · exact ⟨n + 1, by push_cast; linarith, by push_cast; linarith,
      .inr ⟨by push_cast; linarith, by push_cast; linarith⟩⟩

/-- Half a place around a number belongs to its interval, downwards unless the exponent changes. -/
theorem RoundingInterval.covers_of_near {f : Format} {m : ℕ} {q : ℤ} {y : ℚ}
    (hlow : (m : ℚ) - 1 / 2 ≤ y) (hhigh : y ≤ m + 1 / 2)
    (htie : m % 2 = 0 ∨ (m : ℚ) - 1 / 2 < y ∧ y < m + 1 / 2)
    (hboundary : m = 2 ^ f.fractionBits → m ≤ y) (hm : 0 < m) :
    (RoundingInterval.of f m q).Covers (4 * y) := by
  have hupper : ((RoundingInterval.of f m q).upper : ℚ) = 4 * m + 2 := by simp [of]
  have hclosed : (RoundingInterval.of f m q).closed = true ↔ m % 2 = 0 := by simp [of]
  by_cases hpow : m = 2 ^ f.fractionBits
  · have hlower : ((RoundingInterval.of f m q).lower : ℚ) ≤ 4 * m - 1 := by
      have : (RoundingInterval.of f m q).lower + 1 ≤ 4 * m := by
        simp only [of]
        split <;> omega
      have : ((RoundingInterval.of f m q).lower : ℚ) + 1 ≤ 4 * m := by exact_mod_cast this
      linarith
    have := hboundary hpow
    exact ⟨by linarith, by linarith,
      htie.imp hclosed.2 fun h => ⟨by linarith, by linarith [h.2]⟩⟩
  · have hlower : ((RoundingInterval.of f m q).lower : ℚ) = 4 * m - 2 := by
      have : (RoundingInterval.of f m q).lower + 2 = 4 * m := by
        simp only [of, Nat.shiftLeft_eq, Nat.one_mul, hpow, false_and, if_false]
        omega
      have : ((RoundingInterval.of f m q).lower : ℚ) + 2 = 4 * m := by exact_mod_cast this
      linarith
    exact ⟨by linarith, by linarith,
      htie.imp hclosed.2 fun h => ⟨by linarith [h.1], by linarith [h.2]⟩⟩

/--
A number of fifty-three places, in units of the last one, lies in the interval of a number with all
its bits, which has the next exponent if all places are carried over.
-/
theorem binary64_exists_covers_units {y : ℚ} (hlow : 2 ^ 52 ≤ y) (hhigh : y < 2 ^ 53) {j : ℤ}
    (hj : -1074 ≤ j) (hj' : j < 900) :
    ∃ a i, Format.binary64.Holds a i ∧ 2 ^ 52 ≤ a ∧
      (RoundingInterval.of .binary64 a i).Covers (4 * (y * 2 ^ (j - i))) := by
  obtain ⟨k, hk, hk', htie⟩ := exists_nearest (by positivity : 0 ≤ y)
  have hkLow : 2 ^ 52 ≤ k := by
    have : ((2 ^ 52 : ℕ) : ℚ) < k + 1 := by push_cast; linarith
    exact Nat.lt_succ_iff.1 (by exact_mod_cast this)
  have hkHigh : k ≤ 2 ^ 53 := by
    have : (k : ℚ) < (2 ^ 53 : ℕ) + 1 := by push_cast; linarith
    exact Nat.lt_succ_iff.1 (by exact_mod_cast this)
  rcases hkHigh.lt_or_eq with hlt | rfl
  · refine ⟨k, j, binary64_holds hkLow hlt hj hj'.le, hkLow, ?_⟩
    rw [sub_self, zpow_zero, mul_one]
    refine RoundingInterval.covers_of_near hk hk' htie (fun h => ?_) (by omega)
    rw [h]
    exact_mod_cast hlow
  · refine ⟨2 ^ 52, j + 1, binary64_holds le_rfl (by decide) (by omega) (by omega), le_rfl, ?_⟩
    have hlower := RoundingInterval.lower_boundary .binary64
      (show Format.binary64.leastExponent < j + 1 from
        (show Format.binary64.leastExponent = -1074 by decide).trans_lt (by omega))
    have hupper : (RoundingInterval.of .binary64 (2 ^ 52) (j + 1)).upper = 2 ^ 54 + 2 := rfl
    have hfraction : Format.binary64.fractionBits = 52 := rfl
    rw [hfraction] at hlower
    rw [show j - (j + 1) = -1 by ring, zpow_neg_one]
    push_cast at hk
    refine ⟨?_, ?_, .inl rfl⟩
    · rw [hlower]
      linarith
    · rw [hupper]
      push_cast
      linarith

/-- Every number far inside the range lies in the interval of one with all its bits. -/
theorem binary64_exists_covers {v : ℚ} (hlow : 2 ^ (-100 : ℤ) ≤ v) (hhigh : v < 2 ^ (200 : ℤ)) :
    ∃ a j, Format.binary64.Holds a j ∧ 2 ^ 52 ≤ a ∧
      (RoundingInterval.of .binary64 a j).Covers (v * 2 ^ (2 - j)) := by
  have two : (1 : ℚ) < 2 := by norm_num
  have hpos : 0 < v := (by positivity : (0 : ℚ) < 2 ^ (-100 : ℤ)).trans_le hlow
  have hlog := Int.zpow_log_le_self (b := 2) (by decide) hpos
  have hlog' := Int.lt_zpow_succ_log_self (b := 2) (by decide) v
  set t := Int.log 2 v
  push_cast at hlog hlog'
  have ht : -100 ≤ t := by
    have := (zpow_lt_zpow_iff_right₀ two).1 (hlow.trans_lt hlog')
    omega
  have ht' : t < 200 := (zpow_lt_zpow_iff_right₀ two).1 (hlog.trans_lt hhigh)
  have hylow : (2 : ℚ) ^ 52 ≤ v * 2 ^ (52 - t) := by
    calc (2 : ℚ) ^ 52 = 2 ^ t * 2 ^ (52 - t) := by
          rw [← zpow_add₀ two_ne_zero, add_sub_cancel]
          norm_cast
      _ ≤ v * 2 ^ (52 - t) := by gcongr
  have hyhigh : v * 2 ^ (52 - t) < 2 ^ 53 := by
    calc v * 2 ^ (52 - t) < 2 ^ (t + 1) * 2 ^ (52 - t) := by gcongr
      _ = 2 ^ 53 := by
          rw [← zpow_add₀ two_ne_zero, show t + 1 + (52 - t) = 53 by ring]
          norm_cast
  obtain ⟨a, j, hholds, ha, hcovers⟩ :=
    binary64_exists_covers_units hylow hyhigh (j := t - 52) (by omega) (by omega)
  refine ⟨a, j, hholds, ha, ?_⟩
  have hvalue : v * 2 ^ (2 - j) = 4 * (v * 2 ^ (52 - t) * 2 ^ (t - 52 - j)) := by
    rw [mul_assoc v, ← zpow_add₀ two_ne_zero, show (4 : ℚ) = 2 ^ (2 : ℤ) by norm_num,
      mul_left_comm, ← zpow_add₀ two_ne_zero]
    congr 2
    ring
  rwa [hvalue]

/-- The distance to the nearest number, relative to it. -/
theorem near_of_covers {f : Format} {a : ℕ} {j : ℤ} {v : ℚ} (ha : 2 ^ 52 ≤ a)
    (h : (RoundingInterval.of f a j).Covers (v * 2 ^ (2 - j))) :
    |a * 2 ^ j - v| * 2 ^ 53 ≤ a * 2 ^ j := by
  obtain ⟨hlow, hhigh, -⟩ := h.bounds
  have ha' : (2 : ℚ) ^ 52 ≤ a := by exact_mod_cast ha
  have hplace : (0 : ℚ) < 2 ^ j := by positivity
  obtain ⟨u, hu⟩ : ∃ u : ℚ, u = v * 2 ^ (2 - j) := ⟨_, rfl⟩
  have hv : v = u / 4 * 2 ^ j := by
    rw [hu, zpow_sub₀ two_ne_zero]
    field_simp
    norm_num
  rw [← hu] at hlow hhigh
  have hdist : |(a : ℚ) - u / 4| ≤ 1 / 2 := by
    rw [abs_le]
    exact ⟨by linarith, by linarith⟩
  rw [hv, ← sub_mul, abs_mul, abs_of_pos hplace]
  nlinarith

/-! ## Rounding twice -/

section Multiples

variable {x z c F : ℚ} {X Z : ℕ} (hF : 0 < F) (hc : 0 < c) (hx : x * F = X * c)
  (hz : z * F = Z * c)

include hF hc hx hz

theorem multiples_lt (h : x < z) : X < Z := by
  have : (X * c : ℚ) < Z * c := by
    rw [← hx, ← hz]
    gcongr
  exact_mod_cast lt_of_mul_lt_mul_right this hc.le

theorem multiples_le {r s : ℕ} (h : x * r ≤ z * s) : X * r ≤ Z * s := by
  have : (X * r * c : ℚ) ≤ Z * s * c := by
    calc (X * r * c : ℚ) = x * r * F := by rw [mul_right_comm, ← hx, mul_right_comm]
      _ ≤ z * s * F := by gcongr
      _ = Z * s * c := by rw [mul_right_comm, hz, mul_right_comm]
  exact_mod_cast le_of_mul_le_mul_right this hc

end Multiples

/--
Rounding to fifty-three places does not reach a number from the value if one of the two is a small
multiple of their common unit.
-/
theorem apart_of_multiples {y v b c F : ℚ} {B V : ℕ} (hnear : |y - v| * 2 ^ 53 ≤ y) (hF : 0 < F)
    (hc : 0 < c) (hb : b * F = B * c) (hv : v * F = V * c)
    (hsmall : B < 2 ^ 53 - 1 ∨ V < 2 ^ 53 - 1) : (v < b → y < b) ∧ (b < v → b < y) := by
  constructor
  · intro hlt
    by_contra! hge
    rw [abs_of_pos (by linarith)] at hnear
    have hfew := multiples_lt hF hc hv hb hlt
    have hmany : B * (2 ^ 53 - 1) ≤ V * 2 ^ 53 :=
      multiples_le hF hc hb hv (by push_cast; linarith)
    omega
  · intro hlt
    by_contra! hge
    rw [abs_of_neg (by linarith)] at hnear
    have hfew := multiples_lt hF hc hb hv hlt
    have hmany : V * 2 ^ 53 ≤ B * (2 ^ 53 + 1) :=
      multiples_le hF hc hv hb (by push_cast; linarith)
    omega

/-- A decimal with few digits after the point is rounded away from no number of few bits. -/
theorem apart_of_brief {w B : ℕ} {e p : ℤ} {y : ℚ} (hw : w * 5 ^ e.toNat < 2 ^ 52) (he : -11 ≤ e)
    (hB : B < 2 ^ 26) (hnear : |y - w * 10 ^ e| * 2 ^ 53 ≤ y) :
    ((w * 10 ^ e : ℚ) < B * 2 ^ p → y < B * 2 ^ p) ∧
      (B * 2 ^ p < (w * 10 ^ e : ℚ) → B * 2 ^ p < y) := by
  have hfive : 5 ^ (-e).toNat ≤ 5 ^ 11 := Nat.pow_le_pow_right (by decide) (by omega)
  have hbits : B * 5 ^ (-e).toNat < 2 ^ 53 - 1 :=
    (Nat.mul_le_mul hB.le hfive).trans_lt (by decide)
  have hvalue : (w * 10 ^ e : ℚ) * 5 ^ (-e).toNat = (w * 5 ^ e.toNat : ℕ) * 2 ^ e := by
    have hten : (10 : ℚ) ^ e = 5 ^ e * 2 ^ e := by
      rw [← mul_zpow]
      norm_num
    have hfives : (5 : ℚ) ^ e * 5 ^ (-e).toNat = 5 ^ e.toNat := by
      rw [← zpow_natCast, ← zpow_natCast, ← zpow_add₀ (by norm_num)]
      congr 1
      omega
    push_cast
    rw [hten, ← hfives]
    ring
  rcases le_total e p with hle | hle
  · obtain ⟨n, rfl⟩ := Int.le.dest hle
    refine apart_of_multiples (B := B * 5 ^ (-e).toNat * 2 ^ n) hnear (by positivity)
      (by positivity) ?_ hvalue (.inr (by omega))
    rw [zpow_add₀ two_ne_zero, zpow_natCast]
    push_cast
    ring
  · obtain ⟨n, rfl⟩ := Int.le.dest hle
    refine apart_of_multiples (c := 2 ^ p) (V := w * 5 ^ (p + n).toNat * 2 ^ n) hnear
      (by positivity : (0 : ℚ) < 5 ^ (-(p + n)).toNat) (by positivity) ?_ ?_ (.inl hbits)
    · push_cast
      ring
    · rw [hvalue, zpow_add₀ two_ne_zero, zpow_natCast]
      push_cast
      ring

theorem binary32_ends_lt {m : ℕ} {q : ℤ} (h : Format.binary32.Holds m q) :
    (RoundingInterval.of .binary32 m q).lower < 2 ^ 26 ∧
      (RoundingInterval.of .binary32 m q).upper < 2 ^ 26 := by
  have hsmall : m < 2 ^ 24 := h.small
  simp only [RoundingInterval.of]
  constructor
  · split <;> omega
  · omega

/-- A decimal of the interval is rounded within it unless an end is reached. -/
theorem RoundingInterval.Covers.of_apart {i : RoundingInterval} {q : ℤ} {v y : ℚ}
    (h : i.Covers (v * 2 ^ (2 - q))) (hlower : i.lower * 2 ^ (q - 2) ≠ v)
    (hupper : i.upper * 2 ^ (q - 2) ≠ v)
    (hlow : i.lower * 2 ^ (q - 2) < v → i.lower * 2 ^ (q - 2) < y)
    (hhigh : v < i.upper * 2 ^ (q - 2) → y < i.upper * 2 ^ (q - 2)) :
    i.Covers (y * 2 ^ (2 - q)) := by
  have hplace : (0 : ℚ) < 2 ^ (q - 2) := by positivity
  have hquarters (x : ℚ) : x * 2 ^ (2 - q) = x / 2 ^ (q - 2) := by
    rw [← neg_sub q, zpow_neg, div_eq_mul_inv]
  obtain ⟨hleft, hright, -⟩ := h
  rw [hquarters, le_div_iff₀ hplace] at hleft
  rw [hquarters, div_le_iff₀ hplace] at hright
  have hleft' := (lt_div_iff₀ hplace).2 (hlow (hleft.lt_of_ne hlower))
  have hright' := (div_lt_iff₀ hplace).2 (hhigh (hright.lt_of_ne hupper.symm))
  rw [hquarters]
  exact ⟨hleft'.le, hright'.le, .inr ⟨hleft', hright'⟩⟩

/-- A brief decimal of the interval of a number is rounded to sixty-four bits within it. -/
theorem exists_wide {w m : ℕ} {e q : ℤ} (hw : w * 5 ^ e.toNat < 2 ^ 52) (he : -11 ≤ e)
    (he' : e ≤ 22) (h : Format.binary32.Holds m q)
    (hcovers : (RoundingInterval.of .binary32 m q).Covers (w * 10 ^ e * 2 ^ (2 - q))) :
    ∃ a j, Format.binary64.Holds a j ∧
      (RoundingInterval.of .binary64 a j).Covers (w * 10 ^ e * 2 ^ (2 - j)) ∧
      (RoundingInterval.of .binary32 m q).Covers (a * 2 ^ j * 2 ^ (2 - q)) := by
  by_cases hexact : ∃ B : ℕ, B < 2 ^ 26 ∧ (B * 2 ^ (q - 2) : ℚ) = w * 10 ^ e
  · obtain ⟨B, hB, hvalue⟩ := hexact
    have hleast : Format.binary32.leastExponent = -149 := by decide
    have hfield : (q - Format.binary32.leastExponent).toNat < 255 := h.exponent_lt
    have hq := h.least
    obtain ⟨a, j, hholds, ha⟩ := binary64_exists_holds (a := B) (j := q - 2) (by omega) (by omega)
      (by omega)
    rw [hvalue] at ha
    exact ⟨a, j, hholds, covers_exact ha.symm, by rwa [ha]⟩
  · have hpos : 0 < w := by
      rw [Nat.pos_iff_ne_zero]
      rintro rfl
      exact hexact ⟨0, by decide, by simp⟩
    have hw' : (1 : ℚ) ≤ w := by exact_mod_cast hpos
    have hw'' : (w : ℚ) < 2 ^ 52 := by
      have : w < 2 ^ 52 :=
        (Nat.le_mul_of_pos_right w (Nat.pow_pos (by decide))).trans_lt hw
      exact_mod_cast this
    have hten : (10 : ℚ) ^ (-11 : ℤ) ≤ 10 ^ e := zpow_le_zpow_right₀ (by norm_num) he
    have hten' : (10 : ℚ) ^ e ≤ 10 ^ (22 : ℤ) := zpow_le_zpow_right₀ (by norm_num) he'
    obtain ⟨a, j, hholds, ha, hwide⟩ := binary64_exists_covers (v := w * 10 ^ e)
      (by
        calc (2 : ℚ) ^ (-100 : ℤ) ≤ 1 * 10 ^ (-11 : ℤ) := by norm_num
          _ ≤ w * 10 ^ e := by gcongr)
      (by
        calc (w * 10 ^ e : ℚ) ≤ 2 ^ 52 * 10 ^ (22 : ℤ) := by gcongr
          _ < 2 ^ (200 : ℤ) := by norm_num)
    have hnear := near_of_covers ha hwide
    obtain ⟨hlower, hupper⟩ := binary32_ends_lt h
    refine ⟨a, j, hholds, hwide, hcovers.of_apart ?_ ?_ ?_ ?_⟩
    · exact fun heq => hexact ⟨_, hlower, heq⟩
    · exact fun heq => hexact ⟨_, hupper, heq⟩
    · exact (apart_of_brief hw he hlower hnear).2
    · exact (apart_of_brief hw he hupper hnear).1

end StorageWeave.Numeric

namespace StorageWeave.Json

open Numeric

/--
A short numeral with at most eleven digits after the point, or with few enough digits that its
value has fifty-two bits before its zeros.
-/
structure Numeral.IsBrief (n : Numeral) : Prop extends n.IsShort where
  few : n.significand * 5 ^ n.scale.toNat < 2 ^ 52
  fine : -11 ≤ n.scale

instance : DecidablePred Numeral.IsBrief := fun n =>
  decidable_of_iff (n.IsShort ∧ n.significand * 5 ^ n.scale.toNat < 2 ^ 52 ∧ -11 ≤ n.scale)
    ⟨fun ⟨hshort, hfew, hfine⟩ => ⟨hshort, hfew, hfine⟩, fun h => ⟨h.toIsShort, h.few, h.fine⟩⟩

/-- Narrowing a number that lies in the interval of another gives that other. -/
theorem narrow_eq {y : Binary64} {x : Binary32} {s : Bool} {m a : ℕ} {q j : ℤ}
    (hx : x.datum = .finite s m q) (hy : y.datum = .finite s a j)
    (hcovers : (RoundingInterval.of .binary32 m q).Covers (a * 2 ^ j * 2 ^ (2 - q))) :
    y.narrow = x := by
  have hnarrow : y.narrow = Binary32.ofRatio s (shiftRatio a 1 j).1 (shiftRatio a 1 j).2 := by
    simp only [Binary64.narrow, hy]
  obtain ⟨hholds, hbits⟩ := binary32_finite hx
  rw [hnarrow, Binary32.ofRatio,
    Format.round_eq hholds s (shiftRatio_den_pos a Nat.one_pos j), ← hbits]
  rwa [shiftRatio_eq, Nat.cast_one, div_one]

/-- A number of thirty-two bits that is written with a brief numeral is read back. -/
theorem binary32?_brief {x : Binary32} (hnumeral : (ofBinary32 x).IsNumeral Numeral.IsBrief) :
    binary32? (ofBinary32 x) = some x := by
  cases hx : x.datum with
  | nan => simp [ofBinary32, ofDatum, hx, IsNumeral] at hnumeral
  | infinite s => simp [ofBinary32, ofDatum, hx, IsNumeral] at hnumeral
  | finite s m q =>
    obtain ⟨hholds, -⟩ := binary32_finite hx
    obtain ⟨n, v, hn, hwrites, hcovers⟩ := ofDatum_finite (by decide) ⟨-6, 12⟩ s hholds
    rw [ofBinary32, hx, hn] at hnumeral ⊢
    rw [← hwrites.value] at hcovers
    have hscale := hnumeral.scale
    obtain ⟨a, j, hwide, hrounded, hnarrow⟩ :=
      exists_wide hnumeral.few hnumeral.fine (by omega) hholds hcovers
    have hread := Numeral.number?_short hwrites.real hnumeral.toIsShort hwide hrounded
    rw [hwrites.negative] at hread
    rw [binary32?_real hread, narrow_eq hx (Binary64.datum_pack hwide s) hnarrow]

end StorageWeave.Json
