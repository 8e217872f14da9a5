import Mathlib.Data.List.TakeWhile
import StorageWeave.Proofs.Rounding

/-!
# Shortest decimals lie in the interval

Decimals are given their rational values, and the search for the shortest decimal of a number is
shown to end in the interval of the number (`Format.shortest_covers`), so that it rounds back to
it. The search looks at the two neighbours of the value on finer and finer grids; on the grid of
`enoughDigits` digits one step is less than the width of the interval, so that one of the two
neighbours lies in it and the search never falls through.
-/

namespace StorageWeave.Numeric

/-! ## The size of digits -/

theorem appendDigits_eq (n : Nat) (ds : List Digit) :
    appendDigits n ds = n * 10 ^ ds.length + ofDigits ds := by
  induction ds generalizing n with
  | nil => simp [appendDigits, ofDigits]
  | cons d ds ih =>
    have hcons (k : Nat) : appendDigits k (d :: ds) = appendDigits (10 * k + d.val) ds := rfl
    rw [ofDigits, hcons, hcons, ih, ih (10 * 0 + d.val), List.length_cons, Nat.pow_succ]
    grind

theorem ofDigits_append (as bs : List Digit) :
    ofDigits (as ++ bs) = ofDigits as * 10 ^ bs.length + ofDigits bs := by
  have : ofDigits (as ++ bs) = appendDigits (ofDigits as) bs := by
    simp [ofDigits, appendDigits]
  rw [this, appendDigits_eq]

theorem ofDigits_cons (d : Digit) (ds : List Digit) :
    ofDigits (d :: ds) = d.val * 10 ^ ds.length + ofDigits ds := by
  have := ofDigits_append [d] ds
  simpa [ofDigits, appendDigits] using this

@[simp] theorem ofDigits_replicate_zero (k : Nat) :
    ofDigits (List.replicate k Digit.zero) = 0 := by
  induction k with
  | zero => rfl
  | succ k ih =>
    rw [List.replicate_succ, ofDigits_cons, ih, Digit.zero, Nat.zero_mul]

theorem ofDigits_lt (ds : List Digit) : ofDigits ds < 10 ^ ds.length := by
  induction ds with
  | nil => simp [ofDigits, appendDigits]
  | cons d ds ih =>
    rw [ofDigits_cons, List.length_cons, Nat.pow_succ]
    have hd : d.val * 10 ^ ds.length ≤ 9 * 10 ^ ds.length :=
      Nat.mul_le_mul_right _ (by have := d.isLt; omega)
    omega

theorem Leads.le_ofDigits {ds : List Digit} (h : Leads ds) :
    10 ^ (ds.length - 1) ≤ ofDigits ds := by
  obtain ⟨d, rest, rfl, hd⟩ := h
  have hpos : 1 ≤ d.val := by
    rcases Nat.eq_zero_or_pos d.val with h | h
    · exact absurd (Fin.ext h) hd
    · exact h
  rw [ofDigits_cons, List.length_cons, Nat.add_sub_cancel]
  calc 10 ^ rest.length = 1 * 10 ^ rest.length := (Nat.one_mul _).symm
    _ ≤ d.val * 10 ^ rest.length := Nat.mul_le_mul_right _ hpos
    _ ≤ _ := Nat.le_add_right _ _

theorem lt_pow_length_digits (n : Nat) : n < 10 ^ (digits n).length := by
  have := ofDigits_lt (digits n)
  rwa [ofDigits_digits] at this

theorem pow_length_digits_le {n : Nat} (hn : 0 < n) : 10 ^ ((digits n).length - 1) ≤ n := by
  have := (digits_leads hn).le_ofDigits
  rwa [ofDigits_digits] at this

/-! ## Decimals -/

/-- The number that a decimal stands for. -/
def Decimal.value (d : Decimal) : ℚ :=
  ofDigits d.digits * 10 ^ (d.exponent + 1 - d.digits.length)

/-- Only zeros are dropped at the end, and the first digit stays. -/
theorem dropTrailingZeros_spec {ds : List Digit} (h : Leads ds) :
    Leads (dropTrailingZeros ds) ∧
      ∃ k, ds = dropTrailingZeros ds ++ List.replicate k Digit.zero := by
  obtain ⟨d, rest, rfl, hd⟩ := h
  refine ⟨⟨d, _, rfl, hd⟩, (rest.reverse.takeWhile (· == Digit.zero)).length, ?_⟩
  have hzeros : rest.reverse.takeWhile (· == Digit.zero)
      = List.replicate (rest.reverse.takeWhile (· == Digit.zero)).length Digit.zero := by
    refine List.eq_replicate_of_mem fun x hx => ?_
    simpa using List.mem_takeWhile_imp hx
  have hsplit := congrArg List.reverse
    (List.takeWhile_append_dropWhile (p := (· == Digit.zero)) (l := rest.reverse))
  rw [List.reverse_append, List.reverse_reverse, hzeros, List.reverse_replicate] at hsplit
  rw [dropTrailingZeros, List.cons_append, hsplit]

theorem ofInteger_leads {n : ℕ} (hn : 0 < n) (e : ℤ) :
    Leads (Decimal.ofInteger n e).digits :=
  (dropTrailingZeros_spec (digits_leads hn)).1

theorem value_ofInteger {n : ℕ} (hn : 0 < n) (e : ℤ) :
    (Decimal.ofInteger n e).value = n * 10 ^ e := by
  obtain ⟨-, k, hk⟩ := dropTrailingZeros_spec (digits_leads hn)
  have hvalue : ofDigits (dropTrailingZeros (digits n)) * 10 ^ k = n := by
    have := ofDigits_append (dropTrailingZeros (digits n)) (List.replicate k Digit.zero)
    rwa [← hk, ofDigits_digits, ofDigits_replicate_zero, List.length_replicate, Nat.add_zero,
      eq_comm] at this
  have hlength : (digits n).length = (dropTrailingZeros (digits n)).length + k := by
    have := congrArg List.length hk
    rwa [List.length_append, List.length_replicate] at this
  have hexp : e + ((digits n).length : ℤ) - 1 + 1 - (dropTrailingZeros (digits n)).length
      = k + e := by
    rw [hlength]
    push_cast
    ring
  rw [Decimal.value, Decimal.ofInteger]
  simp only [hexp]
  rw [zpow_add₀ (by norm_num), zpow_natCast, ← mul_assoc]
  congr 1
  exact_mod_cast hvalue

/-! ## The grids of the search -/

theorem scaleRatio_den_pos (num : ℕ) {den : ℕ} (hden : 0 < den) (e : ℤ) :
    0 < (scaleRatio num den e).2 := by
  unfold scaleRatio
  split
  · exact hden
  · exact Nat.mul_pos hden (Nat.pow_pos (by decide))

theorem scaleRatio_num_pos {num : ℕ} (hnum : 0 < num) (den : ℕ) (e : ℤ) :
    0 < (scaleRatio num den e).1 := by
  unfold scaleRatio
  split
  · exact Nat.mul_pos hnum (Nat.pow_pos (by decide))
  · exact hnum

/-- The ratio is the first one times a power of ten. -/
theorem scaleRatio_eq (num den : ℕ) (e : ℤ) :
    ((scaleRatio num den e).1 : ℚ) / (scaleRatio num den e).2 = num / den * 10 ^ e := by
  unfold scaleRatio
  split
  · next he =>
    obtain ⟨k, rfl⟩ := Int.eq_ofNat_of_zero_le he
    simp only [Int.toNat_natCast, Nat.pow_eq, zpow_natCast]
    push_cast
    ring
  · next he =>
    obtain ⟨k, hk⟩ := Int.eq_ofNat_of_zero_le (show 0 ≤ -e by omega)
    obtain rfl : e = -k := by omega
    simp only [neg_neg, Int.toNat_natCast, Nat.pow_eq, zpow_neg, zpow_natCast]
    push_cast
    rw [div_mul_eq_div_div, div_eq_mul_inv (_ / _)]

/-- The power of ten of the exponent is not above the value. -/
theorem floorLog10_le {num den : ℕ} (hnum : 0 < num) (hden : 0 < den) :
    (10 : ℚ) ^ floorLog10 num den ≤ num / den := by
  have hnum' : (0 : ℚ) < num := by exact_mod_cast hnum
  have hden' : (0 : ℚ) < den := by exact_mod_cast hden
  have ten (a b : ℕ) (h : a * 10 ^ b ≤ num) (ha : den ≤ a) : (10 : ℚ) ^ b ≤ num / den := by
    rw [le_div_iff₀ hden', mul_comm]
    exact_mod_cast (Nat.mul_le_mul_right _ ha).trans h
  unfold floorLog10
  split
  · next hle =>
    have hquot : 0 < num / den := Nat.div_pos hle hden
    have hlen : 0 < (digits (num / den)).length := List.length_pos_iff.2 (digits_ne_nil _)
    rw [show ((digits (num / den)).length : ℤ) - 1 = ((digits (num / den)).length - 1 : ℕ) by
      omega, zpow_natCast]
    refine ten den _ ?_ le_rfl
    rw [Nat.mul_comm, ← Nat.le_div_iff_mul_le hden]
    exact pow_length_digits_le hquot
  · next hlt =>
    simp only [Nat.pow_eq]
    generalize hk : (digits (den / num)).length = k
    have hden_lt : den < num * 10 ^ k := by
      rw [Nat.mul_comm, ← Nat.div_lt_iff_lt_mul hnum, ← hk]
      exact lt_pow_length_digits _
    have hpos : 0 < k := hk ▸ List.length_pos_iff.2 (digits_ne_nil _)
    have invert (j : ℕ) (h : den ≤ num * 10 ^ j) : (10 : ℚ) ^ (-(j : ℤ)) ≤ num / den := by
      rw [zpow_neg, zpow_natCast, le_div_iff₀ hden', inv_mul_le_iff₀ (by positivity), mul_comm]
      exact_mod_cast h
    split
    · next h =>
      rw [show (1 - k : ℤ) = -((k - 1 : ℕ) : ℤ) by omega]
      exact invert _ h
    · exact invert _ hden_lt.le

/-- One step of the grid at `10 ^ e10`, in fourths of the last place when these are `2 ^ e2`. -/
def gridStep (e2 e10 : ℤ) : ℚ := 10 ^ e10 / 2 ^ e2

theorem gridStep_pos (e2 e10 : ℤ) : 0 < gridStep e2 e10 := by
  unfold gridStep
  positivity

/-- Whether one of the two neighbours of the value on a grid lies in the interval. -/
def RoundingInterval.Meets (i : RoundingInterval) (step : ℚ) : Prop :=
  ∃ n : ℕ, n * step ≤ i.value ∧ i.value < (n + 1) * step ∧
    (i.Covers (n * step) ∨ i.Covers ((n + 1) * step))

/-- A grid meets the interval if its step is less than twice the reach to both sides. -/
theorem RoundingInterval.meets_of_lt {i : RoundingInterval} {step : ℚ} (hstep : 0 < step)
    (reach : ℚ) (hlower : i.lower + reach ≤ i.value) (hupper : i.value + reach ≤ i.upper)
    (h : step < 2 * reach) : i.Meets step := by
  have hfloor := Nat.floor_le (show (0 : ℚ) ≤ i.value / step by positivity)
  have hceil := Nat.lt_floor_add_one ((i.value : ℚ) / step)
  rw [le_div_iff₀ hstep] at hfloor
  rw [div_lt_iff₀ hstep] at hceil
  refine ⟨⌊(i.value : ℚ) / step⌋₊, hfloor, hceil, ?_⟩
  generalize (⌊(i.value : ℚ) / step⌋₊ : ℚ) = n at hfloor hceil
  have hnext : (n + 1) * step = n * step + step := by ring
  rw [hnext] at hceil ⊢
  -- The nearer neighbour is at most half a step away.
  rcases le_total (i.value - n * step) (step / 2) with hnear | hnear
  · exact .inl ⟨by linarith, by linarith, .inr ⟨by linarith, by linarith⟩⟩
  · exact .inr ⟨by linarith, by linarith, .inr ⟨by linarith, by linarith⟩⟩

theorem RoundingInterval.contains_iff (i : RoundingInterval) {unit : ℕ × ℕ} (hunit : 0 < unit.2)
    (candidate : ℕ) :
    i.contains unit candidate = true ↔ i.Covers (candidate * (unit.1 / unit.2)) := by
  have hpos : (0 : ℚ) < unit.2 := by exact_mod_cast hunit
  have hle (k : ℕ) : k * unit.2 ≤ candidate * unit.1 ↔
      (k : ℚ) ≤ candidate * (unit.1 / unit.2) := by
    rw [← mul_div_assoc, le_div_iff₀ hpos]
    exact_mod_cast Iff.rfl
  have hge (k : ℕ) : candidate * unit.1 ≤ k * unit.2 ↔
      (candidate * (unit.1 / unit.2) : ℚ) ≤ k := by
    rw [← mul_div_assoc, div_le_iff₀ hpos]
    exact_mod_cast Iff.rfl
  unfold RoundingInterval.contains Covers
  cases hclosed : i.closed with
  | true => simp [hle, hge]
  | false =>
    simp only [Bool.false_eq_true, if_false, Bool.and_eq_true, decide_eq_true_eq, false_or,
      ← not_le, hle, hge]
    constructor
    · rintro ⟨hlow, hhigh⟩
      exact ⟨(not_le.1 hlow).le, (not_le.1 hhigh).le, hlow, hhigh⟩
    · exact fun h => h.2.2

/-- The unit of a grid as the search computes it. -/
theorem gridUnit_spec (e2 e10 : ℤ) :
    let unit := scaleRatio (shiftRatio 1 1 e2).1 (shiftRatio 1 1 e2).2 (-e10)
    0 < unit.1 ∧ 0 < unit.2 ∧ (unit.2 : ℚ) / unit.1 = gridStep e2 e10 := by
  intro unit
  refine ⟨scaleRatio_num_pos (shiftRatio_num_pos Nat.one_pos 1 e2) _ _,
    scaleRatio_den_pos _ (shiftRatio_den_pos 1 Nat.one_pos e2) _, ?_⟩
  rw [← inv_div, scaleRatio_eq, shiftRatio_eq, gridStep, zpow_neg]
  simp only [Nat.cast_one, div_one, one_mul, mul_inv, inv_inv]
  rw [div_eq_mul_inv, mul_comm]

/--
If one of the grids that are left meets the interval, the search ends with a decimal in it. The
induction is on the number of these grids: a grid on which both neighbours fail meets nothing.
-/
theorem shortestFrom_covers (tie : Tie) {i : RoundingInterval} {e2 exponent : ℤ} {fuel count : ℕ}
    (h : ∃ c, count ≤ c ∧ c < count + fuel ∧ i.Meets (gridStep e2 (exponent - c + 1))) :
    ∃ (n : ℕ) (e10 : ℤ), shortestFrom tie i e2 exponent fuel count = Decimal.ofInteger n e10 ∧
      i.Covers (n * gridStep e2 e10) := by
  induction fuel generalizing count with
  | zero =>
    obtain ⟨c, hc, hc', -⟩ := h
    omega
  | succ fuel ih =>
    obtain ⟨hden, hnum, hstep⟩ := gridUnit_spec e2 (exponent - count + 1)
    simp only [shortestFrom]
    generalize scaleRatio (shiftRatio 1 1 e2).1 (shiftRatio 1 1 e2).2 (-(exponent - count + 1))
      = unit at hden hnum hstep ⊢
    have hcovers (k : ℕ) : i.contains (unit.2, unit.1) k = true ↔
        i.Covers (k * gridStep e2 (exponent - count + 1)) := by
      rw [i.contains_iff hden k, hstep]
    split
    · next hbelow _ => exact ⟨_, _, rfl, (hcovers _).1 hbelow⟩
    · next _ habove => exact ⟨_, _, rfl, (hcovers _).1 habove⟩
    · next hbelow habove =>
      split
      · exact ⟨_, _, rfl, (hcovers _).1 hbelow⟩
      · exact ⟨_, _, rfl, (hcovers _).1 habove⟩
    · next hbelow habove =>
      obtain ⟨c, hc, hc', hmeets⟩ := h
      refine ih ⟨c, ?_, by omega, hmeets⟩
      by_contra hlt
      obtain rfl : c = count := by omega
      obtain ⟨n, hle, hgt, hn⟩ := hmeets
      -- The lower neighbour is the one that the search has tried.
      have hpos : (0 : ℚ) < unit.2 := by exact_mod_cast hnum
      have hden' : (0 : ℚ) < unit.1 := by exact_mod_cast hden
      rw [← hstep, ← mul_div_assoc, div_le_iff₀ hden'] at hle
      rw [← hstep, ← mul_div_assoc, lt_div_iff₀ hden'] at hgt
      have hfloor : i.value * unit.1 / unit.2 = n := by
        rw [Nat.div_eq_iff hnum]
        have hle' : n * unit.2 ≤ i.value * unit.1 := by exact_mod_cast hle
        have hgt' : i.value * unit.1 < (n + 1) * unit.2 := by exact_mod_cast hgt
        have : (n + 1) * unit.2 = n * unit.2 + unit.2 := by ring
        omega
      rw [hfloor] at hbelow habove
      rcases hn with hn | hn
      · exact absurd ((hcovers n).2 hn) (by simp [hbelow])
      · exact absurd ((hcovers (n + 1)).2 (by exact_mod_cast hn)) (by simp [habove])

/-- On the grid of `enoughDigits` digits a step is less than the interval is wide. -/
theorem Format.lastGrid_meets {f : Format}
    (hf : 2 ^ (f.fractionBits + 1) < 10 ^ (f.enoughDigits - 1)) {m : ℕ} {q E : ℤ}
    (h : f.Holds m q) (hm : 0 < m) (hE : (10 : ℚ) ^ E ≤ m * 2 ^ q) :
    (RoundingInterval.of f m q).Meets (gridStep (q - 2) (E - f.enoughDigits + 1)) := by
  have hdigits : 0 < f.enoughDigits := by
    unfold enoughDigits
    omega
  have hf' : (2 : ℚ) ^ f.fractionBits * 2 < 10 ^ (f.enoughDigits - 1) := by
    rw [← pow_succ]
    exact_mod_cast hf
  have hm' : (m : ℚ) < 2 ^ f.fractionBits * 2 := by
    rw [← pow_succ]
    exact_mod_cast h.small
  have hsteps : gridStep (q - 2) (E - f.enoughDigits + 1) * 10 ^ (f.enoughDigits - 1)
      ≤ 4 * m := by
    have hpower : (10 : ℚ) ^ (E - f.enoughDigits + 1) * 10 ^ (f.enoughDigits - 1) = 10 ^ E := by
      rw [← zpow_natCast, ← zpow_add₀ (by norm_num)]
      congr 1
      omega
    have hfourth : (2 : ℚ) ^ q = 4 * 2 ^ (q - 2) := by
      rw [show q = 2 + (q - 2) by ring, zpow_add₀ two_ne_zero]
      norm_num
    rw [gridStep, div_mul_eq_mul_div, hpower, div_le_iff₀ (by positivity)]
    calc (10 : ℚ) ^ E ≤ m * 2 ^ q := hE
      _ = 4 * m * 2 ^ (q - 2) := by rw [hfourth]; ring
  have hbound {r : ℚ} (hr : 4 * (m : ℚ) < r * 10 ^ (f.enoughDigits - 1)) :
      gridStep (q - 2) (E - f.enoughDigits + 1) < r :=
    lt_of_mul_lt_mul_right (hsteps.trans_lt hr) (by positivity)
  by_cases hboundary : m = 1 <<< f.fractionBits ∧ f.leastExponent < q
  · refine RoundingInterval.meets_of_lt (gridStep_pos _ _) 1 ?_ ?_ (hbound ?_)
    · have : (RoundingInterval.of f m q).lower + 1 = 4 * m := by
        simp only [RoundingInterval.of, if_pos hboundary]
        omega
      exact le_of_eq (by exact_mod_cast this)
    · simp [RoundingInterval.of]
    · have : (m : ℚ) = 2 ^ f.fractionBits := by
        rw [hboundary.1, Nat.shiftLeft_eq, Nat.one_mul]
        push_cast
        rfl
      linarith
  · refine RoundingInterval.meets_of_lt (gridStep_pos _ _) 2 ?_ ?_ (hbound ?_)
    · have : (RoundingInterval.of f m q).lower + 2 = 4 * m := by
        simp only [RoundingInterval.of, if_neg hboundary]
        omega
      exact le_of_eq (by exact_mod_cast this)
    · simp [RoundingInterval.of]
    · linarith

/--
The shortest decimal of a number lies in its interval and starts with a digit other than zero, in a
format whose significands have fewer digits than are tried.
-/
theorem Format.shortest_covers {f : Format}
    (hf : 2 ^ (f.fractionBits + 1) < 10 ^ (f.enoughDigits - 1)) (tie : Tie) {m : ℕ} {q : ℤ}
    (h : f.Holds m q) (hm : 0 < m) :
    Leads (f.shortest tie m q).digits ∧
      (RoundingInterval.of f m q).Covers ((f.shortest tie m q).value * 2 ^ (2 - q)) := by
  have hten := floorLog10_le (shiftRatio_num_pos hm 1 q) (shiftRatio_den_pos m Nat.one_pos q)
  rw [shiftRatio_eq, Nat.cast_one, div_one] at hten
  have hdigits : 1 ≤ f.enoughDigits := by
    unfold enoughDigits
    omega
  have hlast : f.enoughDigits < 1 + f.enoughDigits := by omega
  obtain ⟨n, e10, hshortest, hcovers⟩ := shortestFrom_covers tie
    ⟨f.enoughDigits, hdigits, hlast, lastGrid_meets hf h hm hten⟩
  have hn : 0 < n := by
    rcases Nat.eq_zero_or_pos n with rfl | hn
    · have := hcovers.bounds.1
      have : (4 * m : ℚ) ≤ 2 := by simpa using this
      have : 4 * m ≤ 2 := by exact_mod_cast this
      omega
    · exact hn
  have heq : f.shortest tie m q = Decimal.ofInteger n e10 := hshortest
  refine ⟨heq ▸ ofInteger_leads hn e10, ?_⟩
  rw [heq, value_ofInteger hn, show (2 - q : ℤ) = -(q - 2) by ring, zpow_neg, mul_assoc,
    ← div_eq_mul_inv]
  exact hcovers

end StorageWeave.Numeric
