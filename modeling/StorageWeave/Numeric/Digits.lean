/-!
# Decimal digits

Numbers as lists of decimal digits, the most significant one first. `ofDigits_digits` says that the
digits of a number determine it.
-/

namespace StorageWeave.Numeric

/-- A decimal digit. -/
abbrev Digit : Type := Fin 10

/-- The digit zero. -/
def Digit.zero : Digit := ⟨0, by decide⟩

/-- The last digit of a number. -/
def lastDigit (n : Nat) : Digit := ⟨n % 10, Nat.mod_lt n (by decide)⟩

/-- Puts the digits of `n` before `acc`; `fuel` bounds their number. -/
def digitsOnto : Nat → Nat → List Digit → List Digit
  | 0, _, acc => acc
  | fuel + 1, n, acc =>
    if n < 10 then lastDigit n :: acc else digitsOnto fuel (n / 10) (lastDigit n :: acc)

/-- The digits of a number, without leading zeros; zero has one digit. -/
def digits (n : Nat) : List Digit := digitsOnto (n + 1) n []

/-- The number whose digits follow those of `n`. -/
def appendDigits (n : Nat) (ds : List Digit) : Nat := ds.foldl (fun a d => 10 * a + d.val) n

/-- The number with the given digits. -/
def ofDigits (ds : List Digit) : Nat := appendDigits 0 ds

/-- The character of a digit. -/
def Digit.char (d : Digit) : Char := Char.ofNat (48 + d.val)

/-- The text of a list of digits. -/
def digitText (ds : List Digit) : String := String.ofList (ds.map Digit.char)

/-- The decimal text of a natural number. -/
def natText (n : Nat) : String := digitText (digits n)

/-- The decimal text of an integer. -/
def intText (z : Int) : String := if z < 0 then "-" ++ natText z.natAbs else natText z.natAbs

/-- The value of a digit character. -/
def Digit.ofByte? (b : UInt8) : Option Digit :=
  if h : 48 ≤ b.toNat ∧ b.toNat < 58 then some ⟨b.toNat - 48, by omega⟩ else none

theorem appendDigits_digitsOnto (fuel n : Nat) (h : n < fuel) (acc : List Digit) :
    ofDigits (digitsOnto fuel n acc) = appendDigits n acc := by
  induction fuel generalizing n acc with
  | zero => omega
  | succ fuel ih =>
    rw [digitsOnto]
    split
    · next small => simp [ofDigits, appendDigits, lastDigit, Nat.mod_eq_of_lt small]
    · next big =>
      rw [ih (n / 10) (by omega)]
      simp only [appendDigits, List.foldl_cons, lastDigit]
      congr 1
      omega

/-- The digits of a number determine it. -/
@[simp] theorem ofDigits_digits (n : Nat) : ofDigits (digits n) = n :=
  appendDigits_digitsOnto (n + 1) n (Nat.lt_succ_self n) []

/-! ## Leading digits -/

/-- Digits that do not start with a zero. -/
def Leads (ds : List Digit) : Prop := ∃ d rest, ds = d :: rest ∧ d ≠ Digit.zero

theorem digitsOnto_leads {fuel n : Nat} (hfuel : n < fuel) (hn : 0 < n) (acc : List Digit) :
    Leads (digitsOnto fuel n acc) := by
  induction fuel generalizing n acc with
  | zero => omega
  | succ fuel ih =>
    rw [digitsOnto]
    split
    · next small =>
      refine ⟨lastDigit n, acc, rfl, fun h => ?_⟩
      have := congrArg Fin.val h
      simp only [lastDigit, Digit.zero] at this
      omega
    · exact ih (by omega) (by omega) _

theorem digits_leads {n : Nat} (hn : 0 < n) : Leads (digits n) :=
  digitsOnto_leads (Nat.lt_succ_self n) hn []

@[simp] theorem digits_zero : digits 0 = [Digit.zero] := rfl

theorem digits_ne_nil (n : Nat) : digits n ≠ [] := by
  rcases Nat.eq_zero_or_pos n with rfl | hn
  · simp
  · obtain ⟨d, ds, h, -⟩ := digits_leads hn
    simp [h]

end StorageWeave.Numeric
