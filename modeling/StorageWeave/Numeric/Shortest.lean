import StorageWeave.Numeric.Binary
import StorageWeave.Numeric.Digits

/-!
# Shortest decimals

The shortest decimal of a binary number is the one with the fewest digits among those that round
back to it, and among these the nearest. For each number of digits the two neighbours of the value
on that decimal grid are tested against the interval of reals that round to it. A value half-way
between two such neighbours goes as the format that writes it decides.
-/

namespace StorageWeave.Numeric

/-- A positive decimal `d₀.d₁d₂… · 10 ^ exponent` with a leading digit other than zero. -/
structure Decimal where
  digits : List Digit
  exponent : Int
  deriving DecidableEq, Repr

/-- Numerator and denominator of `num / den · 10 ^ e`. -/
def scaleRatio (num den : Nat) (e : Int) : Nat × Nat :=
  if 0 ≤ e then (num * Nat.pow 10 e.toNat, den) else (num, den * Nat.pow 10 (-e).toNat)

/-- The exponent `e` with `10 ^ e ≤ num / den < 10 ^ (e + 1)`, for positive numbers. -/
def floorLog10 (num den : Nat) : Int :=
  if den ≤ num then (digits (num / den)).length - 1
  else
    let places := (digits (den / num)).length
    if den ≤ num * Nat.pow 10 (places - 1) then 1 - places else -places

/--
The reals that round to a binary number, in fourths of its last place: from `lower` to `upper`
around `value`, with the ends when `closed`.
-/
structure RoundingInterval where
  lower : Nat
  value : Nat
  upper : Nat
  closed : Bool
  deriving DecidableEq, Repr

/--
The interval of `m · 2 ^ q`. It reaches half a place to both sides, but only a fourth of a place
downwards where the exponent changes. An even significand wins its ties.
-/
def RoundingInterval.of (f : Format) (m : Nat) (q : Int) : RoundingInterval where
  lower := if m = 1 <<< f.fractionBits ∧ f.leastExponent < q then 4 * m - 1 else 4 * m - 2
  value := 4 * m
  upper := 4 * m + 2
  closed := m % 2 == 0

/-- Whether `candidate · unit` lies in the interval, where `unit` is a ratio to a fourth. -/
def RoundingInterval.contains (i : RoundingInterval) (unit : Nat × Nat) (candidate : Nat) : Bool :=
  let x := candidate * unit.1
  if i.closed then i.lower * unit.2 ≤ x && x ≤ i.upper * unit.2
  else i.lower * unit.2 < x && x < i.upper * unit.2

/-- Where a value goes that is half-way between two neighbours. -/
inductive Tie where
  /-- To the neighbour further from zero. -/
  | up
  /-- To the neighbour with an even last digit. -/
  | toEven
  deriving DecidableEq, Repr

/-- Whether the lower of two neighbours is taken in a tie. -/
def Tie.takesLower (below : Nat) : Tie → Bool
  | .up => false
  | .toEven => below % 2 == 0

/-- Drops the zeros at the end, keeping one digit. -/
def dropTrailingZeros : List Digit → List Digit
  | [] => []
  | d :: ds => d :: (ds.reverse.dropWhile (· == Digit.zero)).reverse

/-- The decimal with an integer's digits, the last of them at `10 ^ e`. -/
def Decimal.ofInteger (n : Nat) (e : Int) : Decimal :=
  let ds := Numeric.digits n
  ⟨dropTrailingZeros ds, e + ds.length - 1⟩

/--
Searches the grids of `count`, `count + 1`, … digits for a decimal in the interval; `fuel` is the
number of grids left, and on the last one the lower neighbour is taken. `exponent` is the decimal
exponent of the value and `e2` the binary exponent of a fourth of its last place.
-/
def shortestFrom (tie : Tie) (i : RoundingInterval) (e2 exponent : Int) : Nat → Nat → Decimal
  | 0, count =>
    let e10 := exponent - count + 1
    let (n, d) := shiftRatio 1 1 e2
    let (unitDen, unitNum) := scaleRatio n d (-e10)
    Decimal.ofInteger (i.value * unitDen / unitNum) e10
  | fuel + 1, count =>
    let e10 := exponent - count + 1
    -- One step of the grid is `unitNum / unitDen` fourths.
    let (n, d) := shiftRatio 1 1 e2
    let (unitDen, unitNum) := scaleRatio n d (-e10)
    let below := i.value * unitDen / unitNum
    let above := below + 1
    match i.contains (unitNum, unitDen) below, i.contains (unitNum, unitDen) above with
    | true, false => Decimal.ofInteger below e10
    | false, true => Decimal.ofInteger above e10
    | true, true =>
      let toBelow := i.value * unitDen - below * unitNum
      let toAbove := above * unitNum - i.value * unitDen
      if toBelow < toAbove ∨ toBelow = toAbove ∧ tie.takesLower below then
        Decimal.ofInteger below e10
      else Decimal.ofInteger above e10
    | false, false => shortestFrom tie i e2 exponent fuel (count + 1)

/-- The number of digits that always tell two numbers of a format apart. -/
def Format.enoughDigits (f : Format) : Nat := 2 + (f.fractionBits + 1) * 30103 / 100000

/-- The shortest decimal of `m · 2 ^ q`, for a positive `m`. -/
def Format.shortest (f : Format) (tie : Tie) (m : Nat) (q : Int) : Decimal :=
  let (n, d) := shiftRatio m 1 q
  shortestFrom tie (RoundingInterval.of f m q) (q - 2) (floorLog10 n d) f.enoughDigits 1

end StorageWeave.Numeric
