/-!
# Binary floating point

The two interchange formats of the machine, kept as words: a number is its bit pattern, so that
equality of constants is decidable and the payload of a NaN is not lost. Reading a pattern gives a
`Datum`, a sign and `m · 2 ^ q` when it is finite; `Format.round` goes back, to the nearest pattern
with ties to the even one. Arithmetic is exact arithmetic followed by one such rounding.
-/

namespace StorageWeave.Numeric

/-- The widths of the two fields after the sign bit. -/
structure Format where
  fractionBits : Nat
  exponentBits : Nat
  deriving DecidableEq, Repr

namespace Format

/-- Thirty-two bits, eight of them for the exponent. -/
def binary32 : Format := ⟨23, 8⟩

/-- Sixty-four bits, eleven of them for the exponent. -/
def binary64 : Format := ⟨52, 11⟩

/-- The number of bits below the sign. -/
def magnitudeBits (f : Format) : Nat := f.fractionBits + f.exponentBits

/-- The exponent `q` of the subnormal numbers `m · 2 ^ q`, the least one of the format. -/
def leastExponent (f : Format) : Int := 2 - (1 <<< (f.exponentBits - 1) : Nat) - f.fractionBits

/-- The magnitude of infinity: an exponent field of ones and a fraction of zeros. -/
def infinity (f : Format) : Nat := (1 <<< f.exponentBits - 1) <<< f.fractionBits

/-- The bit pattern with a sign and a magnitude. -/
def pack (f : Format) (negative : Bool) (magnitude : Nat) : Nat :=
  (if negative then 1 <<< f.magnitudeBits else 0) + magnitude

end Format

/-- What a bit pattern stands for. -/
inductive Datum where
  | nan
  | infinite (negative : Bool)
  /-- The number `m · 2 ^ q`, with its sign also when `m` is zero. -/
  | finite (negative : Bool) (m : Nat) (q : Int)
  deriving DecidableEq, Repr

namespace Format

/-- Reads a bit pattern. -/
def decode (f : Format) (bits : Nat) : Datum :=
  let negative := bits.testBit f.magnitudeBits
  let magnitude := bits % (1 <<< f.magnitudeBits)
  let exponent := magnitude >>> f.fractionBits
  let fraction := magnitude % (1 <<< f.fractionBits)
  if f.infinity < magnitude then .nan
  else if magnitude = f.infinity then .infinite negative
  else if exponent = 0 then .finite negative fraction f.leastExponent
  else .finite negative (1 <<< f.fractionBits + fraction) (f.leastExponent + exponent - 1)

end Format

/-- The quotient rounded to the nearest integer, a half going to the even neighbour. -/
def divNearest (num den : Nat) : Nat :=
  let q := num / den
  let r := num % den
  if 2 * r < den then q
  else if den < 2 * r then q + 1
  else q + q % 2

/-- Numerator and denominator of `num / den · 2 ^ e`. -/
def shiftRatio (num den : Nat) (e : Int) : Nat × Nat :=
  if 0 ≤ e then (num <<< e.toNat, den) else (num, den <<< (-e).toNat)

/-- The exponent `t` with `2 ^ t ≤ num / den < 2 ^ (t + 1)`, for positive numbers. -/
def floorLog2 (num den : Nat) : Int :=
  let t : Int := num.log2 - den.log2
  let (n, d) := shiftRatio num den (-t)
  if d ≤ n then t else t - 1

namespace Format

/--
The bit pattern nearest to `num / den` with the given sign; a tie goes to the even pattern and what
is too large becomes infinite. The significand is cut at the exponent of the value, or at the least
exponent of the format. Since the patterns of a format are ordered like their values, a carry out
of the significand moves to the next exponent by itself.
-/
def round (f : Format) (negative : Bool) (num den : Nat) : Nat :=
  if num = 0 then f.pack negative 0
  else
    let q := max f.leastExponent (floorLog2 num den - f.fractionBits)
    let (n, d) := shiftRatio num den (-q)
    let magnitude := (q - f.leastExponent).toNat <<< f.fractionBits + divNearest n d
    f.pack negative (min magnitude f.infinity)

/-- The place of a number on the line, `none` for a NaN. The two zeros share a place. -/
def place? (f : Format) (bits : Nat) : Option Int :=
  let magnitude := bits % (1 <<< f.magnitudeBits)
  if f.infinity < magnitude then none
  else if bits.testBit f.magnitudeBits then some (-magnitude)
  else some magnitude

/-- The order of two numbers, `none` when one of them is a NaN. -/
def compare? (f : Format) (a b : Nat) : Option Ordering :=
  match f.place? a, f.place? b with
  | some x, some y => some (compare x y)
  | _, _ => none

end Format

/-- A number of thirty-two bits. -/
structure Binary32 where
  bits : UInt32
  deriving DecidableEq, Repr

/-- A number of sixty-four bits. -/
structure Binary64 where
  bits : UInt64
  deriving DecidableEq, Repr

namespace Binary32

/-- What the pattern stands for. -/
def datum (x : Binary32) : Datum := Format.binary32.decode x.bits.toNat

/-- Positive zero. -/
def zero : Binary32 := ⟨0⟩

/-- The number nearest to a ratio with a sign. -/
def ofRatio (negative : Bool) (num den : Nat) : Binary32 :=
  ⟨(Format.binary32.round negative num den).toUInt32⟩

/-- The order of two numbers, `none` when one of them is a NaN. -/
def compare? (x y : Binary32) : Option Ordering :=
  Format.binary32.compare? x.bits.toNat y.bits.toNat

/-- Numerical equality: a NaN differs from itself and the two zeros agree. -/
def equals (x y : Binary32) : Bool := x.compare? y == some .eq

end Binary32

namespace Binary64

/-- What the pattern stands for. -/
def datum (x : Binary64) : Datum := Format.binary64.decode x.bits.toNat

/-- Positive zero. -/
def zero : Binary64 := ⟨0⟩

/-- The number nearest to a ratio with a sign. -/
def ofRatio (negative : Bool) (num den : Nat) : Binary64 :=
  ⟨(Format.binary64.round negative num den).toUInt64⟩

/-- The number nearest to a natural number. -/
def ofNat (n : Nat) : Binary64 := ofRatio false n 1

/-- The infinity of a sign. -/
def infinity (negative : Bool) : Binary64 :=
  ⟨(Format.binary64.pack negative Format.binary64.infinity).toUInt64⟩

/-- The zero of a sign. -/
def signedZero (negative : Bool) : Binary64 := ⟨(Format.binary64.pack negative 0).toUInt64⟩

/-- The NaN that an operation without a result gives. -/
def invalid : Binary64 := ⟨0xFFF8000000000000⟩

/-- The same NaN with its quiet bit set. -/
def quieted (x : Binary64) : Binary64 := ⟨x.bits ||| 0x0008000000000000⟩

/-- The number with the opposite sign. -/
def neg (x : Binary64) : Binary64 := ⟨x.bits ^^^ 0x8000000000000000⟩

/-- The order of two numbers, `none` when one of them is a NaN. -/
def compare? (x y : Binary64) : Option Ordering :=
  Format.binary64.compare? x.bits.toNat y.bits.toNat

/-- Numerical equality: a NaN differs from itself and the two zeros agree. -/
def equals (x y : Binary64) : Bool := x.compare? y == some .eq

/-- Whether the pattern is one of the two zeros. -/
def isZero (x : Binary64) : Bool := x.equals zero

/-- Whether the pattern is one of the two infinities. -/
def isInfinite (x : Binary64) : Bool :=
  match x.datum with
  | .infinite _ => true
  | _ => false

/-- The number nearest to `z · 2 ^ q`, where `negativeZero` is the sign of an exact zero. -/
def ofScaled (z : Int) (q : Int) (negativeZero : Bool) : Binary64 :=
  if z = 0 then signedZero negativeZero
  else
    let (n, d) := shiftRatio z.natAbs 1 q
    ofRatio (z < 0) n d

/-- A magnitude with a sign. -/
def signed (negative : Bool) (m : Nat) : Int := if negative then -m else m

/-- The sum. An exact zero is negative only when both terms are negative. -/
def add (x y : Binary64) : Binary64 :=
  match x.datum, y.datum with
  | .nan, _ => x.quieted
  | _, .nan => y.quieted
  | .infinite s, .infinite t => if s = t then x else invalid
  | .infinite _, .finite .. => x
  | .finite .., .infinite _ => y
  | .finite s m q, .finite t n r =>
    let e := min q r
    let a := signed s (m <<< (q - e).toNat)
    let b := signed t (n <<< (r - e).toNat)
    ofScaled (a + b) e (s && t)

/-- The difference. -/
def sub (x y : Binary64) : Binary64 :=
  match x.datum, y.datum with
  | .nan, _ => x.quieted
  | _, .nan => y.quieted
  | _, _ => x.add y.neg

/-- The product. -/
def mul (x y : Binary64) : Binary64 :=
  match x.datum, y.datum with
  | .nan, _ => x.quieted
  | _, .nan => y.quieted
  | .infinite s, .infinite t => infinity (s ^^ t)
  | .infinite s, .finite t n _ => if n = 0 then invalid else infinity (s ^^ t)
  | .finite s m _, .infinite t => if m = 0 then invalid else infinity (s ^^ t)
  | .finite s m q, .finite t n r =>
    let (a, b) := shiftRatio (m * n) 1 (q + r)
    ofRatio (s ^^ t) a b

/-- The quotient. -/
def div (x y : Binary64) : Binary64 :=
  match x.datum, y.datum with
  | .nan, _ => x.quieted
  | _, .nan => y.quieted
  | .infinite _, .infinite _ => invalid
  | .infinite s, .finite t _ _ => infinity (s ^^ t)
  | .finite s _ _, .infinite t => signedZero (s ^^ t)
  | .finite s m q, .finite t n r =>
    if n = 0 then
      if m = 0 then invalid else infinity (s ^^ t)
    else
      let (a, b) := shiftRatio m n (q - r)
      ofRatio (s ^^ t) a b

/-- The nearest number of thirty-two bits; what is too large becomes infinite. -/
def narrow (x : Binary64) : Binary32 :=
  match x.datum with
  | .nan => ⟨0x7FC00000⟩
  | .infinite negative =>
    ⟨(Format.binary32.pack negative Format.binary32.infinity).toUInt32⟩
  | .finite negative m q =>
    let (n, d) := shiftRatio m 1 q
    Binary32.ofRatio negative n d

end Binary64

end StorageWeave.Numeric
