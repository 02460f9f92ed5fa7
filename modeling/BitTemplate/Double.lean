/-!
Floating-point numbers of 64 bits, kept as their bit pattern so that every operation is arithmetic on natural numbers.
A finite pattern stands for `significand * 2 ^ exponent`. Every operation that leaves the format rounds the exact
quotient to the nearest pattern, a tie to the even one.
-/

namespace BitTemplate

/-! ## Rounding -/

/-- A format of floating-point numbers, by its magnitudes: the bits of a significand, the exponent of the unit of the
smallest numbers, and the pattern of infinity. -/
structure FloatFormat where
  precision : Nat
  lowest : Int
  infinity : Nat
deriving DecidableEq

/-- The format of 64 bits. -/
def FloatFormat.wide : FloatFormat := ⟨53, -1074, 0x7ff0000000000000⟩

/-- The format of 32 bits. -/
def FloatFormat.narrow : FloatFormat := ⟨24, -149, 0x7f800000⟩

/-- The quotient rounded to the nearest number, a tie to the even one. -/
def roundQuotient (num den : Nat) : Nat :=
  let quotient := num / den
  let rest := num % den
  if 2 * rest < den then quotient
  else if den < 2 * rest then quotient + 1
  else quotient + quotient % 2

/-- The fraction `num / den` in units of `2 ^ exponent`, again as a fraction. -/
def inUnits (num den : Nat) (exponent : Int) : Nat × Nat :=
  (num <<< (-exponent).toNat, den <<< exponent.toNat)

/-- The exponent of the leading binary digit of a positive fraction. -/
def leadingExponent (num den : Nat) : Int :=
  let guess : Int := (num.log2 : Int) - (den.log2 : Int)
  let (scaledNum, scaledDen) := inUnits num den guess
  if scaledNum < scaledDen then guess - 1 else guess

/-- The pattern of the magnitude nearest to a fraction; a magnitude past the largest number is infinite. -/
def FloatFormat.round (format : FloatFormat) (num den : Nat) : Nat :=
  if num = 0 then 0
  else
    let exponent := max (leadingExponent num den - (format.precision - 1 : Nat)) format.lowest
    let (scaledNum, scaledDen) := inUnits num den exponent
    let pattern := ((exponent - format.lowest).toNat <<< (format.precision - 1)) + roundQuotient scaledNum scaledDen
    min pattern format.infinity

/-! ## Numbers -/

/-- A floating-point number of 64 bits. -/
structure Double where
  bits : UInt64
deriving DecidableEq, Repr

namespace Double

/-- The number with a sign and the pattern of a magnitude. -/
def ofMagnitude (negative : Bool) (magnitude : Nat) : Double :=
  ⟨UInt64.ofNat (magnitude + if negative then 1 <<< 63 else 0)⟩

/-- Whether the sign is set. -/
def isNegative (x : Double) : Bool :=
  1 <<< 63 ≤ x.bits.toNat

/-- The pattern without its sign. -/
def magnitude (x : Double) : Nat :=
  x.bits.toNat % (1 <<< 63)

/-- Whether the pattern stands for no number. -/
def isNaN (x : Double) : Bool :=
  FloatFormat.wide.infinity < x.magnitude

/-- Whether the pattern stands for a number that is not infinite. -/
def isFinite (x : Double) : Bool :=
  x.magnitude < FloatFormat.wide.infinity

/-- The significand and the exponent of a finite magnitude. -/
def parts (x : Double) : Nat × Int :=
  let field : Nat := x.magnitude >>> 52
  let fraction := x.magnitude % (1 <<< 52)
  if field = 0 then (fraction, -1074) else ((1 <<< 52) + fraction, (field : Int) - 1075)

/-- A finite magnitude as a fraction. -/
def fraction (x : Double) : Nat × Nat :=
  let (significand, exponent) := x.parts
  (significand <<< exponent.toNat, 1 <<< (-exponent).toNat)

/-- Equality of numbers: both zeros are equal, and a pattern that stands for no number equals nothing. -/
def equals (x y : Double) : Bool :=
  !x.isNaN && !y.isNaN && (x.bits == y.bits || (x.magnitude == 0 && y.magnitude == 0))

theorem equals_comm (x y : Double) : x.equals y = y.equals x := by
  simp only [equals]
  rw [Bool.and_comm (!x.isNaN), BEq.comm (a := x.bits), Bool.and_comm (x.magnitude == 0)]

/-- The number with the other sign. -/
def neg (x : Double) : Double :=
  ⟨x.bits ^^^ 0x8000000000000000⟩

/-! ## Conversions -/

/-- The number nearest to a signed fraction. -/
def ofFraction (negative : Bool) (num den : Nat) : Double :=
  ofMagnitude negative (FloatFormat.wide.round num den)

/-- The number nearest to an integer. -/
def ofInt (n : Int) : Double :=
  ofFraction (decide (n < 0)) n.natAbs 1

/-- The number nearest to `digits * 10 ^ exponent`. -/
def ofDecimal (digits : Nat) (exponent : Int) : Double :=
  ofFraction false (digits * Nat.pow 10 exponent.toNat) (Nat.pow 10 (-exponent).toNat)

/-- The product of two finite numbers without their signs. -/
def mulMagnitude (x y : Double) : Double :=
  ofFraction false (x.fraction.1 * y.fraction.1) (x.fraction.2 * y.fraction.2)

/-- The quotient of two finite numbers without their signs, the divisor not zero. -/
def divMagnitude (x y : Double) : Double :=
  ofFraction false (x.fraction.1 * y.fraction.2) (x.fraction.2 * y.fraction.1)

/-- The number of a pattern of 32 bits. A pattern that stands for no number keeps its sign and its upper fraction and
becomes a quiet one. -/
def ofNarrow (pattern : Nat) : Double :=
  let negative := pattern.testBit 31
  let magnitude := pattern % (1 <<< 31)
  let field : Nat := magnitude >>> 23
  let fraction := magnitude % (1 <<< 23)
  if field = 255 then
    let payload := if fraction = 0 then 0 else (fraction <<< 29) ||| (1 <<< 51)
    ofMagnitude negative (FloatFormat.wide.infinity + payload)
  else
    let (significand, exponent) := if field = 0 then (fraction, 1) else ((1 <<< 23) + fraction, field)
    ofFraction negative (significand <<< exponent) (1 <<< 150)

/-- The pattern of 32 bits nearest to a number. -/
def toNarrow (x : Double) : Nat :=
  let magnitude :=
    if x.isNaN then FloatFormat.narrow.infinity + (((x.magnitude % (1 <<< 52)) >>> 29) ||| (1 <<< 22))
    else if x.isFinite then FloatFormat.narrow.round x.fraction.1 x.fraction.2
    else FloatFormat.narrow.infinity
  magnitude + if x.isNegative then 1 <<< 31 else 0

end Double

end BitTemplate
