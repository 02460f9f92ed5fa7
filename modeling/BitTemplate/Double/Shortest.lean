import BitTemplate.Double

/-!
The shortest decimal that reads back as a given number. The decimals that read back fill an interval around the number;
on the grids of one, two and more digits its two neighbours are tried in turn, and the first grid with a neighbour in
the interval gives the digits.
-/

namespace BitTemplate.Double

/-! ## The interval -/

/-- What is chosen between two shortest decimals that are equally close. -/
inductive Tie where
  | up
  | toEven
deriving DecidableEq

/-- A decimal `digits * 10 ^ exponent`. -/
structure Decimal where
  digits : Nat
  exponent : Int
deriving DecidableEq, Repr

/-- A number with the ends of the interval that rounds to it, in units of one common denominator. -/
structure Interval where
  low : Nat
  value : Nat
  high : Nat
  den : Nat
  closed : Bool

/-- The interval of a finite positive number. The gap below a power of two is half as wide as the gap above it. -/
def interval (x : Double) : Interval :=
  let (significand, exponent) := x.parts
  let below := if significand = 1 <<< 52 ∧ -1074 < exponent then 1 else 2
  let scale := 1 <<< (exponent - 2).toNat
  { low := (4 * significand - below) * scale
    value := 4 * significand * scale
    high := (4 * significand + 2) * scale
    den := 1 <<< (2 - exponent).toNat
    closed := significand % 2 == 0 }

/-- Whether `digits * 10 ^ exponent` lies in the interval. -/
def Interval.contains (i : Interval) (d : Decimal) : Bool :=
  let point := d.digits * Nat.pow 10 d.exponent.toNat * i.den
  let scale := Nat.pow 10 (-d.exponent).toNat
  if i.closed then i.low * scale ≤ point && point ≤ i.high * scale
  else i.low * scale < point && point < i.high * scale

/-! ## The search -/

/-- The exponent of the leading decimal digit of a positive fraction. -/
def leadingDecimal (num den : Nat) : Int :=
  if den ≤ num then ((Nat.toDigits 10 (num / den)).length : Int) - 1
  else
    let count := (Nat.toDigits 10 (den / num)).length
    if den ≤ num * Nat.pow 10 (count - 1) then 1 - (count : Int) else -(count : Int)

/-- The neighbours of the value on the grid of `10 ^ exponent`, the nearer one first if both are in the interval. -/
def onGrid? (i : Interval) (tie : Tie) (exponent : Int) : Option Decimal :=
  let num := i.value * Nat.pow 10 (-exponent).toNat
  let den := i.den * Nat.pow 10 exponent.toNat
  let floor : Decimal := ⟨num / den, exponent⟩
  let ceiling : Decimal := ⟨num / den + 1, exponent⟩
  match i.contains floor && 0 < floor.digits, i.contains ceiling with
  | true, true =>
    let rest := 2 * (num % den)
    if rest < den then some floor
    else if den < rest then some ceiling
    else match tie with
      | .up => some ceiling
      | .toEven => if floor.digits % 2 = 0 then some floor else some ceiling
  | true, false => some floor
  | false, true => some ceiling
  | false, false => none

/-- The decimal without its trailing zeros; the fuel bounds their number. -/
def Decimal.strip : (fuel : Nat) → Decimal → Decimal
  | 0, d => d
  | fuel + 1, d =>
    if d.digits % 10 = 0 ∧ d.digits ≠ 0 then strip fuel ⟨d.digits / 10, d.exponent + 1⟩ else d

/-- The shortest decimal of a finite number without its sign; seventeen digits are always enough. -/
def shortest (tie : Tie) (x : Double) : Decimal :=
  if x.magnitude = 0 then ⟨0, 0⟩
  else
    let i := x.interval
    let leading := leadingDecimal i.value i.den
    match (List.range 17).findSome? fun (count : Nat) => onGrid? i tie (leading - count) with
    | some d => d.strip 17
    | none => ⟨0, 0⟩

end BitTemplate.Double
