import BitTemplate.Double.Shortest

/-!
Texts of floating-point numbers. A style says which exponents are written without an exponent part, when a whole
number keeps a point and a zero, how the exponent part is signed and what stands for the patterns that are no finite
number.
-/

namespace BitTemplate.Double

/-- How a floating-point number is written. The exponent that the tests receive is the one of the leading digit. -/
structure Style where
  tie : Tie
  isPositional : Int → Bool
  keepsPoint : Int → Bool
  plus : String
  notFinite : Double → String

/-- The digits of a number in base ten. -/
def decimalDigits (n : Nat) : List Char :=
  Nat.toDigits 10 n

/-- A decimal written out without an exponent part. -/
def Decimal.positional (d : Decimal) (keepsPoint : Bool) : String :=
  let digits := decimalDigits d.digits
  let whole := (digits.length : Int) + d.exponent
  if 0 ≤ d.exponent then
    String.ofList (digits ++ List.replicate d.exponent.toNat '0') ++ if keepsPoint then ".0" else ""
  else if 0 < whole then
    String.ofList (digits.take whole.toNat) ++ "." ++ String.ofList (digits.drop whole.toNat)
  else
    "0." ++ String.ofList (List.replicate (-whole).toNat '0' ++ digits)

/-- The exponent of the leading digit of a decimal. -/
def Decimal.leading (d : Decimal) : Int :=
  (decimalDigits d.digits).length + d.exponent - 1

/-- A decimal with one digit before the point and an exponent part. -/
def Decimal.scientific (d : Decimal) (plus : String) : String :=
  let digits := decimalDigits d.digits
  let fraction := digits.drop 1
  String.ofList (digits.take 1) ++ (if fraction.isEmpty then "" else "." ++ String.ofList fraction)
    ++ "e" ++ (if d.leading < 0 then "-" else plus) ++ toString d.leading.natAbs

/-- The text of a number. -/
def Style.write (style : Style) (x : Double) : String :=
  if x.isFinite then
    let d := x.shortest style.tie
    let sign := if x.isNegative then "-" else ""
    let body :=
      if style.isPositional d.leading then d.positional (style.keepsPoint d.leading) else d.scientific style.plus
    sign ++ body
  else style.notFinite x

end BitTemplate.Double
