import BitTemplate.Json

/-!
JSON numbers. The digits are gathered in a significand of 64 bits; digits past it only move the exponent. A number with
a point or an exponent part, and an integer that 64 bits do not hold, is the significand scaled once by a power of ten,
so the result may differ from the nearest number in its last place.
-/

namespace BitTemplate.Json

/-! ## Input -/

/-- The rest of a text and the number of bytes before it. -/
structure Input where
  rest : List Char
  offset : Nat

namespace Input

/-- The input after its first `count` characters, each of one byte. -/
def advance (input : Input) (count : Nat) : Input :=
  ⟨input.rest.drop count, input.offset + count⟩

/-- Fails at the current offset. -/
def fail {α : Type} (input : Input) (cause : Cause) : Except Error α :=
  .error ⟨cause, input.offset⟩

/-- Fails one byte further on, at the byte that is looked at. -/
def failAhead {α : Type} (input : Input) (cause : Cause) : Except Error α :=
  .error ⟨cause, if input.rest.isEmpty then input.offset else input.offset + 1⟩

end Input

/-! ## Digits -/

/-- The value of a decimal digit. -/
def digit? (c : Char) : Option Nat :=
  if '0' ≤ c ∧ c ≤ '9' then some (c.toNat - '0'.toNat) else none

/-- Whether the text starts with a digit. -/
def startsWithDigit : List Char → Bool
  | c :: _ => (digit? c).isSome
  | [] => false

/-- The digits that extend a number without passing its bound: the number, their count and the rest. -/
def takeDigits (bound : Nat) : (n count : Nat) → List Char → Nat × Nat × List Char
  | n, count, [] => (n, count, [])
  | n, count, c :: rest =>
    match digit? c with
    | none => (n, count, c :: rest)
    | some digit =>
      if 10 * n + digit < bound then takeDigits bound (10 * n + digit) (count + 1) rest
      else (n, count, c :: rest)

/-- The number of leading digits. -/
def countDigits (text : List Char) : Nat :=
  (text.takeWhile fun c => (digit? c).isSome).length

/-! ## Scaling -/

/-- A power of ten as a floating-point number. -/
def powerOfTen (exponent : Nat) : Double :=
  Double.ofDecimal 1 exponent

/-- The quotient of a number and a power of ten, in steps of at most 308 digits. -/
def scaleDown (x : Double) (exponent : Nat) : Double :=
  if exponent ≤ 308 then x.divMagnitude (powerOfTen exponent)
  else if x.magnitude = 0 then x
  else scaleDown (x.divMagnitude (powerOfTen 308)) (exponent - 308)
  termination_by exponent

/-- A significand times a power of ten; the result is missing if it is past the largest number. -/
def scaled? (significand : Nat) (exponent : Int) : Option Double :=
  let x := Double.ofInt significand
  if exponent < 0 then some (scaleDown x exponent.natAbs)
  else if exponent ≤ 308 then
    let product := x.mulMagnitude (powerOfTen exponent.toNat)
    if product.isFinite then some product else none
  else if x.magnitude = 0 then some x
  else none

/-- The number with its sign. -/
def signedReal (positive : Bool) (x : Double) : Json :=
  .real (if positive then x else x.neg)

/-- The number of a significand and an exponent that end here. -/
def finishReal (positive : Bool) (significand : Nat) (exponent : Int) (input : Input) : Except Error (Json × Input) :=
  match scaled? significand exponent with
  | some x => .ok (signedReal positive x, input)
  | none => input.fail .numberOutOfRange

/-! ## Parts -/

/-- The exponent part after its letter, with the exponent that the digits so far have. -/
def readExponent (positive : Bool) (significand : Nat) (start : Int) (input : Input) : Except Error (Json × Input) :=
  let (raises, input) :=
    match input.rest with
    | '+' :: _ => (true, input.advance 1)
    | '-' :: _ => (false, input.advance 1)
    | _ => (true, input)
  match input.rest with
  | [] => input.fail .endInValue
  | c :: _ =>
    if (digit? c).isNone then (input.advance 1).fail .invalidNumber
    else
      let (exponent, count, rest) := takeDigits (1 <<< 31) 0 0 input.rest
      let input : Input := ⟨rest, input.offset + count⟩
      if startsWithDigit rest then
        if significand ≠ 0 ∧ raises then (input.advance 1).fail .numberOutOfRange
        else .ok (signedReal positive ⟨0⟩, input.advance (countDigits rest))
      else finishReal positive significand (if raises then start + exponent else start - exponent) input

/-- The exponent part, if there is one. -/
def readTail (positive : Bool) (significand : Nat) (exponent : Int) (input : Input) : Except Error (Json × Input) :=
  match input.rest with
  | 'e' :: _ => readExponent positive significand exponent (input.advance 1)
  | 'E' :: _ => readExponent positive significand exponent (input.advance 1)
  | _ => finishReal positive significand exponent input

/-- The digits after a point. -/
def readFraction (positive : Bool) (significand : Nat) (exponent : Int) (input : Input) :
    Except Error (Json × Input) :=
  let (significand, count, rest) := takeDigits (1 <<< 64) significand 0 input.rest
  let after : Input := ⟨rest, input.offset + count⟩
  if startsWithDigit rest then
    readTail positive significand (exponent - count) (after.advance (countDigits rest))
  else if count = 0 then
    if rest.isEmpty then after.failAhead .endInValue else after.failAhead .invalidNumber
  else readTail positive significand (exponent - count) after

/-- An integer that ends here. A negative zero and a magnitude past the negative range become floating-point
numbers. -/
def integer (positive : Bool) (n : Nat) : Json :=
  if positive then .natural n
  else if 0 < n ∧ n ≤ 1 <<< 63 then .negative (-(n : Int))
  else .real (Double.ofInt n).neg

/-- What follows the digits of the whole part. -/
def readAfterWhole (positive : Bool) (significand : Nat) (skipped : Nat) (input : Input) :
    Except Error (Json × Input) :=
  match input.rest with
  | '.' :: _ => readFraction positive significand skipped (input.advance 1)
  | 'e' :: _ => readExponent positive significand skipped (input.advance 1)
  | 'E' :: _ => readExponent positive significand skipped (input.advance 1)
  | _ =>
    if skipped = 0 then .ok (integer positive significand, input)
    else finishReal positive significand skipped input

/-- A number after its sign. -/
def readNumber (positive : Bool) (input : Input) : Except Error (Json × Input) :=
  match input.rest with
  | [] => input.fail .endInValue
  | '0' :: rest =>
    if startsWithDigit rest then (input.advance 1).failAhead .invalidNumber
    else readAfterWhole positive 0 0 (input.advance 1)
  | c :: _ =>
    if (digit? c).isNone then (input.advance 1).fail .invalidNumber
    else
      let (significand, count, rest) := takeDigits (1 <<< 64) 0 0 input.rest
      let skipped := countDigits rest
      readAfterWhole positive significand skipped ⟨rest.drop skipped, input.offset + count + skipped⟩

end BitTemplate.Json
