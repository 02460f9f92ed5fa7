import BitTemplate.Bits
import BitTemplate.Double

/-!
Values of fields. A scalar is an integer of 128 bits, a floating-point number, a string of digits, a byte string or a
text; a list is a nested record. The comparison of labels and assertions looks through the kinds: integers compare by
number, also with floating-point numbers, and a text stands for the digits or bytes that it spells.
-/

namespace BitTemplate

/-- A decoded field, a field to encode, or a record of them. -/
inductive Value where
  /-- An unsigned integer. -/
  | uint (n : BitVec 128)
  /-- A signed integer in two's complement. -/
  | sint (n : BitVec 128)
  | float (x : Double)
  /-- Hexadecimal digits; their letter case follows the encoding that produced them. -/
  | hex (digits : String)
  /-- Binary digits, one character per bit. -/
  | bin (digits : String)
  | bytes (content : List UInt8)
  /-- Text in the first 256 code points, one character per byte. -/
  | text (content : String)
  | list (items : List Value)

namespace Value

instance : Inhabited Value := ⟨.list []⟩

/-! ## Views -/

/-- The name of the kind, as messages show it. -/
def kind : Value → String
  | .uint _ => "uint"
  | .sint _ => "sint"
  | .float _ => "float"
  | .hex _ => "hex"
  | .bin _ => "bin"
  | .bytes _ => "bytes"
  | .text _ => "text"
  | .list _ => "list"

/-- Whether the value is a record. -/
def isList : Value → Bool
  | .list _ => true
  | _ => false

/-- The integer that the value denotes. -/
def integer? : Value → Option Int
  | .uint n => some n.toNat
  | .sint n => some n.toInt
  | _ => none

/-- The integer that the value denotes, if 128 bits hold it with a sign. -/
def signed? : Value → Option Int
  | .uint n => if n.toNat < 1 <<< 127 then some n.toNat else none
  | .sint n => some n.toInt
  | _ => none

/-- The integer that the value denotes, if it is not negative. -/
def unsigned? : Value → Option Nat
  | .uint n => some n.toNat
  | .sint n => if 0 ≤ n.toInt then some n.toInt.toNat else none
  | _ => none

/-! ## Comparison -/

/-- Whether two texts agree up to the case of ASCII letters. -/
def sameLetters (a b : String) : Bool :=
  a.toList.map Char.toLower == b.toList.map Char.toLower

/-- Whether the characters of a text are the bytes of a byte string. -/
def spells (text : String) (bytes : List UInt8) : Bool :=
  text.toList.map Char.toNat == bytes.map UInt8.toNat

/-- Whether an integer with a sign in 128 bits equals a floating-point number. -/
def equalsDouble (value : Value) (x : Double) : Bool :=
  match value.signed? with
  | some n => (Double.ofInt n).equals x
  | none => false

/-- The comparison of two integers: by number if 128 bits hold both with a sign, and otherwise as they stand. -/
def sameInteger (a b : Value) : Bool :=
  match a.signed?, b.signed? with
  | some m, some n => m == n
  | _, _ =>
    match a, b with
    | .uint m, .uint n => m == n
    | .sint m, .sint n => m == n
    | _, _ => false

/-- The comparison of two scalars; a record equals no scalar. -/
def sameScalar : Value → Value → Bool
  | a@(.uint _), b@(.uint _) | a@(.uint _), b@(.sint _) | a@(.sint _), b@(.uint _) | a@(.sint _), b@(.sint _) =>
    a.sameInteger b
  | .float x, .float y => x.equals y
  | .float x, b => b.equalsDouble x
  | a, .float y => a.equalsDouble y
  | .hex a, .hex b => sameLetters a b
  | .hex a, .text b => sameLetters a b
  | .text a, .hex b => sameLetters a b
  | .bin a, .bin b => a == b
  | .bin a, .text b => a == b
  | .text a, .bin b => a == b
  | .text a, .text b => a == b
  | .text a, .bytes b => spells a b
  | .bytes a, .text b => spells b a
  | .bytes a, .bytes b => a == b
  | _, _ => false

mutual

/-- Whether two values are the same to a label or an assertion. -/
def same : Value → Value → Bool
  | .list a, .list b => sameItems a b
  | a, b => a.sameScalar b

/-- Whether two lists hold the same values in the same order. -/
def sameItems : List Value → List Value → Bool
  | [], [] => true
  | a :: as, b :: bs => same a b && sameItems as bs
  | _, _ => false

end

end Value

end BitTemplate
