import BitTemplate.Field.Encoding
import BitTemplate.Text.Quoted
import BitTemplate.Value.Printer

/-!
Why a field cannot be read or written.
-/

namespace BitTemplate

/-- Why bits are no field of an encoding, or a value is none. -/
inductive FieldError where
  /-- An integer or a floating-point number of more than 128 bits. -/
  | tooWide (encoding : Encoding) (width : Nat)
  | notByteMultiple (encoding : Encoding) (width : Nat)
  | floatWidth (width : Nat)
  | emptyField (encoding : Encoding)
  | outOfRange (value : Value) (encoding : Encoding) (width : Nat)
  | incompatible (encoding : Encoding) (value : Value)
  | invalidDigits (encoding : Encoding) (digits : String)
  | notLatin (c : Char)

namespace FieldError

/-- A value as a range error shows it: a byte string without quotes, all else in the printed form. -/
def shownValue : Value → String
  | .bytes content => Hex.ofBytes content
  | value => value.compact

/-- The wording of an error. -/
def message : FieldError → String
  | .tooWide encoding width => encoding.name ++ " field of " ++ toString width ++ " bits exceeds the 128-bit limit"
  | .notByteMultiple encoding width =>
    encoding.name ++ " field width " ++ toString width ++ " is not a multiple of 8"
  | .floatWidth width => "float field must be 32 or 64 bits, got " ++ toString width
  | .emptyField encoding => encoding.name ++ " field cannot be empty"
  | .outOfRange value encoding width =>
    "value " ++ shownValue value ++ " does not fit in " ++ toString width ++ " bits as " ++ encoding.name
  | .incompatible encoding value => encoding.name ++ " field cannot encode a " ++ value.kind ++ " value"
  | .invalidDigits encoding digits => "invalid " ++ encoding.name ++ " digits " ++ Text.quoted digits
  | .notLatin c => "character " ++ Text.quotedChar c ++ " is outside Latin-1"

end FieldError

end BitTemplate
