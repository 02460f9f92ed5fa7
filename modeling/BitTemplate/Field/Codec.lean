import BitTemplate.Field.Error

/-!
The codec of fields. Reading turns the bits of a field into a value; writing turns a value into the bits of a field of a
given width, or of the width that the value takes by itself. Writing is lenient where nothing is ambiguous: a text
stands for digits or bytes, an integer of either sign goes wherever it is in range, and a list of small integers stands
for bytes.
-/

namespace BitTemplate.Field

/-- The width of the widest integer field. -/
def maxIntegerBits : Nat := 128

/-! ## Reading -/

/-- The numbers that whole groups of four bits spell. -/
def nibbles : Bits → List Nat
  | a :: b :: c :: d :: rest => Bits.toNat [a, b, c, d] :: nibbles rest
  | _ => []

/-- The digits of a field in hexadecimal, the first one filled up with zeros on its left. -/
def hexDigits (digit : Nat → Char) (bits : Bits) : String :=
  let filled := List.replicate ((4 - bits.length % 4) % 4) false ++ bits
  String.ofList ((nibbles filled).map digit)

/-- The number that the bits of an integer or floating-point field spell. -/
def readInteger (encoding : Encoding) (bits : Bits) : Except FieldError Nat :=
  if maxIntegerBits < bits.length then .error (.tooWide encoding bits.length) else .ok bits.toNat

/-- The bytes of a field. -/
def readBytes (encoding : Encoding) (bits : Bits) : Except FieldError (List UInt8) :=
  if bits.length % 8 ≠ 0 then .error (.notByteMultiple encoding bits.length) else .ok bits.toBytes

/-- The value of a field. -/
def decode (encoding : Encoding) (bits : Bits) : Except FieldError Value :=
  match encoding with
  | .uint => do return .uint (BitVec.ofNat 128 (← readInteger encoding bits))
  | .sint =>
    if bits.length = 0 then .error (.emptyField encoding)
    else do return .sint ((BitVec.ofNat bits.length (← readInteger encoding bits)).signExtend 128)
  | .lowerHex => .ok (.hex (hexDigits Hex.lower bits))
  | .upperHex => .ok (.hex (hexDigits Hex.upper bits))
  | .bin => .ok (.bin bits.toDigits)
  | .bytes => do return .bytes (← readBytes encoding bits)
  | .char => do
    let content ← readBytes encoding bits
    return .text (String.ofList (content.map fun byte => Char.ofNat byte.toNat))
  | .float => do
    let pattern ← readInteger encoding bits
    if bits.length = 32 then return .float (Double.ofNarrow pattern)
    else if bits.length = 64 then return .float ⟨UInt64.ofNat pattern⟩
    else .error (.floatWidth bits.length)

/-! ## Digits and bytes of a value -/

/-- The digits of a value: its own kind of digits, or any text. -/
def digitsOf (encoding : Encoding) (value : Value) : Except FieldError String :=
  match value, encoding with
  | .hex digits, .lowerHex => .ok digits
  | .hex digits, .upperHex => .ok digits
  | .bin digits, .bin => .ok digits
  | .text content, _ => .ok content
  | other, _ => .error (.incompatible encoding other)

/-- Four bits for each hexadecimal digit. -/
def bitsOfHex? (digits : List Char) : Option Bits := do
  let values ← digits.mapM Hex.digit?
  return values.flatMap (Bits.ofNat 4)

/-- The bit of a binary digit. -/
def bit? (c : Char) : Option Bool :=
  if c = '0' then some false else if c = '1' then some true else none

/-- One bit for each binary digit. -/
def bitsOfBin? (digits : List Char) : Option Bits :=
  digits.mapM bit?

/-- The bits of digits in a field: leading zeros are dropped or added, and no other bit is lost. -/
def fit (encoding : Encoding) (value : Value) (bits : Bits) : Option Nat → Except FieldError Bits
  | none => .ok bits
  | some width =>
    if width ≤ bits.length then
      let excess := bits.length - width
      if (bits.take excess).any id then .error (.outOfRange value encoding width) else .ok (bits.drop excess)
    else .ok (List.replicate (width - bits.length) false ++ bits)

/-- The byte of a character in the first 256 code points. -/
def latin? (c : Char) : Except FieldError UInt8 :=
  if c.toNat < 256 then .ok (UInt8.ofNat c.toNat) else .error (.notLatin c)

/-- The byte of a small integer. -/
def smallByte (encoding : Encoding) (value : Value) : Except FieldError UInt8 :=
  match value.unsigned? with
  | some n => if n < 256 then .ok (UInt8.ofNat n) else .error (.outOfRange value encoding 8)
  | none => .error (.outOfRange value encoding 8)

/-- The bytes that hexadecimal text stands for. -/
def bytesOfDigits (encoding : Encoding) (digits : String) : Except FieldError (List UInt8) :=
  match Hex.toBytes? digits with
  | some content => .ok content
  | none => .error (.invalidDigits encoding digits)

/-- The bytes of a value. Text is taken character by character in a text field and as hexadecimal in a byte field. -/
def bytesOf (encoding : Encoding) (value : Value) : Except FieldError (List UInt8) :=
  match value with
  | .bytes content => .ok content
  | .text content =>
    if encoding = .char then content.toList.mapM latin? else bytesOfDigits encoding content
  | .hex digits => bytesOfDigits encoding digits
  | .list items => items.mapM (smallByte encoding)
  | other => .error (.incompatible encoding other)

/-! ## Writing -/

/-- The width that an unsigned integer takes by itself; zero takes one bit. -/
def unsignedWidth (n : Nat) : Nat :=
  if n = 0 then 1 else n.log2 + 1

/-- The width that a signed integer takes by itself, its sign included. -/
def signedWidth (n : Int) : Nat :=
  let magnitude := if n < 0 then (-n - 1).toNat else n.toNat
  if magnitude = 0 then 1 else magnitude.log2 + 2

/-- The error of a value that is no integer of the wanted sign. -/
def notInteger (encoding : Encoding) (value : Value) (width : Option Nat) : FieldError :=
  match value with
  | .uint _ => .outOfRange value encoding (width.getD 0)
  | .sint _ => .outOfRange value encoding (width.getD 0)
  | other => .incompatible encoding other

/-- The bits of an unsigned integer field. -/
def encodeUnsigned (value : Value) (width : Option Nat) : Except FieldError Bits :=
  match value.unsigned? with
  | none => .error (notInteger .uint value width)
  | some n =>
    let width := width.getD (unsignedWidth n)
    if maxIntegerBits < width then .error (.tooWide .uint width)
    else if 1 <<< width ≤ n then .error (.outOfRange value .uint width)
    else .ok (Bits.ofNat width n)

/-- The bits of a signed integer field. -/
def encodeSigned (value : Value) (width : Option Nat) : Except FieldError Bits :=
  match value.signed? with
  | none => .error (notInteger .sint value width)
  | some n =>
    let width := width.getD (signedWidth n)
    if maxIntegerBits < width then .error (.tooWide .sint width)
    else if width = 0 then .error (.emptyField .sint)
    else if n < -(1 <<< (width - 1) : Nat) ∨ (1 <<< (width - 1) : Nat) ≤ n then .error (.outOfRange value .sint width)
    else .ok (Bits.ofNat width (n % (1 <<< width : Nat)).toNat)

/-- The bits of a field of digits. -/
def encodeDigits (encoding : Encoding) (bits? : List Char → Option Bits) (value : Value) (width : Option Nat) :
    Except FieldError Bits := do
  let digits ← digitsOf encoding value
  match bits? digits.toList with
  | none => .error (.invalidDigits encoding digits)
  | some bits => fit encoding value bits width

/-- The bits of a field of bytes. -/
def encodeBytes (encoding : Encoding) (value : Value) (width : Option Nat) : Except FieldError Bits := do
  let content ← bytesOf encoding value
  let width := width.getD (8 * content.length)
  if width % 8 ≠ 0 then .error (.notByteMultiple encoding width)
  else if width ≠ 8 * content.length then .error (.outOfRange value encoding width)
  else return Bits.ofBytes content

/-- The floating-point number of a value. -/
def floatOf (value : Value) : Except FieldError Double :=
  match value with
  | .float x => .ok x
  | .uint n => .ok (Double.ofInt n.toNat)
  | .sint n => .ok (Double.ofInt n.toInt)
  | other => .error (.incompatible .float other)

/-- The bits of a floating-point field. -/
def encodeFloat (value : Value) (width : Option Nat) : Except FieldError Bits := do
  let x ← floatOf value
  let width := width.getD 64
  if width = 32 then return Bits.ofNat 32 x.toNarrow
  else if width = 64 then return Bits.ofNat 64 x.bits.toNat
  else .error (.floatWidth width)

/-- The bits of a value in a field of the given width, or of the width that the value takes by itself. -/
def encode (encoding : Encoding) (value : Value) (width : Option Nat) : Except FieldError Bits :=
  match encoding with
  | .uint => encodeUnsigned value width
  | .sint => encodeSigned value width
  | .lowerHex => encodeDigits .lowerHex bitsOfHex? value width
  | .upperHex => encodeDigits .upperHex bitsOfHex? value width
  | .bin => encodeDigits .bin bitsOfBin? value width
  | .bytes => encodeBytes .bytes value width
  | .char => encodeBytes .char value width
  | .float => encodeFloat value width

/-- The width that a value takes by itself. -/
def naturalWidth (encoding : Encoding) (value : Value) : Except FieldError Nat := do
  return (← encode encoding value none).length

end BitTemplate.Field
