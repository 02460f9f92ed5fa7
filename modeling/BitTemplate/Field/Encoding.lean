/-!
Encodings of fields: the ways in which a bit string is read as a value.
-/

namespace BitTemplate

/-- How the bits of a field are interpreted. -/
inductive Encoding where
  | uint
  /-- Two's complement. -/
  | sint
  | lowerHex
  | upperHex
  /-- Binary digits. -/
  | bin
  | bytes
  /-- Text, one byte per character. -/
  | char
  /-- Floating-point numbers of 32 or 64 bits. -/
  | float
deriving DecidableEq, Repr

namespace Encoding

/-- The letter of an encoding in a pattern. -/
def letter : Encoding → Char
  | .uint => 'u'
  | .sint => 's'
  | .lowerHex => 'x'
  | .upperHex => 'X'
  | .bin => 'b'
  | .bytes => 'B'
  | .char => 'C'
  | .float => 'f'

/-- Every encoding. -/
def all : List Encoding :=
  [.uint, .sint, .lowerHex, .upperHex, .bin, .bytes, .char, .float]

/-- The encoding of a letter. -/
def ofLetter? (c : Char) : Option Encoding :=
  all.find? (·.letter == c)

theorem ofLetter?_letter (e : Encoding) : ofLetter? e.letter = some e := by
  cases e <;> rfl

/-- The name of an encoding, as messages show it. -/
def name : Encoding → String
  | .uint => "uint"
  | .sint => "sint"
  | .lowerHex => "hex"
  | .upperHex => "HEX"
  | .bin => "bin"
  | .bytes => "bytes"
  | .char => "char"
  | .float => "float"

/-- Whether a field occupies whole bytes. -/
def needsBytes : Encoding → Bool
  | .bytes => true
  | .char => true
  | _ => false

end Encoding

end BitTemplate
