/-!
Bit strings. A field is a list of bits, most significant bit first, and it is read in three ways: as a number, as bytes
and as a text of binary digits.
-/

namespace BitTemplate

/-- A bit string, most significant bit first. -/
abbrev Bits := List Bool

namespace Bits

/-! ## Numbers -/

/-- The number that the bits spell. -/
def toNat (bits : Bits) : Nat :=
  bits.foldl (fun n bit => 2 * n + bit.toNat) 0

/-- The `width` low bits of a number. -/
def ofNat : (width : Nat) → Nat → Bits
  | 0, _ => []
  | width + 1, n => n.testBit width :: ofNat width n

@[simp] theorem length_ofNat (width n : Nat) : (ofNat width n).length = width := by
  induction width with
  | zero => rfl
  | succ width ih => simp [ofNat, ih]

/-! ## Bytes -/

/-- The eight bits of a byte. -/
def ofByte (byte : UInt8) : Bits :=
  ofNat 8 byte.toNat

/-- The bits of a byte string. -/
def ofBytes (bytes : List UInt8) : Bits :=
  bytes.flatMap ofByte

/-- Groups of eight bits as bytes; a shorter last group is filled up with zeros on its right. -/
def toBytes : Bits → List UInt8
  | a :: b :: c :: d :: e :: f :: g :: h :: rest =>
    UInt8.ofNat (toNat [a, b, c, d, e, f, g, h]) :: toBytes rest
  | [] => []
  | short => [UInt8.ofNat (toNat (short ++ List.replicate (8 - short.length) false))]

/-- The number of bits that a position lacks to the next byte boundary. -/
def padding (position : Nat) : Nat :=
  (8 - position % 8) % 8

theorem padding_lt (position : Nat) : padding position < 8 := by
  unfold padding
  omega

theorem add_padding_mod (position : Nat) : (position + padding position) % 8 = 0 := by
  unfold padding
  omega

/-- The bits followed by zeros up to a whole number of bytes. -/
def padToByte (bits : Bits) : Bits :=
  bits ++ List.replicate (padding bits.length) false

/-! ## Text -/

/-- One binary digit per bit. -/
def toDigits (bits : Bits) : String :=
  String.ofList (bits.map fun bit => if bit then '1' else '0')

end Bits

end BitTemplate
