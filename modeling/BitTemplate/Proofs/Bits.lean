import Mathlib.Algebra.Group.Int.Defs
import Mathlib.Algebra.Group.Nat.Defs
import BitTemplate.Field.Codec

/-!
Bit strings and what they spell. A bit string is determined by its length and its number, whole bytes and whole
hexadecimal digits read back, and filling up to a byte boundary changes nothing on a byte boundary.
-/

namespace BitTemplate.Bits

/-! ## Numbers -/

theorem toNat_foldl (bits : Bits) (start : Nat) :
    bits.foldl (fun n bit => 2 * n + bit.toNat) start = start * 2 ^ bits.length + toNat bits := by
  induction bits generalizing start with
  | nil => simp [toNat]
  | cons bit rest ih =>
    rw [toNat, List.foldl_cons, List.foldl_cons, ih, ih (2 * 0 + bit.toNat), List.length_cons, Nat.pow_succ']
    grind

theorem toNat_cons (bit : Bool) (rest : Bits) :
    toNat (bit :: rest) = bit.toNat * 2 ^ rest.length + toNat rest := by
  rw [toNat, List.foldl_cons, toNat_foldl]
  simp

theorem toNat_append (front back : Bits) : toNat (front ++ back) = toNat front * 2 ^ back.length + toNat back := by
  rw [toNat, List.foldl_append, toNat_foldl, ← toNat]

/-- Zeros in front do not change a number. -/
theorem toNat_replicate_append (count : Nat) (bits : Bits) :
    toNat (List.replicate count false ++ bits) = toNat bits := by
  induction count with
  | zero => rfl
  | succ count ih =>
    rw [List.replicate_succ, List.cons_append, toNat_cons, ih]
    simp

/-- A number of `n` bits stays below `2 ^ n`. -/
theorem toNat_lt (bits : Bits) : toNat bits < 2 ^ bits.length := by
  induction bits with
  | nil => simp [toNat]
  | cons bit rest ih =>
    have leading : bit.toNat * 2 ^ rest.length ≤ 1 * 2 ^ rest.length := Nat.mul_le_mul_right _ (Bool.toNat_le bit)
    rw [toNat_cons, List.length_cons, Nat.pow_succ]
    omega

/-- Writing a number in `width` bits keeps it modulo `2 ^ width`. -/
theorem toNat_ofNat (width n : Nat) : toNat (ofNat width n) = n % 2 ^ width := by
  induction width with
  | zero => simp [ofNat, toNat, Nat.mod_one]
  | succ width ih =>
    rw [ofNat, toNat_cons, ih, length_ofNat, Nat.testBit_eq_decide_div_mod_eq, Nat.pow_succ, Nat.mod_mul]
    rcases Nat.mod_two_eq_zero_or_one (n / 2 ^ width) with even | odd
    · simp [even]
    · simp [odd]
      omega

/-- Only the `width` low bits of a number matter. -/
theorem ofNat_congr {width n m : Nat} (h : n % 2 ^ width = m % 2 ^ width) : ofNat width n = ofNat width m := by
  induction width with
  | zero => rfl
  | succ width ih =>
    have shorter : n % 2 ^ width = m % 2 ^ width := by
      rw [← Nat.mod_mod_of_dvd n (Nat.pow_dvd_pow 2 (Nat.le_succ width)), h,
        Nat.mod_mod_of_dvd m (Nat.pow_dvd_pow 2 (Nat.le_succ width))]
    have top : n.testBit width = m.testBit width := by
      have := congrArg (·.testBit width) h
      simpa [Nat.testBit_mod_two_pow] using this
    rw [ofNat, ofNat, ih shorter, top]

/-- The bits of the number that some bits spell are those bits. -/
theorem ofNat_toNat (bits : Bits) : ofNat bits.length (toNat bits) = bits := by
  induction bits with
  | nil => rfl
  | cons bit rest ih =>
    -- the head is the top bit, and the number of the tail lies below it
    have small := toNat_lt rest
    have tail : ofNat rest.length (toNat (bit :: rest)) = ofNat rest.length (toNat rest) := by
      apply ofNat_congr
      rw [toNat_cons, Nat.mul_add_mod_self_right]
    have head : (toNat (bit :: rest)).testBit rest.length = bit := by
      rw [toNat_cons, Nat.testBit_eq_decide_div_mod_eq, Nat.add_comm, Nat.add_mul_div_right _ _ (Nat.two_pow_pos _),
        Nat.div_eq_of_lt small]
      cases bit <;> rfl
    rw [List.length_cons, ofNat, head, tail, ih]

theorem toNat_ofNat_of_lt {width n : Nat} (h : n < 2 ^ width) : toNat (ofNat width n) = n := by
  rw [toNat_ofNat, Nat.mod_eq_of_lt h]

/-! ## Bytes -/

@[simp] theorem length_ofByte (byte : UInt8) : (ofByte byte).length = 8 := by
  simp [ofByte]

@[simp] theorem length_ofBytes (bytes : List UInt8) : (ofBytes bytes).length = 8 * bytes.length := by
  induction bytes with
  | nil => rfl
  | cons byte rest ih =>
    rw [ofBytes, List.flatMap_cons, List.length_append, length_ofByte, ← ofBytes, ih, List.length_cons]
    omega

theorem ofBytes_cons (byte : UInt8) (rest : List UInt8) : ofBytes (byte :: rest) = ofByte byte ++ ofBytes rest := by
  rw [ofBytes, List.flatMap_cons, ← ofBytes]

/-- Eight bits in front are the first byte. -/
theorem toBytes_append {front : Bits} (h : front.length = 8) (back : Bits) :
    toBytes (front ++ back) = UInt8.ofNat (toNat front) :: toBytes back := by
  match front, h with
  | [a, b, c, d, e, f, g, h], _ => rfl

theorem toBytes_ofBytes (bytes : List UInt8) : toBytes (ofBytes bytes) = bytes := by
  induction bytes with
  | nil => rfl
  | cons byte rest ih =>
    rw [ofBytes_cons, toBytes_append (length_ofByte byte), ih, ofByte, toNat_ofNat_of_lt byte.toNat_lt,
      UInt8.ofNat_toNat]

/-- Whole bytes read back as the bits they came from. -/
theorem ofBytes_toBytes {bits : Bits} (h : bits.length % 8 = 0) : ofBytes (toBytes bits) = bits := by
  induction n : bits.length / 8 generalizing bits with
  | zero =>
    have : bits = [] := List.eq_nil_of_length_eq_zero (by omega)
    rw [this]
    rfl
  | succ n ih =>
    have eight : (bits.take 8).length = 8 := by rw [List.length_take]; omega
    have rest : ofBytes (toBytes (bits.drop 8)) = bits.drop 8 :=
      ih (by rw [List.length_drop]; omega) (by rw [List.length_drop]; omega)
    have small : toNat (bits.take 8) < 256 := by simpa [eight] using toNat_lt (bits.take 8)
    have first : ofByte (UInt8.ofNat (toNat (bits.take 8))) = bits.take 8 := by
      have read := ofNat_toNat (bits.take 8)
      rwa [eight, ← UInt8.toNat_ofNat_of_lt' small] at read
    rw [← List.take_append_drop 8 bits, toBytes_append eight, ofBytes_cons, first, rest]

theorem length_toBytes {bits : Bits} (h : bits.length % 8 = 0) : 8 * (toBytes bits).length = bits.length := by
  rw [← length_ofBytes, ofBytes_toBytes h]

/-! ## Byte boundaries -/

theorem padding_eq_zero {position : Nat} : padding position = 0 ↔ position % 8 = 0 := by
  unfold padding
  omega

@[simp] theorem length_padToByte (bits : Bits) : bits.padToByte.length = bits.length + padding bits.length := by
  simp [padToByte]

theorem padToByte_eq_self {bits : Bits} (h : bits.length % 8 = 0) : bits.padToByte = bits := by
  simp [padToByte, padding_eq_zero.mpr h]

theorem take_padToByte {count : Nat} {bits : Bits} (h : count ≤ bits.length) :
    bits.padToByte.take count = bits.take count := by
  rw [padToByte, List.take_append_of_le_length h]

end BitTemplate.Bits
