import BitTemplate.Proofs.Comparison
import BitTemplate.Proofs.Field

/-!
Fields up to the end of the data. Such a field has no width of its own: the encoder takes the width of the value and
widens it up to the next byte boundary. So a value that was read from a field is written back in the same bits exactly
if its own width reaches the last byte of the field. For digits and bytes the own width is the width they were read
from, in whole digits; for numbers it is the least that holds them.
-/

namespace BitTemplate

namespace Field

/-! ## Integers -/

theorem lt_unsignedWidth (n : Nat) : n < 2 ^ unsignedWidth n := by
  simp only [unsignedWidth]
  split
  · omega
  · exact Nat.lt_log2_self

/-- No narrower field than that of its own width holds a number. -/
theorem unsignedWidth_le {n width : Nat} (some_bits : 0 < width) (h : n < 2 ^ width) : unsignedWidth n ≤ width := by
  simp only [unsignedWidth]
  split
  · omega
  · rename_i positive
    have := (Nat.log2_lt positive).mpr h
    omega

theorem unsignedWidth_pos (n : Nat) : 0 < unsignedWidth n := by
  simp only [unsignedWidth]
  split <;> omega

/-- The number of which a signed field holds the bits beside the sign. -/
def magnitude (n : Int) : Nat :=
  if n < 0 then (-n - 1).toNat else n.toNat

theorem signedWidth_eq (n : Int) : signedWidth n = if magnitude n = 0 then 1 else (magnitude n).log2 + 2 := rfl

theorem magnitude_lt_iff {n : Int} {k : Nat} : magnitude n < 2 ^ k ↔ -2 ^ k ≤ n ∧ n < 2 ^ k := by
  have power : ((2 ^ k : Nat) : Int) = 2 ^ k := by simp
  have positive : 0 < 2 ^ k := Nat.two_pow_pos k
  rw [← power, magnitude]
  generalize 2 ^ k = m at *
  split <;> omega

theorem signedWidth_pos (n : Int) : 0 < signedWidth n := by
  rw [signedWidth_eq]
  split <;> omega

theorem signedWidth_bounds (n : Int) : -2 ^ (signedWidth n - 1) ≤ n ∧ n < 2 ^ (signedWidth n - 1) := by
  rw [← magnitude_lt_iff, signedWidth_eq]
  split
  · rename_i zero
    rw [zero]
    exact Nat.two_pow_pos _
  · exact Nat.lt_log2_self

theorem signedWidth_le {n : Int} {width : Nat} (some_bits : 0 < width) (low : -2 ^ (width - 1) ≤ n)
    (high : n < 2 ^ (width - 1)) : signedWidth n ≤ width := by
  have small := magnitude_lt_iff.mpr ⟨low, high⟩
  rw [signedWidth_eq]
  split
  · exact some_bits
  · rename_i positive
    have := (Nat.log2_lt positive).mpr small
    omega

/-- Two's complement reads back a number in its range. -/
theorem toInt_ofNat_emod {n : Int} {width : Nat} (some_bits : width ≠ 0) (low : -2 ^ (width - 1) ≤ n)
    (high : n < 2 ^ (width - 1)) :
    (BitVec.ofNat width (Bits.ofNat width (n % 2 ^ width).toNat).toNat).toInt = n := by
  have same : BitVec.ofNat width (Bits.ofNat width (n % 2 ^ width).toNat).toNat = BitVec.ofInt width n := by
    have power : ((2 ^ width : Nat) : Int) = 2 ^ width := by simp
    have positive : 0 < 2 ^ width := Nat.two_pow_pos width
    apply BitVec.eq_of_toNat_eq
    rw [BitVec.toNat_ofNat, BitVec.toNat_ofInt, Bits.toNat_ofNat, ← power]
    generalize 2 ^ width = m at *
    have low := Int.emod_nonneg n (show (m : Int) ≠ 0 by omega)
    have high := Int.emod_lt_of_pos n (show (0 : Int) < m by omega)
    rw [Nat.mod_mod, Nat.mod_eq_of_lt (by omega)]
  rw [same]
  exact BitVec.toInt_ofInt_eq_self (Nat.pos_of_ne_zero some_bits) low high

/-- A field that is read as a number was written for that number. -/
theorem unsigned?_of_decode {v w : Value} {width : Option Nat} {bits : Bits} (encoded : encode .uint v width = .ok bits)
    (decoded : decode .uint bits = .ok w) : w.unsigned? = v.unsigned? := by
  obtain ⟨n, number, narrow, small, rfl⟩ := encodeUnsigned_ok.mp encoded
  obtain ⟨narrow, rfl⟩ := decode_uint_ok.mp decoded
  rw [unsigned?_uint narrow, Bits.toNat_ofNat_of_lt small, number]

theorem signed?_of_decode {v w : Value} {width : Option Nat} {bits : Bits} (encoded : encode .sint v width = .ok bits)
    (decoded : decode .sint bits = .ok w) : w.signed? = v.signed? := by
  obtain ⟨n, number, narrow, some_bits, low, high, rfl⟩ := encodeSigned_ok.mp encoded
  obtain ⟨_, _, rfl⟩ := decode_sint_ok.mp decoded
  generalize width.getD (signedWidth n) = k at *
  rw [signed?_sint (by rwa [Bits.length_ofNat]), Bits.length_ofNat, toInt_ofNat_emod some_bits low high, number]

theorem uint_of_decode {bits : Bits} {w : Value} (decoded : decode .uint bits = .ok w) : ∃ m, w = .uint m :=
  ⟨_, (decode_uint_ok.mp decoded).2⟩

theorem sint_of_decode {bits : Bits} {w : Value} (decoded : decode .sint bits = .ok w) : ∃ m, w = .sint m :=
  ⟨_, (decode_sint_ok.mp decoded).2.2⟩

/-- An integer is read as the same integer from every field that it was written in. -/
theorem integer_of_encode {encoding : Encoding} {v : Value} {width : Option Nat} {bits : Bits}
    (integer : encoding = .uint ∨ encoding = .sint) (encoded : encode encoding v width = .ok bits) :
    ∃ back n, decode encoding bits = .ok back ∧ v.integer? = some n ∧ back.integer? = some n := by
  obtain rfl | rfl := integer
  · obtain ⟨n, number, _⟩ := encodeUnsigned_ok.mp encoded
    obtain ⟨back, read⟩ := exists_decode (by decide) encoded
    have same := unsigned?_of_decode encoded read
    exact ⟨back, n, read, Value.unsigned?_eq_some.mp number, Value.unsigned?_eq_some.mp (same.trans number)⟩
  · obtain ⟨n, number, _⟩ := encodeSigned_ok.mp encoded
    obtain ⟨back, read⟩ := exists_decode (by decide) encoded
    have same := signed?_of_decode encoded read
    exact ⟨back, n, read, (Value.signed?_eq_some.mp number).1, (Value.signed?_eq_some.mp (same.trans number)).1⟩

/-- Padding does not change an integer that is read as the same integer. -/
theorem absorbs_integer {v back : Value} {n : Int} (number : v.integer? = some n) (read : back.integer? = some n) :
    Encoder.absorbsPadding v back = true := by
  have compared : Encoder.absorbsPadding v back = back.same v := by
    cases v with
    | uint m => rfl
    | sint m => rfl
    | _ => cases number
  rw [compared]
  exact (Value.same_integer_iff read number).mpr rfl

/-! ## Digits -/

/-- Whole digits of zeros in front are the digit zero. -/
theorem nibbles_replicate (count : Nat) (bits : Bits) :
    nibbles (List.replicate (4 * count) false ++ bits) = List.replicate count 0 ++ nibbles bits := by
  induction count with
  | zero => rfl
  | succ count ih =>
    rw [Nat.mul_succ, Nat.add_comm, ← List.replicate_append_replicate, List.append_assoc]
    change 0 :: nibbles (List.replicate (4 * count) false ++ bits) = _
    rw [ih, List.replicate_succ, List.cons_append]

/-- Zeros in front of whole digits fill up to whole digits of zeros. -/
theorem filled_replicate_append {own : Bits} (whole : own.length % 4 = 0) (count : Nat) :
    ∃ zeros, filled (List.replicate count false ++ own) = List.replicate (4 * zeros) false ++ own := by
  refine ⟨(count + 3) / 4, ?_⟩
  have length : (List.replicate count false ++ own).length = count + own.length := by simp
  rw [filled, length, ← List.append_assoc, List.replicate_append_replicate]
  congr 2
  omega

theorem hexDigits_eq (digit : Nat → Char) (bits : Bits) :
    hexDigits digit bits = String.ofList ((nibbles (filled bits)).map digit) := rfl

theorem dropWhile_replicate_append {α : Type} [BEq α] [ReflBEq α] (zero : α) (count : Nat) (digits : List α) :
    (List.replicate count zero ++ digits).dropWhile (· == zero) = digits.dropWhile (· == zero) := by
  induction count with
  | zero => rfl
  | succ count ih => rw [List.replicate_succ, List.cons_append, List.dropWhile_cons_of_pos (by simp), ih]

/-- Zeros in front only add leading zeros to the digits. -/
theorem sameDigits_hexDigits {digit : Nat → Char} (zero : digit 0 = '0') (bits : Bits) (count : Nat) :
    Encoder.sameDigits (hexDigits digit bits)
      (hexDigits digit (List.replicate count false ++ filled bits)) = true := by
  obtain ⟨zeros, fill⟩ := filled_replicate_append (length_filled_mod bits) count
  rw [hexDigits_eq, hexDigits_eq, fill, nibbles_replicate, List.map_append, List.map_replicate, zero]
  simp only [Encoder.sameDigits, Encoder.significant, String.toList_ofList, dropWhile_replicate_append,
    beq_self_eq_true]

/-! ## Own widths -/

/-- A field in its own width is the field of that width. -/
theorem encode_some_length {encoding : Encoding} {v : Value} {own : Bits} (h : encode encoding v none = .ok own) :
    encode encoding v (some own.length) = .ok own := by
  have digits {encoding : Encoding} {bits? : List Char → Option Bits} (h : encodeDigits encoding bits? v none = .ok own) :
      encodeDigits encoding bits? v (some own.length) = .ok own := by
    obtain ⟨digits, read, found, spelled, fits⟩ := encodeDigits_ok.mp h
    cases fits
    exact encodeDigits_ok.mpr ⟨digits, own, found, spelled, fit_replicate_append 0 own⟩
  have bytes {encoding : Encoding} (h : encodeBytes encoding v none = .ok own) :
      encodeBytes encoding v (some own.length) = .ok own := by
    obtain ⟨content, found, _, rfl⟩ := encodeBytes_ok.mp h
    exact encodeBytes_ok.mpr ⟨content, found, Bits.length_ofBytes content, rfl⟩
  cases encoding with
  | uint =>
    obtain ⟨n, number, narrow, small, rfl⟩ := encodeUnsigned_ok.mp h
    rw [Bits.length_ofNat]
    exact encodeUnsigned_ok.mpr ⟨n, number, narrow, small, rfl⟩
  | sint =>
    obtain ⟨n, number, narrow, some_bits, low, high, rfl⟩ := encodeSigned_ok.mp h
    rw [Bits.length_ofNat]
    exact encodeSigned_ok.mpr ⟨n, number, narrow, some_bits, low, high, rfl⟩
  | lowerHex => exact digits h
  | upperHex => exact digits h
  | bin => exact digits h
  | bytes => exact bytes h
  | char => exact bytes h
  | float =>
    simp only [encode, encodeFloat, except_bind_ok, Option.getD_none] at h
    obtain ⟨x, number, h⟩ := h
    cases h
    simp only [encode, encodeFloat, except_bind_ok, Bits.length_ofNat, Option.getD_some]
    exact ⟨x, number, rfl⟩

/-- Encodings whose values do not show the width that they were read from. -/
def Elastic (encoding : Encoding) : Prop :=
  encoding = .uint ∨ encoding = .sint ∨ encoding = .lowerHex ∨ encoding = .upperHex

theorem encode_hexDigits_none {encoding : Encoding} {digit : Nat → Char}
    (reads : ∀ n < 16, Hex.digit? (digit n) = some n) (hex : encoding = .lowerHex ∨ encoding = .upperHex) (bits : Bits) :
    encodeDigits encoding bitsOfHex? (.hex (hexDigits digit bits)) none = .ok (filled bits) := by
  have digits : digitsOf encoding (.hex (hexDigits digit bits)) = .ok (hexDigits digit bits) := by
    rcases hex with rfl | rfl <;> rfl
  exact encodeDigits_ok.mpr ⟨_, _, digits, bitsOfHex?_hexDigits reads bits, rfl⟩

theorem encodeUnsigned_own {v : Value} {n : Nat} (number : v.unsigned? = some n) (narrow : unsignedWidth n ≤ 128) :
    encodeUnsigned v none = .ok (Bits.ofNat (unsignedWidth n) n) :=
  encodeUnsigned_ok.mpr ⟨n, number, narrow, lt_unsignedWidth n, rfl⟩

theorem encodeSigned_own {v : Value} {n : Int} (number : v.signed? = some n) (narrow : signedWidth n ≤ 128) :
    encodeSigned v none = .ok (Bits.ofNat (signedWidth n) (n % 2 ^ signedWidth n).toNat) := by
  have bounds := signedWidth_bounds n
  exact encodeSigned_ok.mpr ⟨n, number, narrow, Nat.ne_of_gt (signedWidth_pos n), bounds.1, bounds.2, rfl⟩

/-- A value that was read has a width of its own. It is at most the width that it was read from, except that digits
come whole and that the number zero takes a bit. -/
theorem exists_own {encoding : Encoding} {bits : Bits} {w : Value} (elastic : Elastic encoding)
    (decoded : decode encoding bits = .ok w) :
    ∃ own, encode encoding w none = .ok own
      ∧ (encoding = .uint ∨ encoding = .sint → bits.length ≤ 128 ∧ (own.length ≤ bits.length ∨ bits = [] ∧ own.length = 1))
      ∧ (encoding = .lowerHex ∨ encoding = .upperHex → own = filled bits) := by
  rcases elastic with rfl | rfl | rfl | rfl
  · obtain ⟨narrow, rfl⟩ := decode_uint_ok.mp decoded
    have width : unsignedWidth bits.toNat ≤ bits.length ∨ bits = [] ∧ unsignedWidth bits.toNat = 1 := by
      cases bits with
      | nil => exact .inr ⟨rfl, rfl⟩
      | cons bit rest => exact .inl (unsignedWidth_le (by simp) (Bits.toNat_lt _))
    have least : unsignedWidth bits.toNat ≤ 128 := by
      rcases width with le | ⟨_, one⟩ <;> omega
    refine ⟨_, encodeUnsigned_own (unsigned?_uint narrow) least, fun _ => ?_, by simp⟩
    rw [Bits.length_ofNat]
    exact ⟨narrow, width⟩
  · obtain ⟨some_bits, narrow, rfl⟩ := decode_sint_ok.mp decoded
    have low := BitVec.le_toInt (BitVec.ofNat bits.length bits.toNat)
    have high := @BitVec.toInt_lt _ (BitVec.ofNat bits.length bits.toNat)
    have width := signedWidth_le (Nat.pos_of_ne_zero some_bits) low high
    refine ⟨_, encodeSigned_own (signed?_sint narrow) (Nat.le_trans width narrow), fun _ => ?_, by simp⟩
    rw [Bits.length_ofNat]
    exact ⟨narrow, .inl width⟩
  · cases decoded
    exact ⟨_, encode_hexDigits_none (fun _ => Hex.digit?_lower) (.inl rfl) bits, by simp, fun _ => rfl⟩
  · cases decoded
    exact ⟨_, encode_hexDigits_none (fun _ => Hex.digit?_upper) (.inr rfl) bits, by simp, fun _ => rfl⟩

theorem encodeUnsigned_iff {v : Value} {own : Bits} {width : Nat} (natural : encodeUnsigned v none = .ok own)
    (some_bits : 1 ≤ width) :
    (∃ bits, encodeUnsigned v (some width) = .ok bits) ↔ own.length ≤ width ∧ width ≤ 128 := by
  obtain ⟨n, number, _, _, rfl⟩ := encodeUnsigned_ok.mp natural
  rw [Bits.length_ofNat, Option.getD_none]
  constructor
  · intro held
    obtain ⟨_, held⟩ := held
    obtain ⟨m, same, narrow, small, _⟩ := encodeUnsigned_ok.mp held
    cases same.symm.trans number
    exact ⟨unsignedWidth_le some_bits small, narrow⟩
  · intro bounds
    obtain ⟨wide, narrow⟩ := bounds
    have small : n < 2 ^ width := Nat.lt_of_lt_of_le (lt_unsignedWidth n) (Nat.pow_le_pow_right (by decide) wide)
    exact ⟨_, encodeUnsigned_ok.mpr ⟨n, number, narrow, small, rfl⟩⟩

theorem encodeSigned_iff {v : Value} {own : Bits} {width : Nat} (natural : encodeSigned v none = .ok own)
    (some_bits : 1 ≤ width) :
    (∃ bits, encodeSigned v (some width) = .ok bits) ↔ own.length ≤ width ∧ width ≤ 128 := by
  obtain ⟨n, number, _, _, _, _, rfl⟩ := encodeSigned_ok.mp natural
  rw [Bits.length_ofNat, Option.getD_none]
  constructor
  · intro held
    obtain ⟨_, held⟩ := held
    obtain ⟨m, same, narrow, _, low, high, _⟩ := encodeSigned_ok.mp held
    cases same.symm.trans number
    exact ⟨signedWidth_le some_bits low high, narrow⟩
  · intro bounds
    obtain ⟨wide, narrow⟩ := bounds
    have small := Nat.lt_of_lt_of_le (magnitude_lt_iff.mpr (signedWidth_bounds n))
      (Nat.pow_le_pow_right (by decide : 0 < 2) (Nat.sub_le_sub_right wide 1))
    obtain ⟨low, high⟩ := magnitude_lt_iff.mp small
    exact ⟨_, encodeSigned_ok.mpr ⟨n, number, narrow, Nat.ne_of_gt some_bits, low, high, rfl⟩⟩

theorem own_pos {encoding : Encoding} {v : Value} {own : Bits} (integer : encoding = .uint ∨ encoding = .sint)
    (natural : encode encoding v none = .ok own) : 1 ≤ own.length := by
  obtain rfl | rfl := integer
  · obtain ⟨n, _, _, _, rfl⟩ := encodeUnsigned_ok.mp natural
    rw [Bits.length_ofNat]
    exact unsignedWidth_pos n
  · obtain ⟨n, _, _, _, _, _, rfl⟩ := encodeSigned_ok.mp natural
    rw [Bits.length_ofNat]
    exact signedWidth_pos n

/-- An integer is written in the fields of up to 128 bits that are at least as wide as its own. -/
theorem encode_integer_iff {encoding : Encoding} {v : Value} {own : Bits} {width : Nat}
    (integer : encoding = .uint ∨ encoding = .sint) (natural : encode encoding v none = .ok own) (some_bits : 1 ≤ width) :
    (∃ bits, encode encoding v (some width) = .ok bits) ↔ own.length ≤ width ∧ width ≤ 128 := by
  obtain rfl | rfl := integer
  · exact encodeUnsigned_iff natural some_bits
  · exact encodeSigned_iff natural some_bits

/-- An integer is written in any greater width, and it is read as the same number. -/
theorem exists_widened_integer {encoding : Encoding} {v : Value} {own : Bits} {width : Nat}
    (integer : encoding = .uint ∨ encoding = .sint) (natural : encode encoding v none = .ok own)
    (wide : own.length ≤ width) (narrow : width ≤ 128) :
    ∃ out back, encode encoding v (some width) = .ok out ∧ decode encoding out = .ok back
      ∧ Encoder.absorbsPadding v back = true := by
  have some_bits := own_pos integer natural
  obtain ⟨out, encoded⟩ := (encode_integer_iff integer natural (by omega)).mpr ⟨wide, narrow⟩
  obtain ⟨back, n, read, number, same⟩ := integer_of_encode integer encoded
  exact ⟨out, back, encoded, read, absorbs_integer number same⟩

/-- Digits can be written in any greater width, which puts zeros in front of them. -/
theorem encode_hexDigits_some {encoding : Encoding} {digit : Nat → Char}
    (reads : ∀ n < 16, Hex.digit? (digit n) = some n) (hex : encoding = .lowerHex ∨ encoding = .upperHex) (bits : Bits)
    {width : Nat} (wide : (filled bits).length ≤ width) :
    encodeDigits encoding bitsOfHex? (.hex (hexDigits digit bits)) (some width)
      = .ok (List.replicate (width - (filled bits).length) false ++ filled bits) := by
  have digits : digitsOf encoding (.hex (hexDigits digit bits)) = .ok (hexDigits digit bits) := by
    rcases hex with rfl | rfl <;> rfl
  refine encodeDigits_ok.mpr ⟨_, _, digits, bitsOfHex?_hexDigits reads bits, ?_⟩
  simp only [fit]
  split
  · have same : width = (filled bits).length := by omega
    simp [same]
  · rfl

/-- A value that was read can be written in any greater width, and still reads as the value up to leading zeros. -/
theorem exists_widened {encoding : Encoding} {bits own : Bits} {w : Value} {width : Nat} (elastic : Elastic encoding)
    (decoded : decode encoding bits = .ok w) (natural : encode encoding w none = .ok own) (wide : own.length ≤ width)
    (narrow : encoding = .uint ∨ encoding = .sint → width ≤ 128) :
    ∃ out back, encode encoding w (some width) = .ok out ∧ decode encoding out = .ok back
      ∧ Encoder.absorbsPadding w back = true := by
  rcases elastic with rfl | rfl | rfl | rfl
  · exact exists_widened_integer (.inl rfl) natural wide (narrow (.inl rfl))
  · exact exists_widened_integer (.inr rfl) natural wide (narrow (.inr rfl))
  · cases decoded
    cases (encode_hexDigits_none (fun _ => Hex.digit?_lower) (.inl rfl) bits).symm.trans natural
    exact ⟨_, _, encode_hexDigits_some (fun _ => Hex.digit?_lower) (.inl rfl) bits wide, rfl,
      sameDigits_hexDigits rfl bits _⟩
  · cases decoded
    cases (encode_hexDigits_none (fun _ => Hex.digit?_upper) (.inr rfl) bits).symm.trans natural
    exact ⟨_, _, encode_hexDigits_some (fun _ => Hex.digit?_upper) (.inr rfl) bits wide, rfl,
      sameDigits_hexDigits rfl bits _⟩

end Field

/-! ## The encoder's width -/

namespace Encoder

variable {position : Nat} {encoding : Encoding} {v w : Value} {bits : Bits}

/-- A field up to the end ends on a byte boundary. -/
theorem restBits_aligned (h : restBits position encoding v = .ok bits) : (position + bits.length) % 8 = 0 := by
  obtain ⟨own, _, ⟨even, rfl⟩ | ⟨_, widened, _⟩⟩ := restBits_ok.mp h
  · exact Bits.padding_eq_zero.mp even
  · rw [Field.length_of_encode widened, ← Nat.add_assoc]
    exact Bits.add_padding_mod _

/-- A value whose own bits end on a byte boundary is written in them. -/
theorem restBits_of_own (own : Field.encode encoding v none = .ok bits) (whole : (position + bits.length) % 8 = 0) :
    restBits position encoding v = .ok bits :=
  restBits_ok.mpr ⟨bits, own, .inl ⟨Bits.padding_eq_zero.mpr whole, rfl⟩⟩

/-- A value is written in its own bits widened up to the byte boundary, if these are still read as the value. -/
theorem restBits_of_widened {own : Bits} {back : Value} (natural : Field.encode encoding v none = .ok own)
    (widened : Field.encode encoding v (some (own.length + Bits.padding (position + own.length))) = .ok bits)
    (read : Field.decode encoding bits = .ok back) (absorbed : absorbsPadding v back = true) :
    restBits position encoding v = .ok bits := by
  refine restBits_ok.mpr ⟨own, natural, ?_⟩
  by_cases even : Bits.padding (position + own.length) = 0
  · rw [even, Nat.add_zero, Field.encode_some_length natural] at widened
    cases widened
    exact .inl ⟨even, rfl⟩
  · exact .inr ⟨even, widened, back, read, absorbed⟩

/-- Numbers and hexadecimal digits that were read up to the end of the data can be written up to the end, and they take
the same bits exactly if their own width reaches the last byte. -/
theorem restBits_of_elastic (elastic : Field.Elastic encoding) (decoded : Field.decode encoding bits = .ok w)
    (whole : (position + bits.length) % 8 = 0) :
    ∃ own out, Field.encode encoding w none = .ok own ∧ restBits position encoding w = .ok out
      ∧ (out = bits ↔ own.length ≤ bits.length ∧ bits.length < own.length + 8) := by
  obtain ⟨own, natural, integer, _⟩ := Field.exists_own elastic decoded
  have narrow (h : encoding = .uint ∨ encoding = .sint) :
      own.length + Bits.padding (position + own.length) ≤ 128 := by
    obtain ⟨narrow, le | ⟨rfl, one⟩⟩ := integer h
    · simp only [Bits.padding]
      omega
    · simp only [Bits.padding, one]
      omega
  have exact : encoding ≠ .float := by rcases elastic with rfl | rfl | rfl | rfl <;> decide
  obtain ⟨out, back, widened, read, absorbed⟩ := Field.exists_widened elastic decoded natural
    (Nat.le_add_right _ (Bits.padding (position + own.length))) narrow
  have length := Field.length_of_encode widened
  refine ⟨own, out, natural, restBits_of_widened natural widened read absorbed, ?_⟩
  -- the value has one encoding in each width, so only the width can change
  have same : out = bits ↔ out.length = bits.length := by
    refine ⟨congrArg List.length, fun h => ?_⟩
    rw [← length, h, Field.encode_decode exact decoded] at widened
    exact (Except.ok.inj widened).symm
  rw [same, length, Bits.padding]
  omega

/-- The digits of a field come back in its bits exactly if the field starts at a whole digit. -/
theorem restBits_hex_iff (hex : encoding = .lowerHex ∨ encoding = .upperHex)
    (decoded : Field.decode encoding bits = .ok w) (whole : (position + bits.length) % 8 = 0) :
    restBits position encoding w = .ok bits ↔ position % 4 = 0 := by
  have elastic : Field.Elastic encoding := .inr (.inr hex)
  obtain ⟨own, natural, _, digits⟩ := Field.exists_own elastic decoded
  obtain ⟨own', out, natural', found, same⟩ := restBits_of_elastic elastic decoded whole
  cases natural.symm.trans natural'
  have length : own.length = bits.length + (4 - bits.length % 4) % 4 := by
    rw [digits hex, Field.filled, List.length_append, List.length_replicate, Nat.add_comm]
  rw [found, Except.ok.injEq, same]
  omega

/-- A value has one encoding in each width. So what was read and is written again in as many bits is the same. -/
theorem restBits_unique {out : Bits} (exact : encoding ≠ .float) (decoded : Field.decode encoding bits = .ok w)
    (h : restBits position encoding w = .ok out) (length : out.length = bits.length) : out = bits := by
  have again := Field.encode_decode exact decoded
  obtain ⟨own, natural, ⟨_, rfl⟩ | ⟨_, widened, _⟩⟩ := restBits_ok.mp h
  · have own_width := Field.encode_some_length natural
    rw [length, again] at own_width
    exact (Except.ok.inj own_width).symm
  · rw [← Field.length_of_encode widened, length, again] at widened
    exact (Except.ok.inj widened).symm

/-- The value that a field up to the end reads as is written in the same bits, where digits start at a whole digit. -/
theorem restBits_again (exact : encoding ≠ .float) (h : restBits position encoding v = .ok bits)
    (decoded : Field.decode encoding bits = .ok w)
    (digits : encoding = .lowerHex ∨ encoding = .upperHex → position % 4 = 0) :
    restBits position encoding w = .ok bits := by
  obtain ⟨own, natural, taken⟩ := restBits_ok.mp h
  have whole := restBits_aligned h
  obtain ⟨width, encoded⟩ : ∃ width, Field.encode encoding v width = .ok bits := by
    rcases taken with ⟨_, rfl⟩ | ⟨_, widened, _⟩
    · exact ⟨none, natural⟩
    · exact ⟨some _, widened⟩
  -- a number was written in its own width or less than a byte above it, and its reading has the same own width
  have integer (elastic : Field.Elastic encoding) (same : Field.encode encoding w none = .ok own) :
      restBits position encoding w = .ok bits := by
    obtain ⟨own', out, natural', found, reaches⟩ := restBits_of_elastic elastic decoded whole
    cases same.symm.trans natural'
    rw [found, reaches.mpr]
    rcases taken with ⟨_, rfl⟩ | ⟨_, widened, _⟩
    · omega
    · have := Bits.padding_lt (position + own.length)
      rw [Field.length_of_encode widened]
      omega
  cases encoding with
  | uint =>
    have number := Field.unsigned?_of_decode encoded decoded
    obtain ⟨n, found, narrow, small, rfl⟩ := Field.encodeUnsigned_ok.mp natural
    exact integer (.inl rfl) (Field.encodeUnsigned_ok.mpr ⟨n, number.trans found, narrow, small, rfl⟩)
  | sint =>
    have number := Field.signed?_of_decode encoded decoded
    obtain ⟨n, found, narrow, some_bits, low, high, rfl⟩ := Field.encodeSigned_ok.mp natural
    exact integer (.inr (.inl rfl))
      (Field.encodeSigned_ok.mpr ⟨n, number.trans found, narrow, some_bits, low, high, rfl⟩)
  | lowerHex => exact (restBits_hex_iff (.inl rfl) decoded whole).mpr (digits (.inl rfl))
  | upperHex => exact (restBits_hex_iff (.inr rfl) decoded whole).mpr (digits (.inr rfl))
  | bin => exact restBits_of_own (Field.encode_decode_none (.inl rfl) decoded) whole
  | bytes => exact restBits_of_own (Field.encode_decode_none (.inr (.inl rfl)) decoded) whole
  | char => exact restBits_of_own (Field.encode_decode_none (.inr (.inr rfl)) decoded) whole
  | float => exact absurd rfl exact

end Encoder

end BitTemplate
