import BitTemplate.Proofs.Bits
import BitTemplate.Proofs.Outcome

/-!
Fields read and written back. Bits can be read exactly if the encoding admits their width. Whatever bits a field of an
encoding other than floating point can have, the value they read as is written in that width as the same bits. Digits
and bytes keep their width by themselves, whole hexadecimal digits included; a number does not, and is written in the
least width that holds it.
-/

namespace BitTemplate.Field

/-- Reading back every item of a list reads back the list. -/
theorem mapM_eq_pure {m : Type → Type} [Monad m] [LawfulMonad m] {α β : Type} {f : β → m α} {g : α → β} {l : List α}
    (h : ∀ a ∈ l, f (g a) = pure a) : (l.map g).mapM f = pure l := by
  induction l with
  | nil => simp
  | cons a rest ih =>
    have first := h a (by simp)
    have others := ih fun b hb => h b (by simp [hb])
    rw [List.map_cons, List.mapM_cons, first, others]
    simp

/-! ## Digits -/

/-- The bits of a field with zeros in front up to whole hexadecimal digits. -/
def filled (bits : Bits) : Bits :=
  List.replicate ((4 - bits.length % 4) % 4) false ++ bits

theorem length_filled_mod (bits : Bits) : (filled bits).length % 4 = 0 := by
  rw [filled, List.length_append, List.length_replicate]
  omega

theorem nibbles_lt {bits : Bits} : ∀ n ∈ nibbles bits, n < 16 := by
  fun_induction nibbles bits with
  | case1 a b c d rest ih =>
    intro n hn
    rcases List.mem_cons.mp hn with rfl | hn
    · exact Bits.toNat_lt [a, b, c, d]
    · exact ih n hn
  | case2 => simp

/-- Whole digits spell the bits they were read from. -/
theorem flatMap_nibbles {bits : Bits} (h : bits.length % 4 = 0) : (nibbles bits).flatMap (Bits.ofNat 4) = bits := by
  fun_induction nibbles bits with
  | case1 a b c d rest ih =>
    have whole : rest.length % 4 = 0 := by
      simp only [List.length_cons] at h
      omega
    have first := Bits.ofNat_toNat [a, b, c, d]
    rw [List.flatMap_cons, ih whole]
    exact congrArg (· ++ rest) first
  | case2 bits short =>
    match bits, h, short with
    | [], _, _ => rfl
    | a :: b :: c :: d :: rest, _, short => exact absurd rfl (short a b c d rest)

theorem bitsOfHex?_hexDigits {digit : Nat → Char} (reads : ∀ n < 16, Hex.digit? (digit n) = some n) (bits : Bits) :
    bitsOfHex? (hexDigits digit bits).toList = some (filled bits) := by
  have digits : ((nibbles (filled bits)).map digit).mapM Hex.digit? = some (nibbles (filled bits)) :=
    mapM_eq_pure fun n hn => reads n (nibbles_lt n hn)
  rw [hexDigits, bitsOfHex?, String.toList_ofList]
  change (((nibbles (filled bits)).map digit).mapM Hex.digit?).bind _ = _
  rw [digits, Option.bind_some, flatMap_nibbles (length_filled_mod bits)]
  rfl

theorem bitsOfBin?_toDigits (bits : Bits) : bitsOfBin? bits.toDigits.toList = some bits := by
  rw [Bits.toDigits, String.toList_ofList, bitsOfBin?]
  exact mapM_eq_pure fun bit _ => by cases bit <;> rfl

/-- The digits of the bits of binary digits are the digits. -/
theorem toDigits_of_bitsOfBin? {digits : List Char} {bits : Bits} (h : bitsOfBin? digits = some bits) :
    bits.toDigits = String.ofList digits := by
  induction digits generalizing bits with
  | nil =>
    cases h
    rfl
  | cons c rest ih =>
    simp only [bitsOfBin?, List.mapM_cons, Option.bind_eq_bind, Option.bind_eq_some_iff, Option.pure_def,
      Option.some.injEq] at h
    obtain ⟨bit, first, others, later, rfl⟩ := h
    have digit : (if bit then '1' else '0') = c := by
      simp only [bit?] at first
      split at first
      · cases first
        exact Eq.symm ‹_›
      · split at first
        · cases first
          exact Eq.symm ‹_›
        · cases first
    have text := congrArg String.toList (ih later)
    rw [Bits.toDigits, String.toList_ofList, String.toList_ofList] at text
    rw [Bits.toDigits, List.map_cons, digit, text]

/-- Zeros in front are dropped again. -/
theorem fit_replicate_append {encoding : Encoding} {value : Value} (count : Nat) (bits : Bits) :
    fit encoding value (List.replicate count false ++ bits) (some bits.length) = .ok bits := by
  have le : bits.length ≤ (List.replicate count false ++ bits).length := by simp
  have excess : (List.replicate count false ++ bits).length - bits.length = count := by simp
  rw [fit, if_pos le, excess]
  simp

/-! ## Text -/

theorem latin?_ofNat (byte : UInt8) : latin? (Char.ofNat byte.toNat) = .ok byte := by
  have bound : byte.toNat < 256 := byte.toNat_lt
  have valid : byte.toNat.isValidChar := Or.inl (by omega)
  have code : (Char.ofNat byte.toNat).toNat = byte.toNat := by
    rw [Char.ofNat, dif_pos valid]
    rfl
  rw [latin?, code, if_pos bound, UInt8.ofNat_toNat]

/-! ## Numbers -/

/-- The number of an unsigned field. -/
theorem unsigned?_uint {bits : Bits} (h : bits.length ≤ 128) :
    (Value.uint (BitVec.ofNat 128 bits.toNat)).unsigned? = some bits.toNat := by
  have small : bits.toNat < 2 ^ 128 := Nat.lt_of_lt_of_le bits.toNat_lt (Nat.pow_le_pow_right (by decide) h)
  rw [Value.unsigned?, BitVec.toNat_ofNat, Nat.mod_eq_of_lt small]

/-- The number of a signed field, which is that of its bits in two's complement. -/
theorem signed?_sint {bits : Bits} (h : bits.length ≤ 128) :
    (Value.sint ((BitVec.ofNat bits.length bits.toNat).signExtend 128)).signed?
      = some (BitVec.ofNat bits.length bits.toNat).toInt := by
  rw [Value.signed?, BitVec.toInt_signExtend_of_le h]

/-- The bits of a number in two's complement are the bits it was read from. -/
theorem ofNat_toInt_emod (bits : Bits) :
    Bits.ofNat bits.length ((BitVec.ofNat bits.length bits.toNat).toInt % 2 ^ bits.length).toNat = bits := by
  have number : ((BitVec.ofNat bits.length bits.toNat).toInt % 2 ^ bits.length).toNat = bits.toNat := by
    have whole := BitVec.toNat_ofInt (n := bits.length) (BitVec.ofNat bits.length bits.toNat).toInt
    rw [BitVec.ofInt_toInt, BitVec.toNat_ofNat, Nat.mod_eq_of_lt bits.toNat_lt] at whole
    rw [Int.natCast_pow] at whole
    exact whole.symm
  rw [number, Bits.ofNat_toNat]

/-! ## Fields -/

theorem readInteger_ok {encoding : Encoding} {bits : Bits} {n : Nat} :
    readInteger encoding bits = .ok n ↔ bits.length ≤ 128 ∧ bits.toNat = n := by
  by_cases wide : 128 < bits.length
  · simp [readInteger, maxIntegerBits, wide, Nat.not_le.mpr wide]
  · simp [readInteger, maxIntegerBits, wide, Nat.not_lt.mp wide]

theorem readBytes_ok {encoding : Encoding} {bits : Bits} {content : List UInt8} :
    readBytes encoding bits = .ok content ↔ bits.length % 8 = 0 ∧ bits.toBytes = content := by
  by_cases whole : bits.length % 8 = 0 <;> simp [readBytes, whole]

theorem decode_uint_ok {bits : Bits} {v : Value} :
    decode .uint bits = .ok v ↔ bits.length ≤ 128 ∧ v = .uint (BitVec.ofNat 128 bits.toNat) := by
  simp only [decode, except_bind_ok, readInteger_ok, except_pure_ok]
  constructor
  · rintro ⟨_, ⟨narrow, rfl⟩, rfl⟩
    exact ⟨narrow, rfl⟩
  · rintro ⟨narrow, rfl⟩
    exact ⟨_, ⟨narrow, rfl⟩, rfl⟩

theorem decode_sint_ok {bits : Bits} {v : Value} :
    decode .sint bits = .ok v ↔ bits.length ≠ 0 ∧ bits.length ≤ 128
      ∧ v = .sint ((BitVec.ofNat bits.length bits.toNat).signExtend 128) := by
  by_cases empty : bits.length = 0
  · simp [decode, empty]
  · simp only [decode, if_neg empty, except_bind_ok, readInteger_ok, except_pure_ok]
    constructor
    · rintro ⟨_, ⟨narrow, rfl⟩, rfl⟩
      exact ⟨empty, narrow, rfl⟩
    · rintro ⟨_, narrow, rfl⟩
      exact ⟨_, ⟨narrow, rfl⟩, rfl⟩

theorem decode_bytes_ok {bits : Bits} {v : Value} :
    decode .bytes bits = .ok v ↔ bits.length % 8 = 0 ∧ v = .bytes bits.toBytes := by
  simp only [decode, except_bind_ok, readBytes_ok, except_pure_ok]
  constructor
  · rintro ⟨_, ⟨whole, rfl⟩, rfl⟩
    exact ⟨whole, rfl⟩
  · rintro ⟨whole, rfl⟩
    exact ⟨_, ⟨whole, rfl⟩, rfl⟩

/-- Bits are read as some bytes exactly if they are the bits of these bytes. -/
theorem decode_eq_bytes {bits : Bits} {content : List UInt8} :
    decode .bytes bits = .ok (.bytes content) ↔ bits = Bits.ofBytes content := by
  rw [decode_bytes_ok]
  constructor
  · rintro ⟨whole, ⟨⟩⟩
    exact (Bits.ofBytes_toBytes whole).symm
  · rintro rfl
    exact ⟨by rw [Bits.length_ofBytes, Nat.mul_mod_right], by rw [Bits.toBytes_ofBytes]⟩

theorem decode_char_ok {bits : Bits} {v : Value} :
    decode .char bits = .ok v ↔ bits.length % 8 = 0
      ∧ v = .text (String.ofList (bits.toBytes.map fun byte => Char.ofNat byte.toNat)) := by
  simp only [decode, except_bind_ok, readBytes_ok, except_pure_ok]
  constructor
  · rintro ⟨_, ⟨whole, rfl⟩, rfl⟩
    exact ⟨whole, rfl⟩
  · rintro ⟨whole, rfl⟩
    exact ⟨_, ⟨whole, rfl⟩, rfl⟩

theorem decode_float_ok {bits : Bits} {v : Value} :
    decode .float bits = .ok v ↔ bits.length = 32 ∧ v = .float (Double.ofNarrow bits.toNat)
      ∨ bits.length = 64 ∧ v = .float ⟨UInt64.ofNat bits.toNat⟩ := by
  simp only [decode, except_bind_ok, readInteger_ok]
  constructor
  · rintro ⟨_, ⟨_, rfl⟩, h⟩
    split at h
    · cases h
      exact .inl ⟨‹_›, rfl⟩
    · split at h
      · cases h
        exact .inr ⟨‹_›, rfl⟩
      · cases h
  · rintro (⟨narrow, rfl⟩ | ⟨wide, rfl⟩)
    · exact ⟨_, ⟨by omega, rfl⟩, by rw [if_pos narrow]; rfl⟩
    · exact ⟨_, ⟨by omega, rfl⟩, by rw [if_neg (by omega), if_pos wide]; rfl⟩

/-- The widths of the fields of an encoding. -/
def Admits (encoding : Encoding) (width : Nat) : Prop :=
  match encoding with
  | .uint => width ≤ 128
  | .sint => 0 < width ∧ width ≤ 128
  | .bytes | .char => width % 8 = 0
  | .float => width = 32 ∨ width = 64
  | .lowerHex | .upperHex | .bin => True

/-- Bits can be read as a field exactly if the encoding admits their width. -/
theorem exists_decode_iff {encoding : Encoding} {bits : Bits} :
    (∃ v, decode encoding bits = .ok v) ↔ Admits encoding bits.length := by
  cases encoding with
  | uint => simp only [decode_uint_ok, exists_and_left, exists_eq, and_true, Admits]
  | sint => simp only [decode_sint_ok, exists_and_left, exists_eq, and_true, Admits, Nat.pos_iff_ne_zero]
  | lowerHex => exact ⟨fun _ => trivial, fun _ => ⟨_, rfl⟩⟩
  | upperHex => exact ⟨fun _ => trivial, fun _ => ⟨_, rfl⟩⟩
  | bin => exact ⟨fun _ => trivial, fun _ => ⟨_, rfl⟩⟩
  | bytes => simp only [decode_bytes_ok, exists_and_left, exists_eq, and_true, Admits]
  | char => simp only [decode_char_ok, exists_and_left, exists_eq, and_true, Admits]
  | float => simp only [decode_float_ok, exists_or, exists_and_left, exists_eq, and_true, Admits]

theorem float_of_decode {bits : Bits} {v : Value} (h : decode .float bits = .ok v) : ∃ x, v = .float x := by
  rcases decode_float_ok.mp h with ⟨_, rfl⟩ | ⟨_, rfl⟩
  · exact ⟨_, rfl⟩
  · exact ⟨_, rfl⟩

/-- No field is a record. -/
theorem isList_of_decode {encoding : Encoding} {bits : Bits} {v : Value} (h : decode encoding bits = .ok v) :
    v.isList = false := by
  cases encoding with
  | uint =>
    obtain ⟨_, rfl⟩ := decode_uint_ok.mp h
    rfl
  | sint =>
    obtain ⟨_, _, rfl⟩ := decode_sint_ok.mp h
    rfl
  | lowerHex =>
    cases h
    rfl
  | upperHex =>
    cases h
    rfl
  | bin =>
    cases h
    rfl
  | bytes =>
    obtain ⟨_, rfl⟩ := decode_bytes_ok.mp h
    rfl
  | char =>
    obtain ⟨_, rfl⟩ := decode_char_ok.mp h
    rfl
  | float =>
    obtain ⟨_, rfl⟩ := float_of_decode h
    rfl

theorem encodeUnsigned_ok {v : Value} {width : Option Nat} {bits : Bits} :
    encodeUnsigned v width = .ok bits ↔ ∃ n, v.unsigned? = some n ∧ width.getD (unsignedWidth n) ≤ 128
      ∧ n < 2 ^ width.getD (unsignedWidth n) ∧ Bits.ofNat (width.getD (unsignedWidth n)) n = bits := by
  simp only [encodeUnsigned, maxIntegerBits, Nat.one_shiftLeft]
  cases v.unsigned? with
  | none => simp
  | some n =>
    by_cases wide : 128 < width.getD (unsignedWidth n)
    · simp [wide, Nat.not_le.mpr wide]
    · by_cases large : 2 ^ width.getD (unsignedWidth n) ≤ n
      · simp [wide, large, Nat.not_lt.mpr large]
      · simp [wide, large, Nat.not_lt.mp wide, Nat.not_le.mp large]

theorem encodeSigned_ok {v : Value} {width : Option Nat} {bits : Bits} :
    encodeSigned v width = .ok bits ↔ ∃ n, v.signed? = some n ∧ width.getD (signedWidth n) ≤ 128
      ∧ width.getD (signedWidth n) ≠ 0 ∧ -2 ^ (width.getD (signedWidth n) - 1) ≤ n
      ∧ n < 2 ^ (width.getD (signedWidth n) - 1)
      ∧ Bits.ofNat (width.getD (signedWidth n)) (n % 2 ^ width.getD (signedWidth n)).toNat = bits := by
  simp only [encodeSigned, maxIntegerBits, Nat.one_shiftLeft, Int.natCast_pow, Int.cast_ofNat_Int]
  cases v.signed? with
  | none => simp
  | some n =>
    by_cases wide : 128 < width.getD (signedWidth n)
    · simp [wide, Nat.not_le.mpr wide]
    · by_cases empty : width.getD (signedWidth n) = 0
      · simp [empty]
      · by_cases outside : n < -2 ^ (width.getD (signedWidth n) - 1) ∨ 2 ^ (width.getD (signedWidth n) - 1) ≤ n
        · simp only [if_neg wide, if_neg empty, if_pos outside, reduceCtorEq, false_iff]
          rintro ⟨m, same, _, _, low, high, _⟩
          cases same
          omega
        · simp only [if_neg wide, if_neg empty, if_neg outside, Except.ok.injEq]
          constructor
          · rintro rfl
            exact ⟨n, rfl, by omega, empty, by omega, by omega, rfl⟩
          · rintro ⟨m, same, _, _, _, _, rfl⟩
            cases same
            rfl

theorem encodeUnsigned_uint {bits : Bits} (narrow : bits.length ≤ 128) :
    encodeUnsigned (.uint (BitVec.ofNat 128 bits.toNat)) (some bits.length) = .ok bits :=
  encodeUnsigned_ok.mpr ⟨_, unsigned?_uint narrow, narrow, bits.toNat_lt, Bits.ofNat_toNat bits⟩

theorem encodeSigned_sint {bits : Bits} (narrow : bits.length ≤ 128) (some_bits : bits.length ≠ 0) :
    encodeSigned (.sint ((BitVec.ofNat bits.length bits.toNat).signExtend 128)) (some bits.length) = .ok bits := by
  have low := BitVec.le_toInt (BitVec.ofNat bits.length bits.toNat)
  have high := @BitVec.toInt_lt _ (BitVec.ofNat bits.length bits.toNat)
  exact encodeSigned_ok.mpr ⟨_, signed?_sint narrow, narrow, some_bits, low, high, ofNat_toInt_emod bits⟩

theorem encodeDigits_hexDigits {encoding : Encoding} {digit : Nat → Char}
    (reads : ∀ n < 16, Hex.digit? (digit n) = some n) (hex : encoding = .lowerHex ∨ encoding = .upperHex) (bits : Bits) :
    encodeDigits encoding bitsOfHex? (.hex (hexDigits digit bits)) (some bits.length) = .ok bits := by
  have digits : digitsOf encoding (.hex (hexDigits digit bits)) = .ok (hexDigits digit bits) := by
    rcases hex with rfl | rfl <;> rfl
  simp only [encodeDigits, digits, except_bind_ok]
  refine ⟨_, rfl, ?_⟩
  rw [bitsOfHex?_hexDigits reads]
  exact fit_replicate_append _ _

theorem encodeDigits_toDigits (width : Option Nat) (bits : Bits) (h : width.getD bits.length = bits.length) :
    encodeDigits .bin bitsOfBin? (.bin bits.toDigits) width = .ok bits := by
  simp only [encodeDigits, digitsOf, except_bind_ok]
  refine ⟨_, rfl, ?_⟩
  rw [bitsOfBin?_toDigits]
  cases width with
  | none => rfl
  | some width =>
    obtain rfl : width = bits.length := h
    simpa using fit_replicate_append 0 bits

theorem encodeBytes_toBytes {encoding : Encoding} {value : Value} {bits : Bits} (whole : bits.length % 8 = 0)
    (content : bytesOf encoding value = .ok bits.toBytes) (width : Option Nat) (h : width.getD bits.length = bits.length) :
    encodeBytes encoding value width = .ok bits := by
  have size := Bits.length_toBytes whole
  have wide : width.getD (8 * bits.toBytes.length) = bits.length := by rw [size, h]
  simp only [encodeBytes, content, except_bind_ok]
  refine ⟨_, rfl, ?_⟩
  rw [wide, if_neg (by omega), if_neg (by omega), Bits.ofBytes_toBytes whole]
  rfl

theorem bytesOf_text {bits : Bits} :
    bytesOf .char (.text (String.ofList (bits.toBytes.map fun byte => Char.ofNat byte.toNat))) = .ok bits.toBytes := by
  simp only [bytesOf, if_pos, String.toList_ofList]
  exact mapM_eq_pure fun byte _ => latin?_ofNat byte

/-- The value of a field is written in the width of the field as the bits it was read from. -/
theorem encode_decode {encoding : Encoding} {bits : Bits} {value : Value} (exact : encoding ≠ .float)
    (h : decode encoding bits = .ok value) : encode encoding value (some bits.length) = .ok bits := by
  cases encoding with
  | uint =>
    obtain ⟨narrow, rfl⟩ := decode_uint_ok.mp h
    exact encodeUnsigned_uint narrow
  | sint =>
    obtain ⟨some_bits, narrow, rfl⟩ := decode_sint_ok.mp h
    exact encodeSigned_sint narrow some_bits
  | lowerHex =>
    cases h
    exact encodeDigits_hexDigits (fun _ => Hex.digit?_lower) (.inl rfl) bits
  | upperHex =>
    cases h
    exact encodeDigits_hexDigits (fun _ => Hex.digit?_upper) (.inr rfl) bits
  | bin =>
    cases h
    exact encodeDigits_toDigits _ bits rfl
  | bytes =>
    obtain ⟨whole, rfl⟩ := decode_bytes_ok.mp h
    exact encodeBytes_toBytes whole rfl _ rfl
  | char =>
    obtain ⟨whole, rfl⟩ := decode_char_ok.mp h
    exact encodeBytes_toBytes whole bytesOf_text _ rfl
  | float => exact absurd rfl exact

theorem needsBytes_iff {encoding : Encoding} : encoding.needsBytes = true ↔ encoding = .bytes ∨ encoding = .char := by
  cases encoding <;> simp [Encoding.needsBytes]

/-- Binary digits and bytes keep their width by themselves. -/
theorem encode_decode_none {encoding : Encoding} {bits : Bits} {value : Value}
    (own : encoding = .bin ∨ encoding = .bytes ∨ encoding = .char) (h : decode encoding bits = .ok value) :
    encode encoding value none = .ok bits := by
  rcases own with rfl | rfl | rfl
  · cases h
    exact encodeDigits_toDigits _ bits rfl
  · obtain ⟨whole, rfl⟩ := decode_bytes_ok.mp h
    exact encodeBytes_toBytes whole rfl _ rfl
  · obtain ⟨whole, rfl⟩ := decode_char_ok.mp h
    exact encodeBytes_toBytes whole bytesOf_text _ rfl

/-! ## What is written can be read -/

theorem encodeDigits_ok {encoding : Encoding} {bits? : List Char → Option Bits} {v : Value} {width : Option Nat}
    {bits : Bits} :
    encodeDigits encoding bits? v width = .ok bits ↔ ∃ digits own, digitsOf encoding v = .ok digits
      ∧ bits? digits.toList = some own ∧ fit encoding v own width = .ok bits := by
  simp only [encodeDigits, except_bind_ok]
  constructor
  · rintro ⟨digits, found, h⟩
    split at h
    · cases h
    · exact ⟨digits, _, found, ‹_›, h⟩
  · rintro ⟨digits, own, found, read, h⟩
    exact ⟨digits, found, by rw [read]; exact h⟩

theorem encodeBytes_ok {encoding : Encoding} {v : Value} {width : Option Nat} {bits : Bits} :
    encodeBytes encoding v width = .ok bits ↔ ∃ content, bytesOf encoding v = .ok content
      ∧ width.getD (8 * content.length) = 8 * content.length ∧ Bits.ofBytes content = bits := by
  simp only [encodeBytes, except_bind_ok]
  constructor
  · rintro ⟨content, found, h⟩
    split at h
    · cases h
    · split at h
      · cases h
      · cases h
        exact ⟨content, found, by omega, rfl⟩
  · rintro ⟨content, found, same, rfl⟩
    refine ⟨content, found, ?_⟩
    rw [same, if_neg (by omega), if_neg (by omega)]
    rfl

theorem length_of_fit {encoding : Encoding} {v : Value} {own bits : Bits} {width : Nat}
    (h : fit encoding v own (some width) = .ok bits) : bits.length = width := by
  simp only [fit] at h
  split at h
  · split at h
    · cases h
    · cases h
      rw [List.length_drop]
      omega
  · cases h
    rw [List.length_append, List.length_replicate]
    omega

/-- A field has the width that it is written in. -/
theorem length_of_encode {encoding : Encoding} {v : Value} {width : Nat} {bits : Bits}
    (h : encode encoding v (some width) = .ok bits) : bits.length = width := by
  have digits {encoding : Encoding} {bits? : List Char → Option Bits}
      (h : encodeDigits encoding bits? v (some width) = .ok bits) : bits.length = width := by
    obtain ⟨_, _, _, _, h⟩ := encodeDigits_ok.mp h
    exact length_of_fit h
  have bytes {encoding : Encoding} (h : encodeBytes encoding v (some width) = .ok bits) : bits.length = width := by
    obtain ⟨content, _, same, rfl⟩ := encodeBytes_ok.mp h
    rw [Bits.length_ofBytes, ← same]
    rfl
  cases encoding with
  | uint =>
    obtain ⟨n, _, _, _, rfl⟩ := encodeUnsigned_ok.mp h
    exact Bits.length_ofNat _ _
  | sint =>
    obtain ⟨n, _, _, _, _, _, rfl⟩ := encodeSigned_ok.mp h
    exact Bits.length_ofNat _ _
  | lowerHex => exact digits h
  | upperHex => exact digits h
  | bin => exact digits h
  | bytes => exact bytes h
  | char => exact bytes h
  | float =>
    simp only [encode, encodeFloat, except_bind_ok, Option.getD_some] at h
    obtain ⟨x, _, h⟩ := h
    split at h
    · cases h
      simp [*]
    · split at h
      · cases h
        simp [*]
      · cases h

theorem length_of_encodeBytes {encoding : Encoding} {v : Value} {width : Option Nat} {bits : Bits}
    (whole : encoding.needsBytes = true) (h : encode encoding v width = .ok bits) : bits.length % 8 = 0 := by
  have bytes {encoding : Encoding} (h : encodeBytes encoding v width = .ok bits) : bits.length % 8 = 0 := by
    obtain ⟨content, _, _, rfl⟩ := encodeBytes_ok.mp h
    rw [Bits.length_ofBytes]
    omega
  rcases needsBytes_iff.mp whole with rfl | rfl
  · exact bytes h
  · exact bytes h

/-- Whatever a field other than a floating-point number is written as can be read. -/
theorem exists_decode {encoding : Encoding} {v : Value} {width : Option Nat} {bits : Bits} (exact : encoding ≠ .float)
    (h : encode encoding v width = .ok bits) : ∃ w, decode encoding bits = .ok w := by
  apply exists_decode_iff.mpr
  cases encoding with
  | uint =>
    obtain ⟨n, _, narrow, _, rfl⟩ := encodeUnsigned_ok.mp h
    rwa [Admits, Bits.length_ofNat]
  | sint =>
    obtain ⟨n, _, narrow, some_bits, _, _, rfl⟩ := encodeSigned_ok.mp h
    rw [Admits, Bits.length_ofNat]
    exact ⟨Nat.pos_of_ne_zero some_bits, narrow⟩
  | lowerHex => trivial
  | upperHex => trivial
  | bin => trivial
  | bytes => exact length_of_encodeBytes rfl h
  | char => exact length_of_encodeBytes rfl h
  | float => exact absurd rfl exact

end BitTemplate.Field
