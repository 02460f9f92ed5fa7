import Mathlib.Order.Bounds.Basic
import BitTemplate.Proofs.Comparison
import BitTemplate.Proofs.Representable

/-!
The widths of fields up to the end of the data. An integer takes the least width that ends on a byte boundary and holds
it; where none of up to 128 bits does, it is refused. Hexadecimal digits take less than a byte more than four bits a
digit, which puts zeros in front of them. Binary digits are as many as their bits, so they are never widened: they end on
a byte boundary by themselves or are refused.
-/

namespace BitTemplate

@[simp] theorem Bits.length_toDigits (bits : Bits) : bits.toDigits.length = bits.length := by
  simp [toDigits]

/-- No shorter way leads to a byte boundary than the padding. -/
theorem Bits.padding_le {position more : Nat} (whole : (position + more) % 8 = 0) : padding position ≤ more := by
  unfold padding
  omega

namespace Field

variable {encoding : Encoding} {v : Value} {own bits : Bits} {width : Nat}

/-! ## Integers -/

/-- An integer that any field can be written for has a width of its own. -/
theorem exists_own_of_encode (integer : encoding = .uint ∨ encoding = .sint) {width : Option Nat}
    (encoded : encode encoding v width = .ok bits) : ∃ own, encode encoding v none = .ok own := by
  obtain rfl | rfl := integer
  · obtain ⟨n, number, narrow, small, _⟩ := encodeUnsigned_ok.mp encoded
    have small : n < 2 ^ 128 := Nat.lt_of_lt_of_le small (Nat.pow_le_pow_right (by decide) narrow)
    exact ⟨_, encodeUnsigned_own number (unsignedWidth_le (by decide) small)⟩
  · obtain ⟨n, number, narrow, _, low, high, _⟩ := encodeSigned_ok.mp encoded
    have small := Nat.lt_of_lt_of_le (magnitude_lt_iff.mpr ⟨low, high⟩)
      (Nat.pow_le_pow_right (by decide : 0 < 2) (Nat.sub_le_sub_right narrow 1))
    obtain ⟨low, high⟩ := magnitude_lt_iff.mp small
    exact ⟨_, encodeSigned_own number (signedWidth_le (by decide) low high)⟩

/-! ## Hexadecimal digits -/

theorem HasDigits.unique {a b : String} (h : HasDigits encoding v a) (h' : HasDigits encoding v b) : a = b :=
  Except.ok.inj ((digitsOf_ok.mpr h).symm.trans (digitsOf_ok.mpr h'))

/-- Characters that each have a value have as many values. -/
theorem exists_values {α : Type} {value? : Char → Option α} {digits : List Char}
    (valid : ∀ c ∈ digits, (value? c).isSome) :
    ∃ values, digits.mapM value? = some values ∧ values.length = digits.length := by
  induction digits with
  | nil => exact ⟨[], rfl, rfl⟩
  | cons c rest ih =>
    obtain ⟨n, first⟩ := Option.isSome_iff_exists.mp (valid c (by simp))
    obtain ⟨values, others, length⟩ := ih fun d hd => valid d (by simp [hd])
    refine ⟨n :: values, ?_, by rw [List.length_cons, List.length_cons, length]⟩
    rw [List.mapM_cons, first, others]
    rfl

/-- Digits take four bits each by themselves. -/
theorem exists_own_hex {digits : String}
    (held : HasDigits encoding v digits) (valid : ∀ c ∈ digits.toList, (Hex.digit? c).isSome) :
    ∃ own, encodeDigits encoding bitsOfHex? v none = .ok own ∧ bitsOfHex? digits.toList = some own
      ∧ own.length = 4 * digits.length := by
  obtain ⟨values, read, length⟩ := exists_values valid
  have bits : bitsOfHex? digits.toList = some (values.flatMap (Bits.ofNat 4)) := by
    rw [bitsOfHex?, read]
    rfl
  refine ⟨_, encodeDigits_ok.mpr ⟨digits, _, digitsOf_ok.mpr held, bits, rfl⟩, bits, ?_⟩
  rw [length_flatMap_ofNat, length]
  rfl

/-! ## Binary digits -/

/-- Binary digits are written as one bit each by themselves. -/
theorem encode_bin_ok : encode .bin v none = .ok bits ↔ HasDigits .bin v bits.toDigits := by
  constructor
  · intro natural
    obtain ⟨digits, own, held, read, fits⟩ := encodeDigits_ok.mp natural
    cases fits
    rw [toDigits_of_bitsOfBin? read, String.ofList_toList]
    exact digitsOf_ok.mp held
  · intro held
    exact encodeDigits_ok.mpr ⟨_, bits, digitsOf_ok.mpr held, bitsOfBin?_toDigits bits, rfl⟩

theorem exists_toDigits {digits : String} (valid : ∀ c ∈ digits.toList, c = '0' ∨ c = '1') :
    ∃ bits : Bits, bits.toDigits = digits := by
  have read : ∀ c ∈ digits.toList, (bit? c).isSome := by
    intro c hc
    obtain rfl | rfl := valid c hc <;> rfl
  obtain ⟨bits, read, _⟩ := exists_values read
  exact ⟨bits, by rw [toDigits_of_bitsOfBin? read, String.ofList_toList]⟩

end Field

namespace Encoder

variable {position : Nat} {encoding : Encoding} {v : Value} {own bits : Bits} {width : Nat}

/-! ## Integers -/

/-- The widths of at least one bit in which a field from a position on ends on a byte boundary and holds a value. -/
def closingWidths (position : Nat) (encoding : Encoding) (v : Value) : Set Nat :=
  {width | 1 ≤ width ∧ (position + width) % 8 = 0 ∧ ∃ bits, Field.encode encoding v (some width) = .ok bits}

theorem mem_closingWidths (integer : encoding = .uint ∨ encoding = .sint)
    (natural : Field.encode encoding v none = .ok own) :
    width ∈ closingWidths position encoding v ↔ (position + width) % 8 = 0 ∧ own.length ≤ width ∧ width ≤ 128 := by
  constructor
  · intro closing
    obtain ⟨some_bits, whole, held⟩ := closing
    exact ⟨whole, (Field.encode_integer_iff integer natural some_bits).mp held⟩
  · intro closing
    obtain ⟨whole, bounds⟩ := closing
    have some_bits := Nat.le_trans (Field.own_pos integer natural) bounds.1
    exact ⟨some_bits, whole, (Field.encode_integer_iff integer natural some_bits).mpr bounds⟩

/-- The own width with its padding is the least closing width, if there is any. -/
theorem isLeast_closingWidths (integer : encoding = .uint ∨ encoding = .sint)
    (natural : Field.encode encoding v none = .ok own) :
    IsLeast (closingWidths position encoding v) width
      ↔ width = own.length + Bits.padding (position + own.length) ∧ width ≤ 128 := by
  have whole : (position + (own.length + Bits.padding (position + own.length))) % 8 = 0 := by
    rw [← Nat.add_assoc]
    exact Bits.add_padding_mod _
  have below {width : Nat} (closes : (position + width) % 8 = 0) (wide : own.length ≤ width) :
      own.length + Bits.padding (position + own.length) ≤ width := by
    have least := @Bits.padding_le (position + own.length) (width - own.length) (by rw [← closes]; congr 1; omega)
    omega
  constructor
  · intro least
    obtain ⟨closes, wide, narrow⟩ := (mem_closingWidths integer natural).mp least.1
    have above := below closes wide
    have closing : own.length + Bits.padding (position + own.length) ∈ closingWidths position encoding v :=
      (mem_closingWidths integer natural).mpr ⟨whole, Nat.le_add_right _ _, Nat.le_trans above narrow⟩
    exact ⟨Nat.le_antisymm (least.2 closing) above, narrow⟩
  · intro h
    obtain ⟨rfl, narrow⟩ := h
    refine ⟨(mem_closingWidths integer natural).mpr ⟨whole, Nat.le_add_right _ _, narrow⟩, ?_⟩
    intro other closing
    obtain ⟨closes, wide, _⟩ := (mem_closingWidths integer natural).mp closing
    exact below closes wide

/-- An integer is written in the least closing width, and it is read as the same integer. -/
theorem restBits_of_isLeast (integer : encoding = .uint ∨ encoding = .sint)
    (least : IsLeast (closingWidths position encoding v) width) :
    ∃ bits back n, restBits position encoding v = .ok bits ∧ bits.length = width
      ∧ Field.encode encoding v (some width) = .ok bits ∧ Field.decode encoding bits = .ok back
      ∧ v.integer? = some n ∧ back.integer? = some n := by
  obtain ⟨_, _, bits, encoded⟩ := least.1
  obtain ⟨own, natural⟩ := Field.exists_own_of_encode integer encoded
  obtain ⟨back, n, read, number, same⟩ := Field.integer_of_encode integer encoded
  refine ⟨bits, back, n, ?_, Field.length_of_encode encoded, encoded, read, number, same⟩
  rw [((isLeast_closingWidths integer natural).mp least).1] at encoded
  exact restBits_of_widened natural encoded read (Field.absorbs_integer number same)

/-- A value whose own bits cannot be widened up to the byte boundary is refused. -/
theorem restBits_unpaddable (natural : Field.encode encoding v none = .ok own)
    (refused : ∀ bits,
      Field.encode encoding v (some (own.length + Bits.padding (position + own.length))) ≠ .ok bits) :
    restBits position encoding v
      = .error (.unpaddable v (position + own.length) (Bits.padding (position + own.length))) := by
  have odd : Bits.padding (position + own.length) ≠ 0 := by
    intro even
    rw [even, Nat.add_zero] at refused
    exact refused own (Field.encode_some_length natural)
  have found : toField encoding v none = .ok own := toField_ok.mpr natural
  rw [restBits, found]
  cases widened : Field.encode encoding v (some (own.length + Bits.padding (position + own.length))) with
  | ok bits => exact absurd widened (refused bits)
  | error fault =>
    show (if Bits.padding (position + own.length) = 0 then _ else _) = _
    rw [if_neg odd, widened]

/-- An integer without a closing width is refused. -/
theorem restBits_of_empty (integer : encoding = .uint ∨ encoding = .sint) {width : Option Nat}
    (encoded : Field.encode encoding v width = .ok bits) (empty : closingWidths position encoding v = ∅) :
    ∃ fault, restBits position encoding v = .error fault ∧ fault.family = .alignment := by
  obtain ⟨own, natural⟩ := Field.exists_own_of_encode integer encoded
  refine ⟨_, restBits_unpaddable natural fun widened fits => ?_, rfl⟩
  have some_bits := Field.own_pos integer natural
  have closing : own.length + Bits.padding (position + own.length) ∈ closingWidths position encoding v := by
    refine ⟨by omega, ?_, widened, fits⟩
    rw [← Nat.add_assoc]
    exact Bits.add_padding_mod _
  rw [empty] at closing
  exact closing

/-! ## Digits -/

/-- Hexadecimal digits are written in less than a byte more than their own bits, and they are read as the same digits up
to leading zeros and letter case. -/
theorem restBits_of_hex {digits : String} (hex : encoding = .lowerHex ∨ encoding = .upperHex)
    (held : Field.HasDigits encoding v digits) (valid : ∀ c ∈ digits.toList, (Hex.digit? c).isSome) :
    ∃ bits read, restBits position encoding v = .ok bits
      ∧ bits.length = 4 * digits.length + Bits.padding (position + 4 * digits.length)
      ∧ Field.decode encoding bits = .ok (.hex read) ∧ sameDigits digits read = true := by
  obtain ⟨own, natural, spelled, length⟩ := Field.exists_own_hex held valid
  have natural : Field.encode encoding v none = .ok own := by
    obtain rfl | rfl := hex
    · exact natural
    · exact natural
  have number : Field.numberOf? encoding digits = some own.toNat := by
    rw [Field.numberOf?_hex hex, spelled]
    rfl
  have small : own.toNat < 2 ^ (own.length + Bits.padding (position + own.length)) :=
    Nat.lt_of_lt_of_le own.toNat_lt (Nat.pow_le_pow_right (by decide) (Nat.le_add_right _ _))
  have fits : Field.Fits encoding v (own.length + Bits.padding (position + own.length)) := by
    obtain rfl | rfl := hex
    · exact ⟨digits, _, held, number, small⟩
    · exact ⟨digits, _, held, number, small⟩
  obtain ⟨bits, encoded⟩ := Field.exists_encode.mpr fits
  have exact : encoding ≠ .float := by
    obtain rfl | rfl := hex <;> decide
  obtain ⟨read, decoded, same⟩ : ∃ read, Field.decode encoding bits = .ok (.hex read) ∧ sameDigits digits read = true := by
    obtain ⟨back, decoded, kept⟩ := Field.preserves_of_encode exact encoded
    cases kept with
    | hex _ written same =>
      cases held.unique written
      exact ⟨_, decoded, same⟩
    | _ => obtain h | h := hex <;> cases h
  have absorbed : absorbsPadding v (.hex read) = true := by
    cases held with
    | bin => obtain h | h := hex <;> cases h
    | _ => exact same
  refine ⟨bits, read, restBits_of_widened natural encoded decoded absorbed, ?_, decoded, same⟩
  rw [Field.length_of_encode encoded, length]

/-- Binary digits are written exactly if they end on a byte boundary by themselves. -/
theorem restBits_bin_ok : restBits position .bin v = .ok bits
    ↔ Field.HasDigits .bin v bits.toDigits ∧ (position + bits.length) % 8 = 0 := by
  rw [← Field.encode_bin_ok]
  constructor
  · intro written
    refine ⟨?_, restBits_aligned written⟩
    obtain ⟨own, natural, even | odd⟩ := restBits_ok.mp written
    · rw [← even.2]
      exact natural
    · -- a widened field reads as more digits than the value has
      obtain ⟨odd, widened, back, read, absorbed⟩ := odd
      cases read
      have held := Field.encode_bin_ok.mp natural
      have same : bits.toDigits = own.toDigits := by
        generalize own.toDigits = digits at held
        cases held with
        | bin => exact eq_of_beq absorbed
        | text => exact eq_of_beq absorbed
      have length : bits.length = own.length := by simpa using congrArg String.length same
      have wider := Field.length_of_encode widened
      omega
  · intro h
    exact restBits_of_own h.1 h.2

/-- A field up to the end of the data takes the least width that ends on a byte boundary and keeps the value. An integer
is refused for its alignment if none of up to 128 bits does. Hexadecimal digits are kept up to leading zeros and letter
case, so they always have such a width; binary digits are kept as they are, so they have one only where they end on a byte
boundary by themselves. -/
theorem rest_widths (position : Nat) :
    (∀ (encoding : Encoding) (v : Value), encoding = .uint ∨ encoding = .sint →
      (∀ width, IsLeast (closingWidths position encoding v) width →
        ∃ bits back n, restBits position encoding v = .ok bits ∧ bits.length = width
          ∧ Field.encode encoding v (some width) = .ok bits ∧ Field.decode encoding bits = .ok back
          ∧ v.integer? = some n ∧ back.integer? = some n)
      ∧ ∀ (width : Option Nat) (bits : Bits), Field.encode encoding v width = .ok bits →
        closingWidths position encoding v = ∅ →
        ∃ fault, restBits position encoding v = .error fault ∧ fault.family = .alignment)
      ∧ (∀ (encoding : Encoding) (v : Value) (digits : String), encoding = .lowerHex ∨ encoding = .upperHex →
        Field.HasDigits encoding v digits → (∀ c ∈ digits.toList, (Hex.digit? c).isSome) →
        ∃ bits read, restBits position encoding v = .ok bits
          ∧ 4 * digits.length ≤ bits.length ∧ bits.length < 4 * digits.length + 8 ∧ (position + bits.length) % 8 = 0
          ∧ Field.decode encoding bits = .ok (.hex read)
          ∧ (read.toList.dropWhile (· == '0')).map Char.toLower = (digits.toList.dropWhile (· == '0')).map Char.toLower)
      ∧ ∀ (v : Value) (digits : String), Field.HasDigits .bin v digits → (∀ c ∈ digits.toList, c = '0' ∨ c = '1') →
        ((∃ bits, restBits position .bin v = .ok bits) ↔ (position + digits.length) % 8 = 0)
          ∧ ∀ bits, restBits position .bin v = .ok bits → bits.toDigits = digits := by
  refine ⟨fun encoding v integer => ⟨fun width => restBits_of_isLeast integer,
    fun width bits => restBits_of_empty integer⟩, ?_, ?_⟩
  · intro encoding v digits hex held valid
    obtain ⟨bits, read, written, length, decoded, same⟩ := @restBits_of_hex position _ _ _ hex held valid
    have padding := Bits.padding_lt (position + 4 * digits.length)
    refine ⟨bits, read, written, by omega, by omega, restBits_aligned written, decoded, ?_⟩
    exact (eq_of_beq same).symm
  · intro v digits held valid
    have unchanged (bits : Bits) (written : restBits position .bin v = .ok bits) : bits.toDigits = digits :=
      (restBits_bin_ok.mp written).1.unique held
    obtain ⟨own, rfl⟩ := Field.exists_toDigits valid
    refine ⟨⟨?_, ?_⟩, unchanged⟩
    · intro written
      obtain ⟨bits, written⟩ := written
      rw [← unchanged bits written, Bits.length_toDigits]
      exact (restBits_bin_ok.mp written).2
    · intro whole
      rw [Bits.length_toDigits] at whole
      exact ⟨own, restBits_bin_ok.mpr ⟨held, whole⟩⟩

/-- From the second bit on, 300 takes 15 bits, and a number of 128 bits never ends on a byte boundary. -/
theorem rest_widths_unaligned :
    IsLeast (closingWidths 1 .uint (.sint 300)) 15
      ∧ (∃ bits, restBits 1 .uint (.sint 300) = .ok bits ∧ bits.length = 15)
      ∧ closingWidths 1 .sint (.sint (BitVec.ofInt 128 (-2 ^ 127))) = ∅
      ∧ (∃ fault, restBits 1 .sint (.sint (BitVec.ofInt 128 (-2 ^ 127))) = .error fault ∧ fault.family = .alignment)
      ∧ (∃ bits, restBits 1 .upperHex (.text "0af") = .ok bits ∧ 12 ≤ bits.length ∧ bits.length < 20)
      ∧ ((∃ bits, restBits 1 .bin (.bin "1010101") = .ok bits) ↔ (1 + 7) % 8 = 0) := by
  have natural : Field.encode .uint (.sint 300) none = .ok (Bits.ofNat 9 300) := rfl
  have lowest : Field.encode .sint (.sint (BitVec.ofInt 128 (-2 ^ 127))) none = .ok (Bits.ofNat 128 (2 ^ 127)) := by rfl
  have least : IsLeast (closingWidths 1 .uint (.sint 300)) 15 :=
    (isLeast_closingWidths (.inl rfl) natural).mpr ⟨by decide, by decide⟩
  have empty : closingWidths 1 .sint (.sint (BitVec.ofInt 128 (-2 ^ 127))) = ∅ := by
    refine Set.eq_empty_of_forall_notMem fun width closing => ?_
    obtain ⟨whole, wide, narrow⟩ := (mem_closingWidths (.inr rfl) lowest).mp closing
    rw [Bits.length_ofNat] at wide
    omega
  obtain ⟨integers, hex, bin⟩ := rest_widths 1
  obtain ⟨bits, _, _, written, length, _⟩ := (integers .uint (.sint 300) (.inl rfl)).1 15 least
  obtain ⟨digits, _, spelled, wide, narrow, _⟩ :=
    hex .upperHex (.text "0af") "0af" (.inr rfl) .text (by simp [Hex.digit?])
  exact ⟨least, ⟨bits, written, length⟩, empty, (integers .sint _ (.inr rfl)).2 none _ lowest empty,
    ⟨digits, spelled, wide, narrow⟩, (bin (.bin "1010101") "1010101" .bin (by simp)).1⟩

end Encoder

end BitTemplate
